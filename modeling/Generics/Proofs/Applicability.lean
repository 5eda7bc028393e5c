import Generics.Proofs.KeptPromises
import Generics.Proofs.RoundTrip
import Generics.Proofs.Soundness

/-!
# Serving every instance

An implementation that serves the open type of a definition serves its closed types as well, if it
does so through a single application that mentions all its parameters: what has been found over the
parameters of the definition is specialised to the arguments that take their place.  This rests on
promises being kept, which fails where a parameter is bounded by another that declares itself a
reference type: an interface may be passed for the bound and a struct below it for the parameter.
-/

namespace Generics

/-! ## Substituting twice -/

namespace Tree

variable {free : List Param} {h f : Param → Tree} {T : Tree} {p : Param}

/-- The parameters `free` become what `f` makes of their images under `h`. -/
def through (free : List Param) (h f : Param → Tree) (p : Param) : Tree :=
  if p ∈ free then (h p).subst f else .param p

theorem through_of_mem (hp : p ∈ free) : through free h f p = (h p).subst f := if_pos hp

theorem rigid_through : Rigid free (through free h f) := fun _ hp => if_neg hp

theorem subst_through (hT : ∀ p ∈ T.params, p ∈ free) :
    T.subst (through free h f) = (T.subst h).subst f := by
  rw [subst_subst]
  exact subst_congr fun p hp => through_of_mem (hT p hp)

theorem map_subst_through {Ts : List Tree} (hTs : ∀ T ∈ Ts, ∀ p ∈ T.params, p ∈ free) :
    Ts.map (subst (through free h f)) = (Ts.map (subst h)).map (subst f) := by
  rw [List.map_map]
  exact List.map_congr_left fun T hT => subst_through (hTs T hT)

end Tree

section

variable {c : Catalog} {base ts us : Types} {d g : DefId} {info ginfo : Definition}
  {args xs : List TypeId} {Fs Bs Xs : List Tree} {free : List Param} {h : Param → Tree} {p : Param}
  {opened b : TypeId} {above : InternTable TypeId}

/-! ## Arguments in the place of parameters -/

/-- The definition `g` takes the arguments `xs`, which can take the place of its parameters. -/
structure Closes (c : Catalog) (base ts : Types) (g : DefId) (ginfo : Definition) (xs : List TypeId)
    (Xs : List Tree) : Prop where
  unfolds : List.Forall₂ ts.Unfolds xs Xs
  wellformed : ∀ X ∈ Xs, X.Wellformed c.definitions
  arity : ginfo.arity = Xs.length
  keeps : c.KeepsPromises ts g xs
  specialises : Specialises c base g Xs

/-- Well-formed types that are no parameters have kinds. -/
theorem exists_kinds (hplain : c.overrides = [])
    (hvalid : ∀ x ∈ xs, (c.view ts).check x = .ok () ∧ (c.view ts).isParam x = false) :
    ∃ Xs, List.Forall₂ ts.Unfolds xs Xs ∧ (∀ X ∈ Xs, X.Wellformed c.definitions) ∧
      ∀ X ∈ Xs, ∃ kind, X.kind? c.definitions = some kind := by
  obtain ⟨Xs, hXs⟩ := forall₂_of_forall_exists fun x hx => (c.check_eq_ok_iff hplain).1 (hvalid x hx).1
  refine ⟨Xs, hXs.imp fun _ _ h => h.1, fun X hX => ?_, fun X hX => ?_⟩
  · obtain ⟨x, -, -, hwf⟩ := exists_of_mem_right hXs hX
    exact hwf
  · obtain ⟨x, hx, hxX, hwf⟩ := exists_of_mem_right hXs hX
    obtain ⟨e, he⟩ := Option.isSome_iff_exists.1 ((c.isParam_iff hplain hxX).1 (hvalid x hx).2)
    obtain ⟨info, hinfo⟩ := hwf.exists_definition he
    exact ⟨_, Tree.kind?_of_definition? he hinfo⟩

/-- What `g` takes can take the place of its parameters. -/
theorem exists_closes {s s' : Session} (hc : c.Declared base) (hlayered : c.Layered base)
    (hinvariant : c.BoundedInvariantly base g) (hbounds : c.NoReferenceBounds base g)
    (hbase : base.Grows s.types) (hg : c.definitions.get? g = some ginfo)
    (hopened : ∀ i < ginfo.arity, ∃ q, s.types.get? q = some (.param ⟨g, i⟩))
    (hvalid : ∀ x ∈ xs, (c.view s.types).check x = .ok () ∧ (c.view s.types).isParam x = false)
    {closed : TypeId} (hconstruct : Engine.construct c g xs s = (.ok closed, s')) :
    ∃ Xs, Closes c base s.types g ginfo xs Xs ∧ s.types.Grows s'.types ∧
      s'.types.Unfolds closed (.apply g Xs) := by
  have hplain := hc.plain
  obtain ⟨Xs, hunfolds, hwf, hkinds⟩ := exists_kinds hplain hvalid
  obtain ⟨hgrow, hconstructed, -⟩ :=
    (Engine.settles_construct (d := g) hc.grounded hbase hunfolds).of_apply_eq hconstruct
  obtain ⟨hclosed, info, htakes⟩ := hconstructed closed rfl
  obtain rfl := Option.some.inj (htakes.known.symm.trans hg)
  have hbelow := htakes.supertype hplain hinvariant
  have hkeeps := keepsPromises_of_layered hc hlayered hunfolds hkinds htakes hbounds hbase
  exact ⟨Xs, ⟨hunfolds, hwf, htakes.arity, hkeeps, specialises_of_keepsPromises hc hbase hg htakes.arity
    hunfolds hkeeps hopened hbelow.constraints⟩, hgrow, hclosed⟩

/-! ## What the open type tells -/

/-- Over the parameters of `g` the definition `d` takes the arguments that `h` gives it, under which
the application above it becomes the open type of `g`; constraints of free parameters have
counterparts above what these become. -/
structure Serves (c : Catalog) (base ts : Types) (d g : DefId) (info ginfo : Definition)
    (free : List Param) (Fs Bs : List Tree) (args : List TypeId) (h : Param → Tree) : Prop where
  image : (Tree.app g Bs).subst (.assign d (Fs.map (Tree.subst h))) = .opened g ginfo.arity
  unfolds : List.Forall₂ ts.Unfolds args (Fs.map (Tree.subst h))
  takes : Takes c base ts d args (Fs.map (Tree.subst h)) (Accepts c base) info
  answered : ∀ p ∈ free, Unifier.Answered c base free (.assign d Fs) p (h p)

namespace Serves

variable (hserves : Serves c base ts d g info ginfo free Fs Bs args h)

include hserves in
theorem lt_arity {i : Nat} {F : Tree} (hF : Fs[i]? = some F) : i < info.arity := by
  rw [hserves.takes.arity, List.length_map]
  exact (List.getElem?_eq_some_iff.1 hF).1

variable (hc : c.WellDeclared base) (hg : c.definitions.get? g = some ginfo)
  (hall : ∀ i < info.arity, ⟨d, i⟩ ∈ (Tree.app g Bs).params)

include hserves hc hg hall in
/-- The arguments are over the parameters of `g`. -/
theorem owned {F : Tree} (hF : F ∈ Fs) : (F.subst h).Owned c.definitions g := by
  obtain ⟨i, hi⟩ := List.mem_iff_getElem?.1 hF
  have hopened : ((Tree.app g Bs).subst (.assign d (Fs.map (Tree.subst h)))).Owned c.definitions g :=
    hserves.image ▸ Tree.owned_opened hg
  have hown := (hereditary_owned hc.declared g).of_subst hopened (hall i (hserves.lt_arity hi))
  rwa [Tree.assign_of_getElem? (A := F.subst h) (by rw [List.getElem?_map, hi, Option.map_some])]
    at hown

include hserves hc hg hall in
theorem owned_of_mem_map {T : Tree} (hT : T ∈ Fs.map (Tree.subst h)) : T.Owned c.definitions g := by
  obtain ⟨F, hF, rfl⟩ := List.mem_map.1 hT
  exact hserves.owned hc hg hall hF

variable (hcloses : Closes c base us g ginfo xs Xs) (hFs : ∀ F ∈ Fs, ∀ p ∈ F.params, p ∈ free)

include hserves hc hcloses hFs in
/-- Under the specialised arguments the application above `d` becomes the closed type. -/
theorem image_through (hover : Overlying c base ts d g opened b above info Bs) :
    (Tree.app g Bs).subst (.assign d (Fs.map (Tree.subst (Tree.through free h (.assign g Xs))))) =
      .apply g Xs := by
  have howned := hover.owned hc.declared
  rw [Tree.map_subst_through hFs, ← Tree.subst_assign howned.wellformed howned.owner hover.known
    hserves.takes.arity, hserves.image, Tree.subst_assign_opened hcloses.arity.symm]

include hserves hc hg hall hcloses hFs

theorem meetConstraints_through :
    MeetConstraints base d info (Fs.map (Tree.subst (Tree.through free h (.assign g Xs))))
      (Accepts c base) := by
  rw [Tree.map_subst_through hFs]
  exact hcloses.specialises.meetConstraints hc.declared hserves.takes.known hserves.takes.arity
    (fun _ hT => hserves.owned_of_mem_map hc hg hall hT) hserves.takes.constraints

/-- The definition takes the specialised arguments as well. -/
theorem constructible_through (hbase : base.Grows ts) (hgrow : ts.Grows us) :
    Constructible c us d (Fs.map (Tree.subst (Tree.through free h (.assign g Xs)))) := by
  refine constructible_of_takes hc.grounded (hbase.trans hgrow) fun vs args' hvs hargs' =>
    ⟨hserves.takes.known, ?_, ?_, hserves.meetConstraints_through hc hg hall hcloses hFs⟩
  · rw [hserves.takes.arity, List.length_map, List.length_map]
  · rw [Tree.map_subst_through hFs] at hargs'
    exact MeetSpecials.subst_of_keepsPromises hc.declared (hbase.trans hgrow) hvs hcloses.unfolds
      hcloses.keeps (Types.forall₂_unfolds_grow hserves.unfolds hgrow) hargs'
      (fun _ hT => (hserves.owned_of_mem_map hc hg hall hT).owner)
      (hserves.takes.specials.grow (hc.grounded.grow hbase) hserves.unfolds hgrow)

variable (hreached : ∀ p ∈ free, ∃ F ∈ Fs, p ∈ F.params)

include hreached

omit hFs in
/-- What lies above the image of a parameter lies above it after specialisation, so there is nothing
to be inferred. -/
theorem supported_through (hp : p ∈ free) :
    Unifier.Supported c base free (.assign d Fs) (· ∈ free) p (Tree.through free h (.assign g Xs) p) := by
  intro decl k K hdecl hk hK hmentions
  refine ⟨fun q hq _ => hq, fun e As heq => ?_⟩
  obtain ⟨Ss, hS, hlen⟩ := hserves.answered p hp decl k K hdecl hk hK hmentions e As heq
  obtain ⟨F, hF, hpF⟩ := hreached p hp
  have hown := (hereditary_owned hc.declared g).of_subst (hserves.owned hc hg hall hF) hpF
  have habove := hcloses.specialises.supertype hc.declared hown hS
  rw [Tree.subst_app] at habove
  exact ⟨_, Tree.through_of_mem hp ▸ habove, (List.length_map _).trans hlen⟩

/-- Specialised to arguments of `g`, the instance of the implementation is the target of a request for
the closed type. -/
theorem target {k : Closing} (hk : k.definition = d) (hfree : k.free = free)
    (hover : Overlying c base ts d g opened b above info Bs) (hgrow : ts.Grows us) :
    Request.Target c base us k (.app g Bs) (.apply g Xs) Fs
      (Tree.through free h (.assign g Xs)) := by
  subst hk hfree
  have himage := hserves.image_through hc hcloses hFs hover
  refine ⟨Tree.rigid_through, himage, fun p hp => ?_, fun p hp =>
    hserves.supported_through hc hg hall hcloses hreached hp,
    hserves.constructible_through hc hg hall hcloses hFs hover.grows hgrow⟩
  obtain ⟨F, hF, hpF⟩ := hreached p hp
  obtain ⟨i, hi⟩ := List.mem_iff_getElem?.1 hF
  exact ⟨i, F, hi, hpF, hall i (hserves.lt_arity hi)⟩

end Serves

/-! ## Requests -/

theorem Closes.apply_eq_app (hcloses : Closes c base ts g ginfo xs Xs) (h : 0 < ginfo.arity) :
    Tree.apply g Xs = .app g Xs := by
  refine Tree.apply_of_ne_nil (List.ne_nil_of_length_pos ?_) g
  exact hcloses.arity ▸ h

namespace Request

variable {s : Session} {r : Request} {i : Implementation} {I : Tree} {As : List Tree}

/-- An implementation without parameters that the abstraction accepts serves it. -/
theorem resolve_eq_valid_of_accepts {A : Tree} (hc : c.Grounded base) (hbase : base.Grows s.types)
    (hi : (c.view s.types).examine r.abstraction r.implementation = .ok i) (hfree : i.free = [])
    (hA : s.types.Unfolds r.abstraction A) (hI : s.types.Unfolds r.implementation I)
    (haccepts : Accepts c base A I) (hlimit : Engine.cutShort (r.resolve c) s = false) :
    (r.resolve c s).1 = .ok (.valid r.implementation) := by
  have hclosed : Engine.Settles (Except.ok (ε := ResolveError) <$> r.resolveClosed c) s.types
      fun res _ cut => cut = false → res = .ok (.valid r.implementation) :=
    (settles_resolveClosed hc hbase hA hI).map fun outcome _ _ _ hQ hcut =>
      congrArg Except.ok (hQ.2 hcut haccepts)
  obtain ⟨-, hres⟩ := (settles_resolve_of_free_eq_nil hc.plain hi hfree hclosed).elim rfl
  exact hres hlimit

/-- A target that meets all constraints is reached through the only application above the open
definition, if that mentions all parameters. -/
theorem exists_resolve_eq_valid (hc : c.WellDeclared base)
    (hover : Overlying c base s.types i.definition g opened b above info Bs)
    (hi : (c.view s.types).examine r.abstraction r.implementation = .ok i) (hfree : i.free ≠ [])
    (hA : s.types.Unfolds r.abstraction (.app g As)) (hI : s.types.Unfolds r.implementation I)
    (harity : info.arity = I.args.length)
    (htarget : Target c base s.types (r.closing i) (.app g Bs) (.app g As) I.args h)
    (hmeets : MeetConstraints base i.definition info (I.args.map (Tree.subst h)) (Accepts c base))
    (hall : ∀ j < info.arity, ⟨i.definition, j⟩ ∈ (Tree.app g Bs).params)
    (hlimit : Engine.cutShort (r.resolve c) s = false) :
    ∃ closed, (r.resolve c s).1 = .ok (.valid closed) := by
  have harity' : info.arity = (I.args.map (Tree.subst h)).length := by rw [harity, List.length_map]
  obtain ⟨hgrow, answer, outcome, -, hleads, hres⟩ :=
    (settles_resolve_of_overlying hc.grounded hover hi hfree hA hI).elim rfl
  rw [hlimit] at hleads
  have hdeclared : ∀ p, p ∈ (c.view s.types).paramsOf i.definition opened ↔
      p.owner = i.definition ∧ p.index < info.arity := fun p =>
    mem_paramsOf_opened hc.plain hover.unfolds_opened
  have hbound : ∀ p ∈ (c.view s.types).paramsOf i.definition opened,
      FreeIn ((c.view s.types).paramsOf i.definition opened) Bs p := by
    rintro ⟨o, j⟩ hp
    obtain ⟨(rfl : o = _), hlt⟩ := (hdeclared _).1 hp
    exact ⟨hp, by simpa using hall j hlt⟩
  have hsupported : ∀ p, FreeIn ((c.view s.types).paramsOf i.definition opened) Bs p →
      Unifier.Supported c base ((c.view s.types).paramsOf i.definition opened) .param
        (FreeIn ((c.view s.types).paramsOf i.definition opened) Bs) p
        (.assign i.definition (I.args.map (Tree.subst h)) p) := by
    rintro ⟨o, j⟩ ⟨hp, -⟩
    obtain ⟨(rfl : o = _), hlt⟩ := (hdeclared _).1 hp
    have hX := List.getElem?_eq_getElem (harity' ▸ hlt)
    exact (Tree.assign_of_getElem? hX).symm ▸
      supported_of_meets hc hover.known hmeets (fun _ _ => rfl) hbound hX
  have himage := htarget.image
  rw [Tree.subst_app] at himage
  obtain ⟨found, rfl, hagrees, hcontains⟩ := hleads.unifies rfl _ (rigid_assign harity' hdeclared)
    (Tree.app.inj himage).2 hsupported
  have hconsistent : (r.closing i).Consistent (r.resolve c s).2.types I.args found h := by
    intro j F hF
    have hlt : j < info.arity := harity ▸ (List.getElem?_eq_some_iff.1 hF).1
    have hF' : (I.args.map (Tree.subst h))[j]? = some (F.subst h) := by
      rw [List.getElem?_map, hF, Option.map_some]
    refine ⟨fun t ht => Tree.assign_of_getElem? (d := i.definition) hF' ▸ hagrees _ t ht,
      fun hnone => ?_⟩
    have hsome := (hcontains ⟨i.definition, j⟩).2 (hbound _ ((hdeclared _).2 ⟨rfl, hlt⟩))
    rw [Substitution.contains, show found.get? ⟨i.definition, j⟩ = none from hnone] at hsome
    cases hsome
  obtain ⟨closed, rfl, -⟩ := hleads.exists_eq_ok htarget (hover.mem_paramsOf hc.declared) rfl rfl
    hconsistent (htarget.image ▸ hover.accepts_image hc harity')
  exact ⟨closed, hres⟩

/-- A candidate that leads from the open type of `g` to a closed type tells what a closed one can rely
on. -/
theorem Leads.exists_serves {ts us : Types} {k : Closing} {answer : Except UnifyError Substitution}
    {outcome : Except Rejection TypeId} {cut : Bool} {closed : TypeId} (hc : c.WellDeclared base)
    (hover : Overlying c base ts k.definition g opened b above info Bs) (hgrow : ts.Grows us)
    (hopened : Tree.opened g ginfo.arity = .app g As) (harity : info.arity = Fs.length)
    (hleads : Leads c base ts us r k ((c.view ts).paramsOf k.definition opened) (.app g As) Fs As Bs
      answer outcome cut)
    (houtcome : outcome = .ok closed) :
    ∃ args h, Serves c base us k.definition g info ginfo k.free Fs Bs args h := by
  obtain ⟨found, xs, σ, h, hanswer, hsolution, -, hchecks⟩ := hleads.sound closed houtcome
  obtain ⟨_, hconstructed, -⟩ := (Engine.settles_construct hc.grounded (hover.grows.trans hgrow)
    hsolution.args).exists_of_lasts hchecks.constructed
  obtain ⟨-, info', htakes⟩ := hconstructed closed rfl
  obtain rfl := Option.some.inj (htakes.known.symm.trans hover.known)
  refine ⟨xs, h, ?_, hsolution.args, htakes, hsolution.answered⟩
  rw [hopened]
  exact hleads.image_eq hanswer hsolution.consistent (hover.mem_paramsOf hc.declared) fun p hp =>
    harity ▸ hover.params_subset hc.declared p hp

/-- A request for the open type of `g` that ends in a closed type tells what a request for a closed one
can rely on. -/
theorem exists_serves {closed : TypeId} (hc : c.WellDeclared base)
    (hover : Overlying c base s.types d g opened b above info Bs) (hgeneric : 0 < ginfo.arity)
    (hA : s.types.Unfolds r.abstraction (.opened g ginfo.arity))
    (hd : (c.view s.types).definitionOf r.implementation = some d)
    (h : (r.resolve c s).1 = .ok (.valid closed)) :
    ∃ i I, (c.view s.types).examine r.abstraction r.implementation = .ok i ∧ i.definition = d ∧
      s.types.Unfolds r.implementation I ∧ s.types.Grows (r.resolve c s).2.types ∧
      if i.free = [] then Accepts c base (.opened g ginfo.arity) I
      else ∃ args h, Serves c base (r.resolve c s).2.types d g info ginfo i.free I.args Bs args h := by
  have hopen : ∀ i A I us opened' info', s.types.Grows us →
      (c.view s.types).examine r.abstraction r.implementation = .ok i →
      us.Unfolds r.abstraction A → A.Wellformed c.definitions → us.Unfolds r.implementation I →
      List.Forall₂ us.Unfolds i.args I.args → c.definitions.get? i.definition = some info' →
      us.Unfolds opened' (.opened i.definition info'.arity) →
      Engine.Settles (r.resolveOpen c i opened') us fun outcome vs _ => ∀ closed,
        outcome = .valid closed →
          ∃ args h, Serves c base vs d g info ginfo i.free I.args Bs args h := by
    intro i A I us opened' info' hgrow hi hA' _ hI hargs hinfo hopened
    obtain rfl := c.definition_of_examine hc.plain hi hd
    obtain rfl := Option.some.inj (hinfo.symm.trans hover.known)
    obtain rfl := hA'.unique (hA.grow hgrow)
    have hover' := hover.grow hc.grounded hgrow
    obtain rfl := hopened.inj hover'.unfolds_opened
    obtain ⟨-, ⟨I', hI', hwf, hdef⟩, -⟩ := (c.examine_eq_ok_iff hc.plain).1 hi
    obtain rfl := hI.unique (hI'.grow hgrow)
    rw [Tree.opened_eq_app hgeneric] at hA'
    refine (settles_resolveOpen_of_filter hc.grounded hover'.grows hA' hargs hopened hover'.unfolds
      hover'.lasts hover'.filter).mono ?_
    rintro _ vs cut hvs ⟨answer, outcome, -, hleads, rfl⟩ closed hclosed
    cases outcome with
    | error e => cases hclosed
    | ok closed' =>
      exact hleads.exists_serves (k := r.closing i) hc hover' hvs (Tree.opened_eq_app hgeneric)
        (hwf.arity_eq hdef hover.known) rfl
  obtain ⟨i, I, hi, hI, hgrow, hends⟩ :=
    of_resolve_eq_valid_of (hc.grounded.grow hover.grows) hopen h
  refine ⟨i, I, hi, c.definition_of_examine hc.plain hi hd, hI, hgrow, ?_⟩
  split at hends
  · rename_i hnil
    rw [if_pos hnil]
    obtain ⟨rfl, haccepted⟩ := hends
    obtain ⟨_, hsound, -⟩ := (Engine.settles_isAssignable hc.grounded (hover.grows.trans hgrow)
      (hA.grow hgrow) (hI.grow hgrow)).exists_of_lasts haccepted
    exact hsound rfl
  · rename_i hne
    rwa [if_neg hne]

end Request

/-- A probe that succeeds has resolved a request for the open type. -/
theorem Engine.exists_of_servesEveryInstance {s s' : Session} {abstraction implementation : TypeId}
    (hg : (c.view s.types).definitionOf abstraction = some g)
    (h : servesEveryInstance c abstraction implementation s = (.ok true, s')) :
    ∃ representative s₁ closed, definitionType c g s = (some representative, s₁) ∧
      (Request.resolve c { abstraction := representative, implementation } s₁).1 =
        .ok (.valid closed) ∧
      (Request.resolve c { abstraction := representative, implementation } s₁).2.types = s'.types := by
  simp only [servesEveryInstance, bind_apply, query_apply] at h
  rcases hd : (c.view s.types).abstractionDefinition abstraction with e | d
  · rw [hd] at h
    cases h
  obtain rfl : d = g := by
    unfold View.abstractionDefinition at hd
    rw [hg] at hd
    obtain ⟨_, -, hd⟩ := bind_eq_ok_iff.1 hd
    exact (Except.ok.inj hd).symm
  simp only [hd, bind_apply] at h
  rcases hopen : definitionType c d s with ⟨_ | representative, s₁⟩
  · rw [hopen] at h
    cases h
  simp only [hopen, bind_apply] at h
  rcases hresolve : Request.resolve c { abstraction := representative, implementation } s₁ with
    ⟨e | _ | closed, s₂⟩
  · rw [hresolve] at h
    cases h
  · rw [hresolve] at h
    cases (Prod.mk.inj h).1
  · rw [hresolve] at h
    refine ⟨representative, s₁, closed, rfl, by rw [hresolve], ?_⟩
    rw [hresolve, ← (Prod.mk.inj h).2]

/-! ## Closed versions -/

theorem Catalog.mem_free_iff {abstraction implementation : TypeId} {i : Implementation} {I : Tree}
    (hplain : c.overrides = []) (hi : (c.view ts).examine abstraction implementation = .ok i)
    (hI : ts.Unfolds implementation I) : p ∈ i.free ↔ p ∈ I.params := by
  obtain ⟨-, -, -, hfree, -⟩ := (c.examine_eq_ok_iff hplain).1 hi
  exact hfree ▸ c.mem_params_iff hplain hI

namespace Closes

variable {s : Session} {r : Request} {i : Implementation} {I : Tree} (hc : c.WellDeclared base)
  (hcloses : Closes c base ts g ginfo xs Xs) (hg : c.definitions.get? g = some ginfo)
  (hgrow : ts.Grows s.types) (hA : s.types.Unfolds r.abstraction (.apply g Xs))
  (hi : (c.view s.types).examine r.abstraction r.implementation = .ok i)
  (hI : s.types.Unfolds r.implementation I)
  (hlimit : Engine.cutShort (r.resolve c) s = false)

include hc hcloses hg hgrow hA hi hI hlimit

/-- An implementation without parameters that the open type accepts serves the closed one. -/
theorem resolve_eq_valid_of_accepts (hbase : base.Grows ts) (hnil : i.free = [])
    (haccepts : Accepts c base (.opened g ginfo.arity) I) :
    (r.resolve c s).1 = .ok (.valid r.implementation) := by
  obtain ⟨-, ⟨I', hI', hwf, -⟩, -⟩ := (c.examine_eq_ok_iff hc.plain).1 hi
  obtain rfl := hI.unique hI'
  have hnone : ∀ p, p ∉ I.params := by
    intro p hp
    rw [← c.mem_free_iff hc.plain hi hI, hnil] at hp
    cases hp
  have howned : I.Owned c.definitions g := ⟨hwf, fun p hp => absurd hp (hnone p)⟩
  have hclosed := hcloses.specialises.accepts hc.declared (Tree.owned_opened hg) howned haccepts
  rw [Tree.subst_assign_opened hcloses.arity.symm,
    Tree.subst_eq_self fun p hp => absurd hp (hnone p)] at hclosed
  exact Request.resolve_eq_valid_of_accepts hc.grounded (hbase.trans hgrow) hi hnil hA hI hclosed hlimit

/-- An implementation that serves the open type through the only application above its definition
serves the closed one. -/
theorem exists_resolve_eq_valid (hgeneric : 0 < ginfo.arity) (hne : i.free ≠ [])
    (hover : Overlying c base us i.definition g opened b above info Bs) (hus : us.Grows ts)
    (hall : ∀ j < info.arity, ⟨i.definition, j⟩ ∈ (Tree.app g Bs).params)
    (hserves : Serves c base us i.definition g info ginfo i.free I.args Bs args h) :
    ∃ t, (r.resolve c s).1 = .ok (.valid t) := by
  obtain ⟨-, ⟨I', hI', hwf, hdef⟩, -⟩ := (c.examine_eq_ok_iff hc.plain).1 hi
  obtain rfl := hI.unique hI'
  have hfree : ∀ p, p ∈ i.free ↔ p ∈ I.params := fun p => c.mem_free_iff hc.plain hi hI
  have hFs : ∀ F ∈ I.args, ∀ p ∈ F.params, p ∈ i.free := fun F hF p hp =>
    (hfree p).2 (Tree.mem_params_of_mem_args hF hp)
  have hreached : ∀ p ∈ i.free, ∃ F ∈ I.args, p ∈ F.params := fun p hp =>
    (Tree.mem_params_iff_mem_args (by simp [hdef])).1 ((hfree p).1 hp)
  have htarget := hserves.target (k := r.closing i) hc hg hall hcloses hFs hreached rfl rfl hover hus
  rw [hcloses.apply_eq_app hgeneric] at hA htarget
  exact Request.exists_resolve_eq_valid hc (hover.grow hc.grounded (hus.trans hgrow)) hi hne hA hI
    (hwf.arity_eq hdef hover.known) (htarget.grow hgrow)
    (hserves.meetConstraints_through hc hg hall hcloses hFs) hall hlimit

end Closes

/-- An implementation that passes the probe for the definition `g` serves what `g` becomes for any
arguments that it takes: provided a single application of `g` lies above the open definition of the
implementation and mentions all its parameters, no constraint of `g` varies or is a parameter that
declares itself a reference type, and only classes have base classes.  Each of these is needed: see
`ProbeSample.twofold_misjudged`, `ProbeSample.unreached_misjudged`, `ProbeSample.varying_misjudged`,
`BoundSample.servesEveryInstance_but_not_struct` and `ProbeSample.unlayered_misjudged`. -/
theorem closedImplementation_of_servesEveryInstance {s s₁ s₂ s₃ s₄ s₅ : Session}
    {abstraction implementation closed : TypeId}
    (hc : c.WellDeclared s.types) (hlayered : c.Layered s.types)
    (hinvariant : c.BoundedInvariantly s.types g) (hbounds : c.NoReferenceBounds s.types g)
    (hg : c.definitions.get? g = some ginfo) (hgeneric : ginfo.isGeneric)
    (hd : c.definitions.get? d = some info)
    (hopen : Engine.definitionType c d s = (some opened, s₁))
    (habove : Engine.supertypes c opened s₁ = (above, s₂))
    (hunique : above.toList.filter ((c.view s₂.types).isApplicationOf g) = [b])
    (hall : ∀ i < info.arity, ⟨d, i⟩ ∈ (c.view s₂.types).params b)
    (habstraction : (c.view s₂.types).definitionOf abstraction = some g)
    (himplementation : (c.view s₂.types).definitionOf implementation = some d)
    (hprobe : Engine.servesEveryInstance c abstraction implementation s₂ = (.ok true, s₃))
    (hlater : s₃.types.Grows s₄.types)
    (hvalid : ∀ x ∈ xs, (c.view s₄.types).check x = .ok () ∧ (c.view s₄.types).isParam x = false)
    (hconstruct : Engine.construct c g xs s₄ = (.ok closed, s₅))
    (hlimit : Engine.cutShort (Engine.closedImplementation c closed implementation) s₅ = false) :
    ∃ t, (Engine.closedImplementation c closed implementation s₅).1 = .ok (some t) := by
  have hplain := hc.plain
  obtain ⟨info', Bs, hover⟩ := exists_overlying hc.grounded hopen habove hunique
  obtain rfl := Option.some.inj (hover.known.symm.trans hd)
  have hall' : ∀ i < info'.arity, ⟨d, i⟩ ∈ (Tree.app g Bs).params := fun i hi =>
    (c.mem_params_iff hplain hover.unfolds).1 (hall i hi)
  -- the probe
  obtain ⟨representative, s₂', closed₀, hrepresentative, hresolve, hs₃⟩ :=
    Engine.exists_of_servesEveryInstance habstraction hprobe
  obtain ⟨hgrow₂, -, hA₀⟩ := (Engine.settles_definitionType c g s₂.types).of_apply_eq hrepresentative
  simp only [hg] at hA₀
  obtain ⟨_, heq, hA₀⟩ := hA₀
  cases heq
  have hover₂ := hover.grow hc.grounded hgrow₂
  obtain ⟨i, I, hi, rfl, hI, hgrow₃, hserves⟩ :=
    Request.exists_serves (r := { abstraction := representative, implementation }) hc hover₂
      (ginfo.arity_pos hgeneric) hA₀ (c.definitionOf_grow hplain himplementation hgrow₂) hresolve
  rw [hs₃] at hgrow₃ hserves
  have hgrow₄ := hgrow₃.trans hlater
  -- the closed type
  obtain ⟨Xs, hcloses, hgrow₅, hA⟩ := exists_closes hc.declared hlayered hinvariant hbounds
    (hover₂.grows.trans hgrow₄) hg (exists_param_of_opened (hA₀.grow hgrow₄)) hvalid hconstruct
  have hgrow := hgrow₄.trans hgrow₅
  have hclosed := c.examine_of_grows hplain hi hgrow hA (Tree.wellformed_apply hg hcloses.arity
    hcloses.wellformed) (by simp [Tree.definition?_apply])
  suffices hres : ∃ t, (Request.resolve c { abstraction := closed, implementation } s₅).1 =
      .ok (.valid t) by
    obtain ⟨t, ht⟩ := hres
    exact ⟨t, congrArg (Except.map Resolution.closed?) ht⟩
  split at hserves
  · rename_i hnil
    exact ⟨_, hcloses.resolve_eq_valid_of_accepts hc hg hgrow₅ hA hclosed (hI.grow hgrow) hlimit
      (hover₂.grows.trans hgrow₄) hnil hserves⟩
  · rename_i hne
    obtain ⟨args, h, hserves⟩ := hserves
    exact hcloses.exists_resolve_eq_valid hc hg hgrow₅ hA hclosed (hI.grow hgrow) hlimit
      (ginfo.arity_pos hgeneric) hne (hover₂.grow hc.grounded hgrow₃) hlater hall' hserves

end

/-! ## A bound that may be an interface -/

namespace BoundSample

/-- Definitions `G<T, U>` where `T : U` and `T`, `U` have the special constraints given, the class
`D<T, U> : G<T, U>` where `T` is a reference type, an interface `I`, a struct `S : I` and a class
`C : I`. -/
def catalog (first second : Special) : Catalog where
  definitions.entries := #[
    { kind := .interfaceType, name := ⟨1⟩,
      params := [{ name := ⟨2⟩, constraints := [⟨0⟩], special := first },
        { name := ⟨3⟩, special := second }] },
    { kind := .classType, name := ⟨4⟩,
      params := [{ name := ⟨2⟩, special := .reference }, { name := ⟨3⟩ }], interfaces := [⟨3⟩] },
    { kind := .interfaceType, name := ⟨5⟩ },
    { kind := .structType, name := ⟨6⟩, interfaces := [⟨4⟩] },
    { kind := .classType, name := ⟨7⟩, interfaces := [⟨4⟩] }]

/-- The parameter `U` of `G`, the parameters `T` and `U` of `D` and `G<T, U>` over these, then `I`,
`S`, `C`, and the open type of `G`. -/
def session : Session where
  types := .ofNodes [.param ⟨⟨1⟩, 1⟩, .param ⟨⟨2⟩, 0⟩, .param ⟨⟨2⟩, 1⟩, .app ⟨1⟩ [⟨1⟩, ⟨2⟩],
    .named ⟨3⟩, .named ⟨4⟩, .named ⟨5⟩, .param ⟨⟨1⟩, 0⟩, .app ⟨1⟩ [⟨7⟩, ⟨0⟩]]

section

variable (c : Catalog)

/-- The session after the open type `D<T, U>` has been interned. -/
def opened : Session := (Engine.definitionType c ⟨2⟩ session).2

/-- What lies above `D<T, U>`, and the session after the enumeration. -/
def climbed : InternTable TypeId × Session := Engine.supertypes c ⟨9⟩ (opened c)

/-- The probe whether `D<T, U>` serves every `G<T, U>`. -/
def probed : Except ResolveError Bool × Session :=
  Engine.servesEveryInstance c ⟨8⟩ ⟨9⟩ (climbed c).2

/-- The construction of `G<x, I>`. -/
def constructed (x : TypeId) : Except ConstructError TypeId × Session :=
  Engine.construct c ⟨1⟩ [x, ⟨4⟩] (probed c).2

end

/-- Where `G` declares its parameter `T` a reference type, `D` serves `G<C, I>`. -/
theorem closedImplementation_of_servesEveryInstance_class :
    ∃ t, (Engine.closedImplementation (catalog .reference .none) ⟨11⟩ ⟨9⟩
      (constructed (catalog .reference .none) ⟨6⟩).2).1 = .ok (some t) := by
  have hopen : Engine.definitionType (catalog .reference .none) ⟨2⟩ session =
      (some ⟨9⟩, opened (catalog .reference .none)) := Prod.fst_eq_iff.1 (by decide +kernel)
  have hunique : (climbed (catalog .reference .none)).1.toList.filter
      (((catalog .reference .none).view
        (climbed (catalog .reference .none)).2.types).isApplicationOf ⟨1⟩) = [⟨3⟩] := by
    decide +kernel
  have hprobe : Engine.servesEveryInstance (catalog .reference .none) ⟨8⟩ ⟨9⟩
      (climbed (catalog .reference .none)).2 = (.ok true, (probed (catalog .reference .none)).2) :=
    Prod.fst_eq_iff.1 (by decide +kernel)
  have hconstruct : Engine.construct (catalog .reference .none) ⟨1⟩ [⟨6⟩, ⟨4⟩]
      (probed (catalog .reference .none)).2 =
        (.ok ⟨11⟩, (constructed (catalog .reference .none) ⟨6⟩).2) :=
    Prod.fst_eq_iff.1 (by decide +kernel)
  exact closedImplementation_of_servesEveryInstance (s := session) (by decide +kernel)
    (by decide +kernel) (by decide +kernel) (by decide +kernel) rfl rfl rfl hopen rfl hunique
    (by decide +kernel) (by decide +kernel) (by decide +kernel) hprobe (.refl _) (by decide +kernel)
    hconstruct (by decide +kernel)

/-- Where `G` only bounds `T` by a reference type, the probe succeeds as well, but `D` does not serve
`G<S, I>`: the struct `S` lies below the interface `I`. -/
theorem servesEveryInstance_but_not_struct :
    (catalog .none .reference).WellDeclared session.types ∧
    (probed (catalog .none .reference)).1 = .ok true ∧
    (∀ x ∈ [⟨5⟩, ⟨4⟩], ((catalog .none .reference).view session.types).check x = .ok () ∧
      ((catalog .none .reference).view session.types).params x = []) ∧
    (constructed (catalog .none .reference) ⟨5⟩).1 = .ok ⟨11⟩ ∧
    Engine.cutShort (Engine.closedImplementation (catalog .none .reference) ⟨11⟩ ⟨9⟩)
      (constructed (catalog .none .reference) ⟨5⟩).2 = false ∧
    (Engine.closedImplementation (catalog .none .reference) ⟨11⟩ ⟨9⟩
      (constructed (catalog .none .reference) ⟨5⟩).2).1 = .ok none := by
  refine ⟨?_, ?_, ?_, ?_, ?_, ?_⟩ <;> decide +kernel

end BoundSample

/-! ## Where a single probe tells too little -/

/-- A store with definitions `G` and `D`, which are the first two, and arguments for `G`. -/
structure ProbeSample where
  catalog : Catalog
  session : Session
  /-- The open type of `G`. -/
  abstraction : TypeId
  /-- The open type of `D`. -/
  implementation : TypeId
  args : List TypeId

namespace ProbeSample

section

variable (x : ProbeSample)

/-- What lies above the open type of `D`, and the session after the enumeration. -/
def climbed : InternTable TypeId × Session := Engine.supertypes x.catalog x.implementation x.session

/-- The applications of `G` above the open type of `D`, each with the parameters that it mentions. -/
def candidates : List (TypeId × List Param) :=
  (x.climbed.1.toList.filter ((x.catalog.view x.climbed.2.types).isApplicationOf ⟨1⟩)).map fun t =>
    (t, (x.catalog.view x.climbed.2.types).params t)

/-- The probe whether `D` serves every instance of `G`. -/
def probed : Except ResolveError Bool × Session :=
  Engine.servesEveryInstance x.catalog x.abstraction x.implementation x.climbed.2

/-- The construction of `G` over the arguments. -/
def constructed : Except ConstructError TypeId × Session :=
  Engine.construct x.catalog ⟨1⟩ x.args x.probed.2

/-- The probe succeeds, and `G` takes the arguments, which mention no parameters; but `D` does not serve
what `G` becomes, and that is not because of a limit. -/
def Misjudged (closed : TypeId) : Prop :=
  x.catalog.WellDeclared x.session.types ∧
  (Engine.definitionType x.catalog ⟨2⟩ x.session).1 = some x.implementation ∧
  x.probed.1 = .ok true ∧
  (∀ a ∈ x.args, (x.catalog.view x.session.types).check a = .ok () ∧
    (x.catalog.view x.session.types).params a = []) ∧
  x.constructed.1 = .ok closed ∧
  Engine.cutShort (Engine.closedImplementation x.catalog closed x.implementation) x.constructed.2 =
    false ∧
  (Engine.closedImplementation x.catalog closed x.implementation x.constructed.2).1 = .ok none

instance (closed : TypeId) : Decidable (x.Misjudged closed) := inferInstanceAs (Decidable (_ ∧ _))

end

/-- Definitions `G<T, U>`, `D<T, U> : G<T, U>, G<L<U>, T>`, `L<T>` and a class `C`; then `G<L<C>, C>`. -/
def twofold : ProbeSample where
  catalog.definitions.entries := #[
    { kind := .interfaceType, name := ⟨1⟩, params := [{ name := ⟨2⟩ }, { name := ⟨3⟩ }] },
    { kind := .classType, name := ⟨4⟩, params := [{ name := ⟨2⟩ }, { name := ⟨3⟩ }],
      interfaces := [⟨6⟩, ⟨8⟩] },
    { kind := .interfaceType, name := ⟨5⟩, params := [{ name := ⟨2⟩ }] },
    { kind := .classType, name := ⟨6⟩ }]
  session.types := .ofNodes [.param ⟨⟨1⟩, 0⟩, .param ⟨⟨1⟩, 1⟩, .param ⟨⟨2⟩, 0⟩, .param ⟨⟨2⟩, 1⟩,
    .app ⟨1⟩ [⟨0⟩, ⟨1⟩], .app ⟨2⟩ [⟨2⟩, ⟨3⟩], .app ⟨1⟩ [⟨2⟩, ⟨3⟩], .app ⟨3⟩ [⟨3⟩], .app ⟨1⟩ [⟨7⟩, ⟨2⟩],
    .named ⟨4⟩, .app ⟨3⟩ [⟨9⟩]]
  abstraction := ⟨4⟩
  implementation := ⟨5⟩
  args := [⟨10⟩, ⟨9⟩]

/-- The second application of `G` above `D` does not match an open type, but it does match `G<L<C>, C>`,
which `D<C, C>` serves as well as `D<L<C>, C>`. -/
theorem twofold_misjudged :
    twofold.Misjudged ⟨14⟩ ∧
    twofold.catalog.Layered twofold.session.types ∧
    twofold.catalog.BoundedInvariantly twofold.session.types ⟨1⟩ ∧
    twofold.catalog.NoReferenceBounds twofold.session.types ⟨1⟩ ∧
    twofold.candidates = [(⟨6⟩, [⟨⟨2⟩, 0⟩, ⟨⟨2⟩, 1⟩]), (⟨8⟩, [⟨⟨2⟩, 1⟩, ⟨⟨2⟩, 0⟩])] := by
  refine ⟨?_, ?_, ?_, ?_, ?_⟩ <;> decide +kernel

/-- Definitions `G<T>` where `T : L<E>`, `D<T, U> : G<T>` where `T : L<U>` and `U` is a reference type,
`L<T>`, a class `E`, a struct `C` and a class `X : L<C>, L<E>`; then `G<X>`. -/
def unreached : ProbeSample where
  catalog.definitions.entries := #[
    { kind := .interfaceType, name := ⟨1⟩, params := [{ name := ⟨2⟩, constraints := [⟨8⟩] }] },
    { kind := .classType, name := ⟨3⟩,
      params := [{ name := ⟨2⟩, constraints := [⟨6⟩] }, { name := ⟨4⟩, special := .reference }],
      interfaces := [⟨5⟩] },
    { kind := .interfaceType, name := ⟨5⟩, params := [{ name := ⟨2⟩ }] },
    { kind := .classType, name := ⟨6⟩ },
    { kind := .structType, name := ⟨7⟩ },
    { kind := .classType, name := ⟨8⟩, interfaces := [⟨10⟩, ⟨8⟩] }]
  session.types := .ofNodes [.param ⟨⟨1⟩, 0⟩, .param ⟨⟨2⟩, 0⟩, .param ⟨⟨2⟩, 1⟩, .app ⟨1⟩ [⟨0⟩],
    .app ⟨2⟩ [⟨1⟩, ⟨2⟩], .app ⟨1⟩ [⟨1⟩], .app ⟨3⟩ [⟨2⟩], .named ⟨4⟩, .app ⟨3⟩ [⟨7⟩], .named ⟨5⟩,
    .app ⟨3⟩ [⟨9⟩], .named ⟨6⟩]
  abstraction := ⟨3⟩
  implementation := ⟨4⟩
  args := [⟨11⟩]

/-- Nothing but `L<E>` lies above the parameter of `G`, but `L<C>` is the first above `X`, so that `C` is
inferred for `U`. -/
theorem unreached_misjudged :
    unreached.Misjudged ⟨13⟩ ∧
    unreached.catalog.Layered unreached.session.types ∧
    unreached.catalog.BoundedInvariantly unreached.session.types ⟨1⟩ ∧
    unreached.catalog.NoReferenceBounds unreached.session.types ⟨1⟩ ∧
    unreached.candidates = [(⟨5⟩, [⟨⟨2⟩, 0⟩])] := by
  refine ⟨?_, ?_, ?_, ?_, ?_⟩ <;> decide +kernel

/-- Definitions `G<T, U>` where `T : E<U>`, `D<T, U> : G<T, U>` where `T : F<U>`, `F<T>`,
`E<out T> : F<T>`, and classes `A`, `B : A` and `X : E<B>`; then `G<X, A>`. -/
def varying : ProbeSample where
  catalog.definitions.entries := #[
    { kind := .interfaceType, name := ⟨1⟩,
      params := [{ name := ⟨2⟩, constraints := [⟨7⟩] }, { name := ⟨3⟩ }] },
    { kind := .classType, name := ⟨4⟩,
      params := [{ name := ⟨2⟩, constraints := [⟨8⟩] }, { name := ⟨3⟩ }], interfaces := [⟨6⟩] },
    { kind := .interfaceType, name := ⟨5⟩, params := [{ name := ⟨2⟩ }] },
    { kind := .interfaceType, name := ⟨6⟩, params := [{ name := ⟨2⟩, variance := .covariant }],
      interfaces := [⟨10⟩] },
    { kind := .classType, name := ⟨7⟩ },
    { kind := .classType, name := ⟨8⟩, base := some ⟨11⟩ },
    { kind := .classType, name := ⟨9⟩, interfaces := [⟨14⟩] }]
  session.types := .ofNodes [.param ⟨⟨1⟩, 0⟩, .param ⟨⟨1⟩, 1⟩, .param ⟨⟨2⟩, 0⟩, .param ⟨⟨2⟩, 1⟩,
    .app ⟨1⟩ [⟨0⟩, ⟨1⟩], .app ⟨2⟩ [⟨2⟩, ⟨3⟩], .app ⟨1⟩ [⟨2⟩, ⟨3⟩], .app ⟨4⟩ [⟨1⟩], .app ⟨3⟩ [⟨3⟩],
    .param ⟨⟨4⟩, 0⟩, .app ⟨3⟩ [⟨9⟩], .named ⟨5⟩, .named ⟨6⟩, .named ⟨7⟩, .app ⟨4⟩ [⟨12⟩]]
  abstraction := ⟨4⟩
  implementation := ⟨5⟩
  args := [⟨13⟩, ⟨11⟩]

/-- What is below `E<U>` is below `F<U>`, but `X` is only accepted by `E<A>`, since `E` varies, and not by
`F<A>`. -/
theorem varying_misjudged :
    varying.Misjudged ⟨19⟩ ∧
    varying.catalog.Layered varying.session.types ∧
    varying.catalog.NoReferenceBounds varying.session.types ⟨1⟩ ∧
    varying.candidates = [(⟨6⟩, [⟨⟨2⟩, 0⟩, ⟨⟨2⟩, 1⟩])] := by
  refine ⟨?_, ?_, ?_, ?_⟩ <;> decide +kernel

/-- Definitions `G<T>` where `T : B`, `D<T> : G<T>` where `T` is a reference type, a class `B` and a
struct `S : B`; then `G<S>`. -/
def unlayered : ProbeSample where
  catalog.definitions.entries := #[
    { kind := .interfaceType, name := ⟨1⟩, params := [{ name := ⟨2⟩, constraints := [⟨5⟩] }] },
    { kind := .classType, name := ⟨3⟩, params := [{ name := ⟨2⟩, special := .reference }],
      interfaces := [⟨4⟩] },
    { kind := .classType, name := ⟨4⟩ },
    { kind := .structType, name := ⟨5⟩, base := some ⟨5⟩ }]
  session.types := .ofNodes [.param ⟨⟨1⟩, 0⟩, .param ⟨⟨2⟩, 0⟩, .app ⟨1⟩ [⟨0⟩], .app ⟨2⟩ [⟨1⟩],
    .app ⟨1⟩ [⟨1⟩], .named ⟨3⟩, .named ⟨4⟩]
  abstraction := ⟨2⟩
  implementation := ⟨3⟩
  args := [⟨6⟩]

/-- A parameter below a class is promised to be a reference type, but the struct `S` lies below `B`. -/
theorem unlayered_misjudged :
    unlayered.Misjudged ⟨8⟩ ∧
    unlayered.catalog.BoundedInvariantly unlayered.session.types ⟨1⟩ ∧
    unlayered.catalog.NoReferenceBounds unlayered.session.types ⟨1⟩ ∧
    unlayered.candidates = [(⟨4⟩, [⟨⟨2⟩, 0⟩])] := by
  refine ⟨?_, ?_, ?_, ?_⟩ <;> decide +kernel

end ProbeSample

end Generics
