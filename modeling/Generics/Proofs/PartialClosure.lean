import Generics.Proofs.Inference
import Generics.Proofs.Mirroring.Types

/-!
# Partial closures

An implementation that fixes some arguments of its definition is closed only if its fixed arguments
agree with all that unification finds, what it infers from constraints included.  Where one candidate
determines the free parameters, there is one other obstacle: the abstraction must accept the instance,
which is certain unless a supertype is declared to be a bare parameter.
-/

namespace Generics

section

/-! ## What unification finds and what the arguments are -/

/-- Whether the arguments `xs` of `d` are the types found for its parameters, and those for which
nothing was found mention no parameter of `free`. -/
def View.admits (v : View) (d : DefId) (free : List Param) (xs : List TypeId) :
    Except UnifyError Substitution → Bool
  | .error _ => false
  | .ok found => xs.zipIdx.all fun (x, i) =>
    match found.get? ⟨d, i⟩ with
    | some t => t == x
    | none => !v.mentionsAny x free

variable {c : Catalog} {base ts us : Types} {d g : DefId} {xs : List TypeId} {h : Param → Tree}
  {Fs : List Tree} {found σ : Substitution} {implementation : TypeId}

theorem admits_iff {v : View} {free : List Param} : v.admits d free xs (.ok found) ↔
    ∀ (i : Nat) (x : TypeId), xs[i]? = some x → (∀ t, found.get? ⟨d, i⟩ = some t → t = x) ∧
      (found.get? ⟨d, i⟩ = none → v.mentionsAny x free = false) := by
  simp only [View.admits, List.all_eq_true, Prod.forall, List.mem_zipIdx_iff_getElem?]
  refine ⟨fun hall i x hx => ?_, fun hall x i hx => ?_⟩
  · have hix := hall x i hx
    split at hix
    · rename_i t ht
      simp_all
    · rename_i hnone
      simp_all
  · obtain ⟨hsome, hnone⟩ := hall i x hx
    split
    · rename_i t ht
      simpa using hsome t ht
    · rename_i ht
      simpa using hnone ht

theorem admits_iff_consistent (hplain : c.overrides = []) {k : Closing}
    (hxs : List.Forall₂ ts.Unfolds xs (Fs.map (Tree.subst h))) (hgrow : ts.Grows us) :
    (c.view ts).admits k.definition k.free xs (.ok found) ↔ k.Consistent us Fs found h := by
  rw [admits_iff]
  have hmentions : ∀ {x : TypeId} {F : Tree}, ts.Unfolds x (F.subst h) →
      ((c.view ts).mentionsAny x k.free = false ↔ ∀ p ∈ k.free, p ∉ (F.subst h).params) := by
    intro x F hx
    rw [← Bool.not_eq_true, c.mentionsAny_iff hplain hx]
    simp
  constructor
  · intro hall i F hF
    obtain ⟨x, hx, hxF⟩ := exists_getElem?_of_forall₂ hxs.flip
      (show (Fs.map (Tree.subst h))[i]? = some (F.subst h) by rw [List.getElem?_map, hF]; rfl)
    obtain ⟨hsome, hnone⟩ := hall i x hx
    refine ⟨fun t ht => ?_, fun ht => (hmentions hxF).1 (hnone ht)⟩
    rw [hsome t ht]
    exact Types.Unfolds.grow hxF hgrow
  · intro hk i x hx
    obtain ⟨X, hX, hxX⟩ := exists_getElem?_of_forall₂ hxs hx
    rw [List.getElem?_map, Option.map_eq_some_iff] at hX
    obtain ⟨F, hF, rfl⟩ := hX
    obtain ⟨hsome, hnone⟩ := hk i F hF
    exact ⟨fun t ht => (hsome t ht).inj (hxX.grow hgrow), fun ht => (hmentions hxX).2 (hnone ht)⟩

/-! ## Filling the free parameters -/

/-- `σ` maps exactly the parameters that `implementation` mentions, to well-formed types. -/
structure Fills (c : Catalog) (ts : Types) (implementation : TypeId) (σ : Substitution) : Prop where
  domain : ∀ p, p ∈ σ.domain ↔ p ∈ (c.view ts).params implementation
  valid : ∀ p t, σ.get? p = some t → (c.view ts).check t = .ok ()

theorem Fills.exists_unfolds (hplain : c.overrides = []) (hσ : Fills c ts implementation σ) :
    ∃ h, σ.Unfolds ts h ∧ Rigid ((c.view ts).params implementation) h ∧
      ∀ p ∈ (c.view ts).params implementation, (h p).Wellformed c.definitions ∧
        ∃ t, σ.get? p = some t := by
  obtain ⟨h, hh⟩ := Substitution.exists_unfolds fun p t ht => by
    obtain ⟨T, hT, -⟩ := (c.check_eq_ok_iff hplain).1 (hσ.valid p t ht)
    exact ⟨T, hT⟩
  refine ⟨h, hh, fun p hp => (hh p).2 ?_, fun p hp => ?_⟩
  · rw [← Option.not_isSome_iff_eq_none]
    exact fun hsome => hp ((hσ.domain p).1 ((σ.contains_iff_mem_domain p).1 hsome))
  · obtain ⟨t, ht⟩ := Option.isSome_iff_exists.1
      ((σ.contains_iff_mem_domain p).2 ((hσ.domain p).2 hp))
    obtain ⟨T, hT, hwf⟩ := (c.check_eq_ok_iff hplain).1 (hσ.valid p t ht)
    exact ⟨(((hh p).1 t ht).unique hT) ▸ hwf, t, ht⟩

theorem settles_mapM_instantiate (hplain : c.overrides = []) {args : List TypeId}
    (hargs : List.Forall₂ ts.Unfolds args Fs) (hσ : σ.Unfolds ts h) :
    Engine.Settles (args.mapM (Engine.instantiate c · σ)) ts fun xs us _ =>
      List.Forall₂ us.Unfolds xs (Fs.map (Tree.subst h)) := by
  refine (Engine.Settles.mapM (R := fun us a x => ∃ F, us.Unfolds a F ∧ us.Unfolds x (F.subst h))
    (fun us vs a x hvs ⟨F, haF, hxF⟩ => ⟨F, haF.grow hvs, hxF.grow hvs⟩) fun a ha us hus => ?_).mono ?_
  · obtain ⟨F, -, haF⟩ := exists_of_mem_left hargs ha
    refine (Engine.settles_instantiate hplain (haF.grow hus) (hσ.grow hus)).mono ?_
    rintro x vs cut hvs ⟨hx, hcut, -⟩
    exact ⟨⟨F, haF.grow (hus.trans hvs), hx⟩, hcut⟩
  · rintro xs us cut hus ⟨hxs, -⟩
    refine forall₂_of_getElem? ?_ fun i x X hx hX => ?_
    · rw [← hxs.length_eq, List.length_map, hargs.length_eq]
    · rw [List.getElem?_map, Option.map_eq_some_iff] at hX
      obtain ⟨F, hF, rfl⟩ := hX
      obtain ⟨a, ha, F', haF', hx'⟩ := exists_getElem?_of_forall₂ hxs.flip hx
      obtain ⟨F'', hF'', haF''⟩ := exists_getElem?_of_forall₂ hargs ha
      obtain rfl := Option.some.inj (hF.symm.trans hF'')
      rwa [(haF''.grow hus).unique haF']

/-- The filling `σ` of the parameters of `implementation`, an `I` of the definition `d`, has the images
`h`. -/
structure Filling (c : Catalog) (ts : Types) (d : DefId) (implementation : TypeId) (σ : Substitution)
    (I : Tree) (h : Param → Tree) : Prop where
  unfolds : ts.Unfolds implementation I
  wellformed : I.Wellformed c.definitions
  definition : I.definition? = some d
  images : σ.Unfolds ts h
  rigid : Rigid ((c.view ts).params implementation) h
  wellformed_images : ∀ p ∈ I.params, (h p).Wellformed c.definitions

theorem Fills.exists_filling (hplain : c.overrides = [])
    (hvalid : (c.view ts).check implementation = .ok ())
    (hd : (c.view ts).definitionOf implementation = some d) (hfills : Fills c ts implementation σ) :
    ∃ I h, Filling c ts d implementation σ I h := by
  obtain ⟨I, hI, hwf⟩ := (c.check_eq_ok_iff hplain).1 hvalid
  obtain ⟨h, hσ, hrigid, himages⟩ := hfills.exists_unfolds hplain
  exact ⟨I, h, hI, hwf, (c.definitionOf_eq hplain hI).symm.trans hd, hσ, hrigid, fun p hp =>
    (himages p ((c.mem_params_iff hplain hI).2 hp)).1⟩

namespace Filling

variable {I : Tree} (hI : Filling c ts d implementation σ I h)

include hI

theorem grow (hplain : c.overrides = []) (hgrow : ts.Grows us) :
    Filling c us d implementation σ I h where
  unfolds := hI.unfolds.grow hgrow
  wellformed := hI.wellformed
  definition := hI.definition
  images := hI.images.grow hgrow
  rigid := by
    rw [c.params_grow hplain hI.unfolds hgrow]
    exact hI.rigid
  wellformed_images := hI.wellformed_images

theorem mem_params_iff (hplain : c.overrides = []) {p : Param} :
    p ∈ (c.view ts).params implementation ↔ ∃ F ∈ I.args, p ∈ F.params := by
  rw [c.mem_params_iff hplain hI.unfolds]
  exact Tree.mem_params_iff_mem_args (by simp [hI.definition])

theorem wellformed_args : ∀ X ∈ I.args.map (Tree.subst h), X.Wellformed c.definitions := by
  intro X hX
  obtain ⟨F, hF, rfl⟩ := List.mem_map.1 hX
  exact (hI.wellformed.of_mem_args hF).subst fun p hp =>
    hI.wellformed_images p (Tree.mem_params_of_mem_args hF hp)

/-- The filled implementation is the definition applied to the filled arguments. -/
theorem subst_eq (hplain : c.overrides = []) (hfree : (c.view ts).params implementation ≠ []) :
    I.subst h = .apply d (I.args.map (Tree.subst h)) := by
  obtain ⟨p, hp⟩ := List.exists_mem_of_ne_nil _ hfree
  obtain ⟨F, hF, -⟩ := (hI.mem_params_iff hplain).1 hp
  rw [← Tree.subst_apply, ← Tree.eq_apply_of_args_ne_nil hI.definition (List.ne_nil_of_mem hF)]

end Filling

/-! ## Closing the implementation -/

/-- Constraints on the parameters that `implementation` leaves free, but does not leave in their own
places, specialised to its arguments and still open, are met by what `σ` makes of the parameters: an
application demanded has an application of its definition above the type. -/
def MeetsOpenConstraints (c : Catalog) (base ts : Types) (d : DefId) (implementation : TypeId)
    (σ : Substitution) : Prop :=
  ∀ p t T decl k K Fs e As, σ.get? p = some t → ts.Unfolds t T → c.definitions.param? p = some decl →
    k ∈ decl.constraints → base.Unfolds k K →
    List.Forall₂ ts.Unfolds ((c.view ts).argsOf implementation) Fs → Fs[p.index]? ≠ some (.param p) →
    K.subst (.assign d Fs) = .app e As →
    (∃ q ∈ (c.view ts).params implementation, q ∈ (Tree.app e As).params) →
    ∃ Bs, Supertype c base T (.app e Bs) ∧ Bs.length = As.length

variable {r : Request} {σ : Substitution} {s s₁ s₂ s₃ s₄ s₅ : Session} {opened b closed : TypeId}
  {above : InternTable TypeId} {info : Definition} {Bs As : List Tree} {I : Tree}

/-- Where arguments meet the constraints, so does a parameter that was left in its own place. -/
theorem exists_supertype_of_place (hc : c.Declared base) (hd : c.definitions.get? d = some info)
    (hlen : info.arity = Fs.length)
    (hmeets : MeetConstraints base d info (Fs.map (Tree.subst h)) (Accepts c base)) {i : Nat}
    (hplace : Fs[i]? = some (.param ⟨d, i⟩)) {decl : ParamDecl} {k : TypeId} {K : Tree} {e : DefId}
    (hdecl : c.definitions.param? ⟨d, i⟩ = some decl) (hk : k ∈ decl.constraints)
    (hK : base.Unfolds k K) (heq : K.subst (.assign d Fs) = .app e As) :
    ∃ Bs, Supertype c base (h ⟨d, i⟩) (.app e Bs) ∧ Bs.length = As.length := by
  obtain ⟨K', hK', hwf, hown⟩ := hc.exists_constraint hdecl hk
  obtain rfl := hK.unique hK'
  have hdecl' : info.params[i]? = some decl := by
    rw [← hdecl, Definitions.param?, hd, Option.bind_some]
  have hX : (Fs.map (Tree.subst h))[i]? = some (h ⟨d, i⟩) := by
    rw [List.getElem?_map, hplace, Option.map_some, Tree.subst_param]
  have haccepts := hmeets i decl _ k K hdecl' hX hk hK
  rw [← Tree.subst_assign hwf hown hd hlen, heq, Tree.subst_app] at haccepts
  obtain ⟨Bs, hBs, hlen'⟩ := haccepts.exists_app
  exact ⟨Bs, hBs, hlen'.trans (List.length_map _)⟩

/-- A filling that can be constructed is a target. -/
theorem Imaged.target (hc : c.Declared base) {k : Closing} {abstraction : TypeId}
    (himaged : Imaged c base us k.definition g opened b above info Bs (I.args.map (Tree.subst h))
      abstraction closed)
    (hI : Filling c ts k.definition implementation σ I h)
    (hk : k.free = (c.view ts).params implementation) (hlen : info.arity = I.args.length)
    (hown : ∀ p ∈ (c.view ts).params implementation, p.owner = k.definition)
    (hreaches : ∀ p ∈ (c.view ts).params implementation, ∃ (i : Nat) (a : TypeId),
      ((c.view ts).argsOf implementation)[i]? = some a ∧ p ∈ (c.view ts).params a ∧
        ⟨k.definition, i⟩ ∈ (c.view ts).params b)
    (hb : ts.Unfolds b (.app g Bs)) (hfills : Fills c ts implementation σ)
    (hmeets : MeetsOpenConstraints c base ts k.definition implementation σ) :
    Request.Target c base us k (.app g Bs)
      (.app g (Bs.map (Tree.subst (.assign k.definition (I.args.map (Tree.subst h)))))) I.args h where
  rigid := hk ▸ hI.rigid
  image := Tree.subst_app ..
  reached p hp := by
    obtain ⟨i, a, ha, hpa, hi⟩ := hreaches p (hk ▸ hp)
    obtain ⟨F, hF, haF⟩ :=
      exists_getElem?_of_forall₂ (Engine.exists_argsOf_unfold hc.plain hI.unfolds) ha
    exact ⟨i, F, hF, (c.mem_params_iff hc.plain haF).1 hpa, (c.mem_params_iff hc.plain hb).1 hi⟩
  supported p hp := by
    rintro decl j K hdecl hj hK ⟨q, hq, hqK⟩
    refine ⟨fun q hq _ => hq, fun e As heq => ?_⟩
    by_cases hplace : I.args[p.index]? = some (.param p)
    · have hp' : p = ⟨k.definition, p.index⟩ := by rw [← hown p (hk ▸ hp)]
      rw [hp'] at hplace hdecl ⊢
      exact exists_supertype_of_place hc himaged.overlying.known hlen himaged.constraints hplace hdecl hj
        hK heq
    · obtain ⟨t, ht⟩ := Option.isSome_iff_exists.1
        ((σ.contains_iff_mem_domain p).2 ((hfills.domain p).2 (hk ▸ hp)))
      exact hmeets p t (h p) decl j K I.args e As ht ((hI.images p).1 t ht) hdecl hj hK
        (Engine.exists_argsOf_unfold hc.plain hI.unfolds) hplace heq ⟨q, hk ▸ hq, heq ▸ hqK⟩
  constructible := himaged.constructible

/-- Whether what unification finds through `b`, which lies above the open type `opened` of `d`, is what
the arguments `xs` are. -/
def Request.finds (c : Catalog) (r : Request) (d : DefId) (opened b : TypeId) (xs : List TypeId)
    (s : Session) : Bool :=
  (c.view s.types).admits d ((c.view s.types).params r.implementation) xs
    (r.unification c ((c.view s.types).paramsOf d opened) ((c.view s.types).argsOf b)
      ((c.view s.types).argsOf r.abstraction) s).1

/-- Through one candidate, a target is the only possible outcome.  It is reached if unification finds
its arguments and the abstraction accepts it, and then the abstraction is also said to accept it. -/
theorem resolve_of_target {i : Implementation} (hc : c.Grounded base)
    (hover : Overlying c base s.types i.definition g opened b above info Bs)
    (hi : (c.view s.types).examine r.abstraction r.implementation = .ok i) (hfree : i.free ≠ [])
    (hA : s.types.Unfolds r.abstraction (.app g As)) (hI : s.types.Unfolds r.implementation I)
    (htarget : Request.Target c base s.types (r.closing i) (.app g Bs) (.app g As) I.args h)
    (hdeclared : ∀ p ∈ (Tree.app g Bs).params, p ∈ (c.view s.types).paramsOf i.definition opened)
    (hxs : List.Forall₂ s.types.Unfolds xs (I.args.map (Tree.subst h)))
    (hclosed : s.types.Unfolds closed (.apply i.definition (I.args.map (Tree.subst h))))
    (hlimit : Engine.cutShort (r.resolve c) s = false) :
    (r.resolve c s).1 = .ok (.valid closed) ∧ r.finds c i.definition opened b xs s ∧
        (Engine.isAssignable c r.abstraction closed s).1 ∨
      (r.resolve c s).1 = .ok .invalid ∧ ¬(r.finds c i.definition opened b xs s ∧
        Accepts c base (.app g As) (.apply i.definition (I.args.map (Tree.subst h)))) := by
  obtain ⟨-, -, -, hparams, -⟩ := (c.examine_eq_ok_iff hc.plain).1 hi
  obtain ⟨hgrow, answer, outcome, hgives, hleads, hres⟩ :=
    (Request.settles_resolve_of_overlying hc hover hi hfree hA hI).elim rfl
  rw [hlimit] at hleads
  rw [hres, Request.finds, hgives.answer_eq, ← hparams]
  cases outcome with
  | ok closed' =>
    obtain ⟨found, rfl, hconsistent, hclosed'⟩ := hleads.of_eq_ok htarget hdeclared rfl
    obtain ⟨_, _, _, _, -, -, -, hchecks⟩ := hleads.sound closed' rfl
    obtain rfl := hclosed'.inj (hclosed.grow hgrow)
    refine .inl ⟨rfl, (admits_iff_consistent hc.plain (k := r.closing i) hxs hgrow).2 hconsistent, ?_⟩
    rw [← Engine.isAssignable_grow (hc.grow hover.grows) hA hclosed hgrow]
    exact hchecks.accepted.answer_eq (.refl _)
  | error e =>
    refine .inr ⟨rfl, fun ⟨hadmits, haccepts⟩ => ?_⟩
    cases answer with
    | error e => cases hadmits
    | ok found =>
      have hconsistent := (admits_iff_consistent hc.plain (k := r.closing i) hxs hgrow).1 hadmits
      obtain ⟨closed', heq, -⟩ := hleads.exists_eq_ok htarget hdeclared rfl rfl hconsistent haccepts
      cases heq

/-- Unification finds the arguments of a target if these are determined, unless a free parameter turns
up in the abstraction. -/
theorem finds_of_determined {i : Implementation} {ps : List Param} (hc : c.Declared base)
    (himaged : Imaged c base s.types i.definition g opened b above info Bs (I.args.map (Tree.subst h))
      r.abstraction closed)
    (hi : (c.view s.types).examine r.abstraction r.implementation = .ok i) (hfree : i.free ≠ [])
    (hI : Filling c s.types i.definition r.implementation σ I h)
    (hxs : List.Forall₂ s.types.Unfolds xs (I.args.map (Tree.subst h)))
    (htarget : Request.Target c base s.types (r.closing i) (.app g Bs)
      (.app g (Bs.map (Tree.subst (.assign i.definition (I.args.map (Tree.subst h)))))) I.args h)
    (hps : ∀ p, p ∈ ps ↔ p ∈ (Tree.app g Bs).params)
    (hfresh : ∀ p ∈ (c.view s.types).params r.abstraction, p ∉ (c.view s.types).params r.implementation)
    (hdetermined : Unifier.Determined c base i.definition ps (I.args.map (Tree.subst h)))
    (hlimit : Engine.cutShort (r.resolve c) s = false) : r.finds c i.definition opened b xs s := by
  obtain ⟨-, -, -, hparams, -⟩ := (c.examine_eq_ok_iff hc.plain).1 hi
  have hover := himaged.overlying
  have hA := himaged.abstraction
  have hdeclared : ∀ p, p ∈ (c.view s.types).paramsOf i.definition opened ↔
      p.owner = i.definition ∧ p.index < info.arity := fun p =>
    Request.mem_paramsOf_opened hc.plain hover.unfolds_opened
  have hps' : ∀ p, p ∈ ps ↔ FreeIn ((c.view s.types).paramsOf i.definition opened) Bs p := by
    intro p
    rw [hps, Tree.params_app, List.mem_flatMap]
    refine ⟨fun hp => ⟨hover.mem_paramsOf hc p ?_, hp⟩, fun hp => hp.2⟩
    rwa [Tree.params_app, List.mem_flatMap]
  obtain ⟨hgrow, answer, _, hbegins, -, -⟩ :=
    (Request.settles_resolve_of_overlying hc.grounded hover hi hfree hA hI.unfolds).elim rfl
  rw [hlimit] at hbegins
  obtain ⟨us, cut, hfinds, hus, hcut⟩ := (Request.settles_unification_determined hc hover.grows
    hover.known himaged.constraints himaged.arity hdetermined hdeclared hps'
    (Engine.exists_argsOf_unfold hc.plain hover.unfolds)
    (Engine.exists_argsOf_unfold hc.plain hA)).of_begins hbegins
  obtain ⟨found, rfl, hagrees, -⟩ := hfinds (hcut rfl)
  rw [Request.finds, hbegins.answer_eq, ← hparams]
  refine (admits_iff_consistent hc.plain (k := r.closing i) hxs hgrow).2 fun j F hF => ?_
  have hX : (I.args.map (Tree.subst h))[j]? = some (F.subst h) := by
    rw [List.getElem?_map, hF, Option.map_some]
  refine ⟨fun t ht => ?_, fun _ p hp hpF => ?_⟩
  · exact Tree.assign_of_getElem? (d := i.definition) hX ▸ (hagrees.grow hus) _ t ht
  · -- what a free parameter of the argument stands for, the candidate passes on to the abstraction
    obtain ⟨q, hq, hpq⟩ := Tree.mem_params_subst.1 hpF
    have hqfree : q ∈ i.free :=
      hparams ▸ (hI.mem_params_iff hc.plain).2 ⟨F, List.mem_of_getElem? hF, hq⟩
    obtain ⟨l, G, hG, hqG, hl⟩ := htarget.reached q hqfree
    refine hfresh p ((c.mem_params_iff hc.plain hA).2 ?_) (hparams ▸ hp)
    rw [← htarget.image]
    refine Tree.mem_params_subst.2 ⟨_, hl, ?_⟩
    rw [Tree.assign_of_getElem? (A := G.subst h) (by rw [List.getElem?_map, hG, Option.map_some])]
    exact Tree.mem_params_subst.2 ⟨q, hqG, hpq⟩

/-- A single application `b` of the abstraction's definition lies above the open definition `d` of an
implementation, and it reaches the free parameters.  Let `σ` fill these so that the instance can be
constructed and `b`, specialised to the instance's arguments `xs`, is the abstraction.  The request
ends in the instance if unification finds `xs` and the abstraction accepts the instance, and is refused
otherwise.  The abstraction accepts it unless supertypes are bare parameters, when it need not
(`BareSample.resolve_partialClosure_bare`); and unification finds `xs` if these are determined and no free
parameter turns up in the abstraction. -/
theorem resolve_partialClosure (hc : c.Declared s.types)
    (hopen : Engine.definitionType c d s = (some opened, s₁))
    (habove : Engine.supertypes c opened s₁ = (above, s₂))
    (hunique : above.toList.filter ((c.view s₂.types).isApplicationOf g) = [b])
    (hvalid : (c.view s₂.types).check r.implementation = .ok ())
    (hd : (c.view s₂.types).definitionOf r.implementation = some d)
    (hfree : (c.view s₂.types).params r.implementation ≠ [])
    (hown : ∀ p ∈ (c.view s₂.types).params r.implementation, p.owner = d)
    (hreaches : ∀ p ∈ (c.view s₂.types).params r.implementation, ∃ (i : Nat) (a : TypeId),
      ((c.view s₂.types).argsOf r.implementation)[i]? = some a ∧ p ∈ (c.view s₂.types).params a ∧
        ⟨d, i⟩ ∈ (c.view s₂.types).params b)
    (hfills : Fills c s₂.types r.implementation σ)
    (hmeets : MeetsOpenConstraints c s.types s₂.types d r.implementation σ)
    (hspecial : ((c.view s₂.types).argsOf r.implementation).mapM (Engine.instantiate c · σ) s₂ =
      (xs, s₃))
    (hconstruct : Engine.construct c d xs s₃ = (.ok closed, s₄))
    (himage : Engine.instantiate c b (.ofArgs d xs) s₄ = (r.abstraction, s₅))
    (hlimit : Engine.cutShort (r.resolve c) s₅ = false) :
    (Engine.instantiate c r.implementation σ s₅).1 = closed ∧
      (r.resolve c s₅).1 = .ok (if r.finds c d opened b xs s₅ ∧
          (Engine.isAssignable c r.abstraction closed s₅).1 then .valid closed else .invalid) ∧
      (c.WellDeclared s.types → r.finds c d opened b xs s₅ →
        (Engine.isAssignable c r.abstraction closed s₅).1) ∧
      ((∀ Xs, List.Forall₂ s₅.types.Unfolds xs Xs →
          Unifier.Determined c s.types d ((c.view s₂.types).params b) Xs) →
        (∀ p ∈ (c.view s₅.types).params r.abstraction,
          p ∉ (c.view s₅.types).params r.implementation) →
        r.finds c d opened b xs s₅) := by
  have hplain := hc.plain
  obtain ⟨info, Bs, hover⟩ := exists_overlying hc.grounded hopen habove hunique
  obtain ⟨I, h, hI⟩ := hfills.exists_filling hplain hvalid hd
  have hlen := hI.wellformed.arity_eq hI.definition hover.known
  -- the arguments of the instance, its construction and the abstraction
  obtain ⟨hgrow₃, hxs⟩ := (settles_mapM_instantiate hplain
    (Engine.exists_argsOf_unfold hplain hI.unfolds) hI.images).of_apply_eq hspecial
  obtain ⟨hgrow₅, himaged⟩ := (hover.grow hc.grounded hgrow₃).imaged hc.grounded hxs hI.wellformed_args
    hconstruct himage
  have hgrow := hgrow₃.trans hgrow₅
  have hI₅ := hI.grow hplain hgrow
  have hxs₅ := Types.forall₂_unfolds_grow hxs hgrow₅
  have hparams := c.params_grow hplain hI.unfolds hgrow
  -- the request
  obtain ⟨args, ps, hps, hi⟩ : ∃ args ps, ps = (c.view s₂.types).params r.implementation ∧
      (c.view s₅.types).examine r.abstraction r.implementation = .ok ⟨d, args, ps⟩ := by
    refine ⟨_, _, hparams, (c.examine_eq_ok_iff hplain).2
      ⟨⟨_, himaged.abstraction, ?_, by simp [Tree.definition?]⟩,
        ⟨I, hI₅.unfolds, hI₅.wellformed, hI₅.definition⟩, rfl, rfl, fun p hp => hown p (hparams ▸ hp)⟩⟩
    rw [← Tree.subst_app]
    exact hover.wellformed_image hc himaged.arity himaged.wellformed
  have hne : ps ≠ [] := hps ▸ hfree
  have htarget := himaged.target (k := r.closing ⟨d, args, ps⟩) hc hI hps hlen hown hreaches
    hover.unfolds hfills hmeets
  have hfinds := finds_of_determined (i := ⟨d, args, ps⟩) hc himaged hi hne hI₅ hxs₅ htarget
    (fun p => c.mem_params_iff hplain hover.unfolds)
  refine ⟨?_, ?_⟩
  · obtain ⟨hgrow₆, hinst, -⟩ :=
      (Engine.settles_instantiate hplain hI₅.unfolds hI₅.images).elim rfl
    exact hinst.inj (hI₅.subst_eq hplain (hparams ▸ hfree) ▸ himaged.closed.grow hgrow₆)
  obtain ⟨hres, hfinds', haccepts⟩ | ⟨hres, hnot⟩ := resolve_of_target (i := ⟨d, args, ps⟩) hc.grounded
    himaged.overlying hi hne himaged.abstraction hI₅.unfolds htarget
    (himaged.overlying.mem_paramsOf hc) hxs₅ himaged.closed hlimit
  · refine ⟨?_, fun _ _ => haccepts, fun hdetermined hfresh =>
      hfinds hfresh (hdetermined _ hxs₅) hlimit⟩
    rw [hres, if_pos ⟨hfinds', haccepts⟩]
  · obtain ⟨-, hsound, -⟩ := (Engine.settles_isAssignable hc.grounded himaged.overlying.grows
      himaged.abstraction himaged.closed).elim rfl
    refine ⟨?_, fun hwell hfinds' => ?_, fun hdetermined hfresh =>
      hfinds hfresh (hdetermined _ hxs₅) hlimit⟩
    · rw [hres, if_neg fun hboth => hnot ⟨hboth.1, hsound hboth.2⟩]
    · exact absurd ⟨hfinds', htarget.image ▸ himaged.overlying.accepts_image hwell himaged.arity⟩ hnot

end

/-! ## A fixed argument that is also inferred -/

namespace InferredSample

/-- Interfaces `L<T>` and `G<T>`, a class `D<T, U> : G<T>` where `T : L<U>`, and classes `C`, `E`,
`F : L<C>, L<E>` and `H : L<E>`. -/
def catalog : Catalog where
  definitions.entries := #[
    { kind := .interfaceType, name := ⟨1⟩, params := [{ name := ⟨2⟩ }] },
    { kind := .interfaceType, name := ⟨3⟩, params := [{ name := ⟨2⟩ }] },
    { kind := .classType, name := ⟨4⟩,
      params := [{ name := ⟨2⟩, constraints := [⟨2⟩] }, { name := ⟨5⟩ }], interfaces := [⟨3⟩] },
    { kind := .classType, name := ⟨6⟩ },
    { kind := .classType, name := ⟨7⟩ },
    { kind := .classType, name := ⟨8⟩, interfaces := [⟨6⟩, ⟨7⟩] },
    { kind := .classType, name := ⟨9⟩, interfaces := [⟨7⟩] }]

/-- The parameters `T` and `U` of `D`, then `L<U>`, `G<T>`, `C`, `E`, `L<C>`, `L<E>`, `F`, `H` and
`D<T, E>`. -/
def session : Session where
  types := .ofNodes [.param ⟨⟨3⟩, 0⟩, .param ⟨⟨3⟩, 1⟩, .app ⟨1⟩ [⟨1⟩], .app ⟨2⟩ [⟨0⟩], .named ⟨4⟩,
    .named ⟨5⟩, .app ⟨1⟩ [⟨4⟩], .app ⟨1⟩ [⟨5⟩], .named ⟨6⟩, .named ⟨7⟩, .app ⟨3⟩ [⟨0⟩, ⟨5⟩]]

/-- The session after the open type `D<T, U>` has been interned. -/
def opened : Session := (Engine.definitionType catalog ⟨3⟩ session).2

/-- What lies above `D<T, U>`, and the session after the enumeration. -/
def climbed : InternTable TypeId × Session := Engine.supertypes catalog ⟨11⟩ opened

/-- The substitution of `x` for `T`. -/
def filling (x : TypeId) : Substitution := ⟨[(⟨⟨3⟩, 0⟩, x)]⟩

/-- The arguments of `D<x, E>`. -/
def filled (x : TypeId) : List TypeId × Session :=
  ((catalog.view climbed.2.types).argsOf ⟨10⟩).mapM (Engine.instantiate catalog · (filling x)) climbed.2

/-- The construction of `D<x, E>`. -/
def constructed (x : TypeId) : Except ConstructError TypeId × Session :=
  Engine.construct catalog ⟨3⟩ [x, ⟨5⟩] (filled x).2

/-- The specialisation of `G<T>` to `G<x>`. -/
def requested (x : TypeId) : TypeId × Session :=
  Engine.instantiate catalog ⟨3⟩ (.ofArgs ⟨3⟩ [x, ⟨5⟩]) (constructed x).2

/-- The request for a `G<x>` that `D<T, E>` is to serve. -/
def request : Request := { abstraction := ⟨13⟩, implementation := ⟨10⟩ }

theorem get?_filling {x t : TypeId} {p : Param} (h : (filling x).get? p = some t) :
    p = ⟨⟨3⟩, 0⟩ ∧ t = x := by
  unfold filling Substitution.get? at h
  by_cases hp : p = ⟨⟨3⟩, 0⟩
  · subst hp
    rw [List.lookup_cons_self] at h
    exact ⟨rfl, (Option.some.inj h).symm⟩
  · rw [List.lookup_cons, beq_false_of_ne hp] at h
    cases h

theorem fills {x : TypeId} (hx : (catalog.view climbed.2.types).check x = .ok ()) :
    Fills catalog climbed.2.types ⟨10⟩ (filling x) where
  domain p := by
    have hparams : (catalog.view climbed.2.types).params ⟨10⟩ = [⟨⟨3⟩, 0⟩] := by decide +kernel
    rw [hparams]
    rfl
  valid p t ht := by
    obtain ⟨-, rfl⟩ := get?_filling ht
    exact hx

/-- `T` stays in its own place. -/
theorem meetsOpenConstraints (x : TypeId) :
    MeetsOpenConstraints catalog session.types climbed.2.types ⟨3⟩ ⟨10⟩ (filling x) := by
  rintro p t T decl k K Fs e As hp - - - - hFs hplace
  obtain ⟨rfl, -⟩ := get?_filling hp
  have hargs : (catalog.view climbed.2.types).argsOf ⟨10⟩ = [⟨0⟩, ⟨5⟩] := by decide +kernel
  have hT : climbed.2.types.Unfolds ⟨0⟩ (.param ⟨⟨3⟩, 0⟩) := .param (by decide +kernel)
  rw [hargs] at hFs
  cases hFs with
  | cons hF => exact absurd (congrArg some (hF.unique hT)) hplace

/-- Nothing but `L<E>` is an `L` above `H`. -/
theorem eq_of_supertype_H {Bs : List Tree}
    (h : Supertype catalog session.types (.named ⟨7⟩) (.app ⟨1⟩ Bs)) : Bs = [.named ⟨5⟩] := by
  have hc : catalog.WellDeclared session.types := by decide +kernel
  have hH : session.types.Unfolds ⟨9⟩ (.named ⟨7⟩) := .named (by decide +kernel)
  have hunique : ∀ t ∈ (Engine.supertypes catalog ⟨9⟩ session).1.toList,
      ∀ u ∈ (Engine.supertypes catalog ⟨9⟩ session).1.toList,
      ∀ d ∈ (catalog.view (Engine.supertypes catalog ⟨9⟩ session).2.types).definitionOf t,
        (catalog.view (Engine.supertypes catalog ⟨9⟩ session).2.types).definitionOf u = some d →
          t = u := by decide +kernel
  have hnode : session.types.get? ⟨7⟩ = some (.app ⟨1⟩ [⟨5⟩]) := by decide +kernel
  have hL : session.types.Unfolds ⟨7⟩ (.app ⟨1⟩ [.named ⟨5⟩]) :=
    .app hnode (.cons (.named (by decide +kernel)) .nil)
  have habove : DirectSupertype catalog session.types (.named ⟨7⟩) (.app ⟨1⟩ [.named ⟨5⟩]) := by
    simpa using DirectSupertype.declared (c := catalog) (S := .named ⟨7⟩) rfl rfl
      (List.mem_singleton_self _) hL
  have hsame := unambiguous_of_supertypes hc.grounded hH rfl (by decide +kernel) hunique _ _ ⟨1⟩ h
    (.single habove) rfl rfl
  exact (Tree.app.inj hsame).2

/-- `T : L<U>` determines `U` over `H`. -/
theorem determined {Xs : List Tree}
    (hXs : List.Forall₂ (requested ⟨9⟩).2.types.Unfolds [⟨9⟩, ⟨5⟩] Xs) :
    Unifier.Determined catalog session.types ⟨3⟩ ((catalog.view climbed.2.types).params ⟨3⟩) Xs := by
  have hH : (requested ⟨9⟩).2.types.Unfolds ⟨9⟩ (.named ⟨7⟩) := .named (by decide +kernel)
  have hE : (requested ⟨9⟩).2.types.Unfolds ⟨5⟩ (.named ⟨5⟩) := .named (by decide +kernel)
  have hnode : session.types.get? ⟨2⟩ = some (.app ⟨1⟩ [⟨1⟩]) := by decide +kernel
  have hL : session.types.Unfolds ⟨2⟩ (.app ⟨1⟩ [.param ⟨⟨3⟩, 1⟩]) :=
    .app hnode (.cons (.param (by decide +kernel)) .nil)
  obtain rfl := eq_of_forall₂ (List.Forall₂.cons hH (.cons hE .nil)) hXs
    fun _ _ _ _ _ hT hF => hT.unique hF
  have hconstraint : ∀ i decl k, catalog.definitions.param? ⟨⟨3⟩, i⟩ = some decl →
      k ∈ decl.constraints → i = 0 ∧ k = ⟨2⟩ := by
    rintro (_ | _ | i) decl k hdecl hk
    · cases hdecl
      exact ⟨rfl, List.mem_singleton.1 hk⟩
    · cases hdecl
      cases hk
    · cases hdecl
  refine ⟨fun i decl k e As X _ hdecl hk hK hX _ Bs hXB => ?_, fun i decl k q _ hdecl hk hK => ?_⟩
  · obtain ⟨rfl, rfl⟩ := hconstraint i decl k hdecl hk
    cases hX
    cases hK.unique hL
    rw [eq_of_supertype_H hXB]
    simp [Tree.assign]
  · obtain ⟨rfl, rfl⟩ := hconstraint i decl k hdecl hk
    cases hK.unique hL

/-- A `G<H>` is served by `D<H, E>`. -/
theorem resolve_partialClosure_fixed :
    (Engine.instantiate catalog request.implementation (filling ⟨9⟩) (requested ⟨9⟩).2).1 = ⟨12⟩ ∧
      (request.resolve catalog (requested ⟨9⟩).2).1 = .ok (.valid ⟨12⟩) := by
  have hopen : Engine.definitionType catalog ⟨3⟩ session = (some ⟨11⟩, opened) :=
    Prod.fst_eq_iff.1 (by decide +kernel)
  have hclimbed : Engine.supertypes catalog ⟨11⟩ opened = (climbed.1, climbed.2) := rfl
  have hunique : climbed.1.toList.filter ((catalog.view climbed.2.types).isApplicationOf ⟨2⟩) =
      [⟨3⟩] := by decide +kernel
  have hreaches : ∀ p ∈ (catalog.view climbed.2.types).params request.implementation,
      ∃ (i : Nat) (a : TypeId),
        ((catalog.view climbed.2.types).argsOf request.implementation)[i]? = some a ∧
          p ∈ (catalog.view climbed.2.types).params a ∧
          ⟨⟨3⟩, i⟩ ∈ (catalog.view climbed.2.types).params ⟨3⟩ := by
    intro p hp
    obtain rfl : p = ⟨⟨3⟩, 0⟩ := by revert p; decide +kernel
    exact ⟨0, ⟨0⟩, by decide +kernel⟩
  have hfills : Fills catalog climbed.2.types request.implementation (filling ⟨9⟩) :=
    fills (by decide +kernel)
  have hfilled : ((catalog.view climbed.2.types).argsOf request.implementation).mapM
      (Engine.instantiate catalog · (filling ⟨9⟩)) climbed.2 = ([⟨9⟩, ⟨5⟩], (filled ⟨9⟩).2) :=
    Prod.fst_eq_iff.1 (by decide +kernel)
  have hconstruct : Engine.construct catalog ⟨3⟩ [⟨9⟩, ⟨5⟩] (filled ⟨9⟩).2 =
      (.ok ⟨12⟩, (constructed ⟨9⟩).2) := Prod.fst_eq_iff.1 (by decide +kernel)
  have himage : Engine.instantiate catalog ⟨3⟩ (.ofArgs ⟨3⟩ [⟨9⟩, ⟨5⟩]) (constructed ⟨9⟩).2 =
      (request.abstraction, (requested ⟨9⟩).2) :=
    Prod.fst_eq_iff.1 (by decide +kernel)
  obtain ⟨hinstance, hresolve, haccepts, hfinds⟩ := resolve_partialClosure (by decide +kernel) hopen
    hclimbed hunique (by decide +kernel) (by decide +kernel) (by decide +kernel) (by decide +kernel)
    hreaches hfills (meetsOpenConstraints ⟨9⟩) hfilled hconstruct himage (by decide +kernel)
  have hfinds := hfinds (fun _ => determined) (by decide +kernel)
  exact ⟨hinstance, hresolve.trans (by rw [if_pos ⟨hfinds, haccepts (by decide +kernel) hfinds⟩])⟩

/-- A `G<F>` is not served by `D<F, E>`, although that can be constructed: `F : L<U>` first suggests
`C` for the argument that is fixed to `E`. -/
theorem resolve_partialClosure_inferred :
    catalog.WellDeclared session.types ∧
    (Engine.definitionType catalog ⟨3⟩ session).1 = some ⟨11⟩ ∧
    climbed.1.toList.filter ((catalog.view climbed.2.types).isApplicationOf ⟨2⟩) = [⟨3⟩] ∧
    (catalog.view climbed.2.types).check request.implementation = .ok () ∧
    (catalog.view climbed.2.types).isPartiallyClosed request.implementation = true ∧
    (catalog.view climbed.2.types).params request.implementation = [⟨⟨3⟩, 0⟩] ∧
    (catalog.view climbed.2.types).argsOf request.implementation = [⟨0⟩, ⟨5⟩] ∧
    ⟨⟨3⟩, 0⟩ ∈ (catalog.view climbed.2.types).params ⟨3⟩ ∧
    (filled ⟨8⟩).1 = [⟨8⟩, ⟨5⟩] ∧
    (constructed ⟨8⟩).1 = .ok ⟨12⟩ ∧
    (requested ⟨8⟩).1 = request.abstraction ∧
    Engine.cutShort (request.resolve catalog) (requested ⟨8⟩).2 = false ∧
    (request.resolve catalog (requested ⟨8⟩).2).1 = .ok .invalid := by
  refine ⟨?_, ?_, ?_, ?_, ?_, ?_, ?_, ?_, ?_, ?_, ?_, ?_, ?_⟩ <;> decide +kernel

end InferredSample

/-! ## A supertype that is a parameter -/

namespace BareSample

/-- Interfaces `H<T>` and `G<out T> : H<T>`, a class `D<T, U> : T` where `T : G<U>`, and classes `C`,
`E : C` and `F : G<E>`. -/
def catalog : Catalog where
  definitions.entries := #[
    { kind := .interfaceType, name := ⟨1⟩, params := [{ name := ⟨2⟩ }] },
    { kind := .interfaceType, name := ⟨3⟩, params := [{ name := ⟨2⟩, variance := .covariant }],
      interfaces := [⟨1⟩] },
    { kind := .classType, name := ⟨4⟩,
      params := [{ name := ⟨2⟩, constraints := [⟨4⟩] }, { name := ⟨5⟩ }], interfaces := [⟨2⟩] },
    { kind := .classType, name := ⟨6⟩ },
    { kind := .classType, name := ⟨7⟩, base := some ⟨5⟩ },
    { kind := .classType, name := ⟨8⟩, interfaces := [⟨7⟩] }]

/-- The parameter of `G`, `H<T>` over it, the parameters `T` and `U` of `D`, then `G<U>`, `C`, `E`, `G<E>`,
`F` and `D<F, U>`. -/
def session : Session where
  types := .ofNodes [.param ⟨⟨2⟩, 0⟩, .app ⟨1⟩ [⟨0⟩], .param ⟨⟨3⟩, 0⟩, .param ⟨⟨3⟩, 1⟩, .app ⟨2⟩ [⟨3⟩],
    .named ⟨4⟩, .named ⟨5⟩, .app ⟨2⟩ [⟨6⟩], .named ⟨6⟩, .app ⟨3⟩ [⟨8⟩, ⟨3⟩]]

/-- The session after the open type `D<T, U>` has been interned. -/
def opened : Session := (Engine.definitionType catalog ⟨3⟩ session).2

/-- What lies above `D<T, U>`, and the session after the enumeration. -/
def climbed : InternTable TypeId × Session := Engine.supertypes catalog ⟨10⟩ opened

/-- The construction of `D<F, C>`. -/
def constructed : Except ConstructError TypeId × Session :=
  Engine.construct catalog ⟨3⟩ [⟨8⟩, ⟨5⟩] climbed.2

/-- The specialisation of `H<U>` to `H<C>`. -/
def requested : TypeId × Session :=
  Engine.instantiate catalog ⟨11⟩ (.ofArgs ⟨3⟩ [⟨8⟩, ⟨5⟩]) constructed.2

/-- An `H<C>` is not served by `D<F, U>`: `D<F, C>` can be constructed, since `G<C>` accepts `F`, and `C` is
what unification finds, but `H<C>` accepts no `D<F, C>`. -/
theorem resolve_partialClosure_bare :
    catalog.Declared session.types ∧
    (Engine.definitionType catalog ⟨3⟩ session).1 = some ⟨10⟩ ∧
    climbed.1.toList.filter ((catalog.view climbed.2.types).isApplicationOf ⟨1⟩) = [⟨11⟩] ∧
    (catalog.view climbed.2.types).check ⟨9⟩ = .ok () ∧
    (catalog.view climbed.2.types).params ⟨9⟩ = [⟨⟨3⟩, 1⟩] ∧
    (catalog.view climbed.2.types).argsOf ⟨9⟩ = [⟨8⟩, ⟨3⟩] ∧
    ⟨⟨3⟩, 1⟩ ∈ (catalog.view climbed.2.types).params ⟨11⟩ ∧
    constructed.1 = .ok ⟨14⟩ ∧
    Request.finds catalog { abstraction := requested.1, implementation := ⟨9⟩ } ⟨3⟩ ⟨10⟩ ⟨11⟩ [⟨8⟩, ⟨5⟩]
      requested.2 = true ∧
    Engine.cutShort (Request.resolve catalog { abstraction := requested.1, implementation := ⟨9⟩ })
      requested.2 = false ∧
    (Request.resolve catalog { abstraction := requested.1, implementation := ⟨9⟩ } requested.2).1 =
      .ok .invalid := by
  refine ⟨?_, ?_, ?_, ?_, ?_, ?_, ?_, ?_, ?_, ?_, ?_⟩ <;> decide +kernel

end BareSample

end Generics
