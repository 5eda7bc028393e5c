import Generics.Proofs.Containment
import Generics.Proofs.RoundTrip

/-!
# Inferring from constraints

A parameter that does not occur in a candidate is found by way of the constraints of one that does.
Where nothing varies, an argument that was constructed lies below its constraint; where moreover no
two instances of one definition lie above it, this constraint is the only one that inference can meet
there.  So every inference binds the parameters of a constraint to the arguments that were constructed,
and one after the other all parameters are found to which constraints lead.
-/

namespace Generics

/-- Nothing varies, and neither a supertype nor a constraint is a bare parameter. -/
structure Catalog.Invariant (c : Catalog) (ts : Types) : Prop extends c.WellDeclared ts where
  invariant : ∀ d info, c.definitions.get? d = some info → info.isVariant = false
  bounded : ∀ p decl, c.definitions.param? p = some decl → ∀ k ∈ decl.constraints,
    (c.view ts).isParam k = false

instance (c : Catalog) (ts : Types) : Decidable (c.Invariant ts) :=
  decidable_of_iff _ ⟨fun h : _ ∧ _ ∧ _ => ⟨h.1, h.2.1, h.2.2⟩,
    fun h => ⟨h.toWellDeclared, h.invariant, h.bounded⟩⟩

/-- No two instances of one definition lie above `X`. -/
def Unambiguous (c : Catalog) (base : Types) (X : Tree) : Prop :=
  ∀ S U d, Supertype c base X S → Supertype c base X U → S.definition? = some d →
    U.definition? = some d → S = U

section

variable {c : Catalog} {base ts us : Types} {d : DefId} {info : Definition} {Xs As : List Tree}
  {X S T K : Tree} {p : Param} {decl : ParamDecl} {k x t : TypeId} {σ : Substitution}

/-- Where nothing varies, only what lies below is accepted. -/
theorem Catalog.Invariant.supertype (hc : c.Invariant base) (h : Accepts c base T S) :
    Supertype c base S T := by
  cases h.acceptsBy with
  | supertype h => exact h
  | variant hinfo _ hvariant => exact absurd (hvariant.symm.trans (hc.invariant _ _ hinfo)) (by decide)

/-- An enumeration that is not cut short tells whether two instances of one definition lie above. -/
theorem unambiguous_of_supertypes {s s' : Session} {above : InternTable TypeId}
    (hc : c.Grounded s.types) (hx : s.types.Unfolds x X) (h : Engine.supertypes c x s = (above, s'))
    (hcut : Engine.cutShort (Engine.supertypes c x) s = false)
    (hunique : ∀ t ∈ above.toList, ∀ u ∈ above.toList, ∀ d ∈ (c.view s'.types).definitionOf t,
      (c.view s'.types).definitionOf u = some d → t = u) : Unambiguous c s.types X := by
  obtain ⟨-, habove⟩ := (Engine.settles_supertypes hc (.refl _) hx).of_apply_eq h
  rw [hcut] at habove
  intro S U d hXS hXU hS hU
  obtain ⟨t, ht, htS⟩ := habove.complete rfl S hXS
  obtain ⟨u, hu, huU⟩ := habove.complete rfl U hXU
  obtain rfl := hunique t ht u hu d (by rw [c.definitionOf_eq hc.plain htS, hS]; rfl)
    (by rw [c.definitionOf_eq hc.plain huU, hU])
  exact htS.unique huU

/-! ## What inference finds -/

/-- If every list matches, the first one gives the bindings. -/
theorem exists_inferAmong_eq {v : View} {free : List Param} {args : List TypeId}
    {supers : List (List TypeId)} (hsupers : supers ≠ [])
    (hmatch : ∀ bs ∈ supers, ∃ τ, v.matchAll free σ args bs = .ok τ) :
    ∃ bs ∈ supers, v.matchAll free σ args bs = .ok (v.inferAmong free σ args supers) := by
  cases supers with
  | nil => exact absurd rfl hsupers
  | cons bs supers =>
    obtain ⟨τ, hτ⟩ := hmatch bs (List.mem_cons_self ..)
    refine ⟨bs, List.mem_cons_self .., ?_⟩
    rw [View.inferAmong, List.findSome?_cons, hτ]
    rfl

namespace Unifier

/-- Once `ps` are bound, the constraints that are reached lead only to the arguments `Xs` of `d`: an
application that mentions other parameters than `ps` is itself the only one of its definition above the
argument, and a parameter is among `ps` or has the same argument. -/
structure Determined (c : Catalog) (base : Types) (d : DefId) (ps : List Param) (Xs : List Tree) :
    Prop where
  applications : ∀ i decl k e As X, c.Entailed base ps ⟨d, i⟩ →
    c.definitions.param? ⟨d, i⟩ = some decl → k ∈ decl.constraints → base.Unfolds k (.app e As) →
      Xs[i]? = some X → (∃ q ∈ (Tree.app e As).params, q ∉ ps) →
        ∀ Bs, Supertype c base X (.app e Bs) → Bs = As.map (Tree.subst (.assign d Xs))
  parameters : ∀ i decl k q, c.Entailed base ps ⟨d, i⟩ →
    c.definitions.param? ⟨d, i⟩ = some decl → k ∈ decl.constraints → base.Unfolds k (.param q) →
      q ∈ ps ∨ Tree.assign d Xs q = Tree.assign d Xs ⟨d, i⟩

/-- Keep `ps` bound, bind parameters that these lead to, to the arguments `Xs` of `d`, and with a
parameter all that its constraints mention. -/
def inferAim (c : Catalog) (base : Types) (d : DefId) (Xs : List Tree) (free ps : List Param) : Aim where
  keeps ts σ := σ.Agrees ts (.assign d Xs) ∧ (∀ p, σ.contains p → p ∈ free ∧ c.Entailed base ps p) ∧
    ∀ p ∈ ps, σ.contains p
  done _ σ _ k := ∀ K, base.Unfolds k K → ∀ q ∈ free, q ∈ K.params → σ.contains q
  succeeds := True

/-- If an application is above the argument, and is the instance of the constraint unless all that the
constraint mentions is bound, then that is bound as `h` has it. -/
theorem watches_infer_determined {u : Unknowns} {g : Guard Param} {e : DefId}
    (hc : c.Grounded base) (hbase : base.Grows ts) (hK : ts.Unfolds k (.app e As))
    (ht : ts.Unfolds t X) {h : Param → Tree} (hrigid : Rigid u.free h) (hσ : σ.Agrees ts h)
    (habove : ∃ Bs, Supertype c base X (.app e Bs) ∧ Bs.length = As.length)
    (hunique : (∃ q, FreeIn u.free As q ∧ ¬σ.contains q) →
      ∀ Bs, Supertype c base X (.app e Bs) → Bs = As.map (Tree.subst h)) :
    g.Watches (infer c u p k t σ).run ts fun r us cut =>
      (∀ τ, r = .ok τ → τ.Agrees us h ∧ σ.Extends us (FreeIn u.free As) τ ∧
        ∀ q, FreeIn u.free As q → τ.contains q) ∧
      (cut = false → ∃ τ, r = .ok τ) := by
  refine (watches_infer_app hc hbase hK ht).mono ?_
  rintro r us cut hgrow ⟨args, found, cut', hargs, hfound, hcut', rfl⟩
  have hsupers : ∀ bs ∈ found.toList.filterMap ((c.view us).argsAs? e args.length),
      ∃ Bs, Supertype c base X (.app e Bs) ∧ bs.length = args.length ∧ List.Forall₂ us.Unfolds bs Bs := by
    intro bs hbs
    obtain ⟨s, -, Bs, -, hXB, hlen, hBs⟩ := (mem_supers_iff hc.plain hfound).1 hbs
    exact ⟨Bs, hXB, hBs.length_eq.trans hlen, hBs⟩
  split
  · rename_i hempty
    refine ⟨nofun, fun hcut => ?_⟩
    -- an application above the argument would have been found
    obtain ⟨Bs, hXB, hlen⟩ := habove
    obtain ⟨s, hs, hS⟩ := hfound.complete (hcut' hcut) _ hXB
    obtain ⟨bs, -, hbs⟩ := hS.exists_app
    have hmem := (mem_supers_iff hc.plain hfound (n := args.length)).2
      ⟨s, hs, Bs, hS, hXB, hlen.trans hargs.length_eq.symm, hbs⟩
    rw [List.isEmpty_iff.1 hempty] at hmem
    cases hmem
  rename_i hnonempty
  rw [List.isEmpty_iff] at hnonempty
  refine ⟨fun τ hτ => ?_, fun _ => ⟨_, rfl⟩⟩
  cases hτ
  have hext := extends_inferAmong u.free hc.plain hargs
    (found.toList.filterMap ((c.view us).argsAs? e args.length)) (fun bs hbs =>
      let ⟨Bs, _, hlen, hBs⟩ := hsupers bs hbs
      ⟨⟨Bs, hBs⟩, hlen⟩) σ
  by_cases hnew : ∃ q, FreeIn u.free As q ∧ ¬σ.contains q
  · have hmatches : ∀ bs ∈ found.toList.filterMap ((c.view us).argsAs? e args.length), ∃ τ,
        (c.view us).matchAll u.free σ args bs = .ok τ ∧ τ.Agrees us h ∧
          ∀ q, FreeIn u.free As q → τ.contains q := by
      intro bs hbs
      obtain ⟨Bs, hXB, hlen, hBs⟩ := hsupers bs hbs
      obtain rfl := hunique hnew Bs hXB
      obtain ⟨τ, hτ, hagrees⟩ :=
        Catalog.exists_matchAll_eq_ok hc.plain hargs hBs (hσ.grow hgrow) hrigid
      obtain ⟨-, hsolves⟩ := Catalog.of_matchAll_eq_ok hc.plain hargs hBs hlen hτ
      exact ⟨τ, hτ, hagrees, fun q hq => hsolves.contains hq⟩
    obtain ⟨bs, hbs, hmatch⟩ := exists_inferAmong_eq hnonempty fun bs hbs =>
      (hmatches bs hbs).imp fun _ h => h.1
    obtain ⟨τ, hτ, hagrees, hcontains⟩ := hmatches bs hbs
    obtain rfl := Except.ok.inj (hτ.symm.trans hmatch)
    exact ⟨hagrees, hext, hcontains⟩
  · simp only [not_exists, not_and, not_not] at hnew
    rw [hext.eq_of_contains hnew]
    exact ⟨hσ.grow hgrow, .refl .., hnew⟩

/-- Bindings of what a constraint mentions, which agree with the arguments and leave nothing unbound that it
mentions, serve the aim. -/
theorem inferAim_of_extends {free ps : List Param} {τ : Substitution} (hplain : c.overrides = [])
    (hdecl : c.definitions.param? p = some decl) (hk : k ∈ decl.constraints) (hK : base.Unfolds k K)
    (hentailed : c.Entailed base ps p)
    (hσ : (inferAim c base d Xs free ps).keeps ts σ)
    (hext : σ.Extends us (fun q => q ∈ free ∧ q ∈ K.params) τ) (hagrees : τ.Agrees us (.assign d Xs))
    (hdone : ∀ q ∈ free, q ∈ K.params → τ.contains q) :
    (inferAim c base d Xs free ps).keeps us τ ∧ σ.Extends us (· ∈ free) τ ∧
      (inferAim c base d Xs free ps).done us τ p k := by
  refine ⟨⟨hagrees, fun q hq => ?_, fun q hq => Substitution.contains_of_extends hext (hσ.2.2 q hq)⟩,
    hext.mono fun q hq => hq.1, fun K' hK' => hK'.unique hK ▸ hdone⟩
  exact (Substitution.contains_cases_of_extends hext hq).elim (hσ.2.1 q) fun hnew =>
    ⟨hnew.1, .constraint hentailed hdecl hk ((c.mem_params_iff hplain hK).2 hnew.2)⟩

/-- Every inference serves the aim, if the constraints accept the arguments and these are
determined. -/
theorem inferAim_served {u : Unknowns} {ps : List Param} (hc : c.Declared base)
    (hd : c.definitions.get? d = some info)
    (hmeets : MeetConstraints base d info Xs (Accepts c base)) (harity : info.arity = Xs.length)
    (hdetermined : Determined c base d ps Xs)
    (hfree : ∀ p, p ∈ u.free ↔ p.owner = d ∧ p.index < info.arity) :
    (inferAim c base d Xs u.free ps).Served c u base .param where
  free hσ p hp := (hσ.2.1 p hp).1
  grow hσ hgrow := ⟨hσ.1.grow hgrow, hσ.2⟩
  mono _ hext hdone K hK q hq hqK := Substitution.contains_of_extends hext (hdone K hK q hq hqK)
  closed {ts σ p k K} _ _ hK hclosed K' hK' q hq hqK := by
    obtain rfl := hK'.unique hK
    rw [Tree.subst_eq_self fun _ _ => rfl] at hclosed
    exact absurd ⟨q, hq, hqK⟩ hclosed
  infer := by
    rintro ts σ p decl k K k' t g hbase ⟨hσ, hbound, hps⟩ ht hdecl hk hK hk' hmentions
    rw [Tree.subst_eq_self fun _ _ => rfl] at hk' hmentions
    obtain ⟨hp, hentailed⟩ := hbound p (Substitution.contains_of_get? ht)
    obtain ⟨rfl, hlt⟩ := (hfree p).1 hp
    have hX := List.getElem?_eq_getElem (harity ▸ hlt)
    have htX := hσ p t ht
    have hkept : ∀ {us τ}, σ.Extends us (fun q => q ∈ u.free ∧ q ∈ K.params) τ →
        τ.Agrees us (.assign p.owner Xs) → (∀ q ∈ u.free, q ∈ K.params → τ.contains q) →
          (inferAim c base p.owner Xs u.free ps).keeps us τ ∧ σ.Extends us (· ∈ u.free) τ ∧
            (inferAim c base p.owner Xs u.free ps).done us τ p k :=
      inferAim_of_extends hc.plain hdecl hk hK hentailed ⟨hσ, hbound, hps⟩
    cases hK with
    | named => simp at hmentions
    | @param _ q hnode =>
      cases hk' with
      | param hk' =>
      refine (watches_infer_param hc.plain hk').mono ?_
      rintro r us cut hgrow rfl
      refine ⟨fun τ hτ => ?_, fun _ _ => ⟨_, rfl⟩⟩
      cases hτ
      split
      · rename_i hq
        have hnew : ¬σ.contains q := by simpa using hq.2
        have hext := Substitution.extends_insert (S := fun q' => q' ∈ u.free ∧ q' ∈ (Tree.param q).params)
          ⟨hq.1, by simp⟩ hnew (htX.grow hgrow)
        -- an unbound parameter has the argument of the one that it bounds
        have hsame := (hdetermined.parameters p.index decl k q hentailed hdecl hk
          (.param hnode)).resolve_left fun hmem => hnew (hps q hmem)
        refine hkept hext ((hσ.grow hgrow).insert (hsame ▸ htX.grow hgrow)) fun q' _ hq' => ?_
        obtain rfl : q' = q := by simpa using hq'
        rw [Substitution.contains, Substitution.get?_insert, if_pos rfl]
        rfl
      · rename_i hq
        refine hkept (.refl ..) (hσ.grow hgrow) fun q' hfree' hq' => ?_
        obtain rfl : q' = q := by simpa using hq'
        by_contra hnew
        exact hq ⟨hfree', by simpa using hnew⟩
    | @app _ e args As hnode hargs =>
      have hK : base.Unfolds k (.app e As) := .app hnode hargs
      have hdecl' : info.params[p.index]? = some decl := by
        rw [← hdecl, Definitions.param?, hd, Option.bind_some]
      have haccepts := hmeets p.index decl _ k _ hdecl' hX hk hK
      rw [Tree.subst_app] at haccepts
      obtain ⟨Bs, hXB, hlen⟩ := haccepts.exists_app
      rw [Tree.assign_of_getElem? (d := p.owner) (i := p.index) hX] at htX
      have hmem : ∀ q, FreeIn u.free As q ↔ q ∈ u.free ∧ q ∈ (Tree.app e As).params := fun q => by
        rw [Tree.params_app, List.mem_flatMap]
        rfl
      refine (watches_infer_determined hc.grounded hbase hk' htX (rigid_assign harity hfree) hσ
        ⟨Bs, hXB, hlen.trans (List.length_map _)⟩ ?_).mono ?_
      · rintro ⟨q, hq, hnew⟩
        exact hdetermined.applications p.index decl k e As _ hentailed hdecl hk hK hX
          ⟨q, ((hmem q).1 hq).2, fun hqps => hnew (hps q hqps)⟩
      · rintro r us cut - ⟨hsound, hcomplete⟩
        refine ⟨fun τ hτ => ?_, fun hcut _ => hcomplete hcut⟩
        obtain ⟨hagrees, hext, hcontains⟩ := hsound τ hτ
        exact hkept (hext.mono fun q hq => (hmem q).1 hq) hagrees fun q hq hqK =>
          hcontains q ((hmem q).2 ⟨hq, hqK⟩)

/-- What is done reaches every parameter to which constraints lead. -/
theorem contains_of_entailed (hc : c.Declared base) (hd : c.definitions.get? d = some info)
    {free ps : List Param} (hfree : ∀ p, p ∈ free ↔ p.owner = d ∧ p.index < info.arity)
    (hσ : (inferAim c base d Xs free ps).keeps ts σ)
    (hfinished : ∀ p, σ.contains p → (inferAim c base d Xs free ps).Finished c ts σ p)
    (h : c.Entailed base ps p) : σ.contains p := by
  induction h with
  | mentioned h => exact hσ.2.2 _ h
  | @constraint p q decl k _ hdecl hk hq ih =>
    obtain ⟨K, hK, hwf, hown⟩ := hc.exists_constraint hdecl hk
    rw [c.mem_params_iff hc.plain hK] at hq
    have howner : q.owner = d := (hown q hq).trans ((hfree p).1 (hσ.2.1 p ih).1).1
    have hqfree : q ∈ free :=
      (hfree q).2 ⟨howner, Tree.index_lt_arity (howner ▸ hd) (hwf.isSome_param? hq)⟩
    exact hfinished p ih decl hdecl k hk K hK q hqfree hq

end Unifier

/-- Unification with an instance finds its arguments, if these are determined, for all parameters to
which constraints lead from those of the patterns. -/
theorem Request.settles_unification_determined {r : Request} {free ps : List Param} {Bs : List Tree}
    {patterns concretes : List TypeId} (hc : c.Declared base) (hbase : base.Grows ts)
    (hd : c.definitions.get? d = some info)
    (hmeets : MeetConstraints base d info Xs (Accepts c base)) (harity : info.arity = Xs.length)
    (hdetermined : Unifier.Determined c base d ps Xs)
    (hfree : ∀ p, p ∈ free ↔ p.owner = d ∧ p.index < info.arity) (hps : ∀ p, p ∈ ps ↔ FreeIn free Bs p)
    (hpatterns : List.Forall₂ ts.Unfolds patterns Bs)
    (hconcretes : List.Forall₂ ts.Unfolds concretes (Bs.map (Tree.subst (.assign d Xs)))) :
    Engine.Settles (r.unification c free patterns concretes) ts fun answer us cut => cut = false →
      ∃ found, answer = .ok found ∧ found.Agrees us (.assign d Xs) ∧
        ∀ p, c.Entailed base ps p → found.contains p := by
  obtain ⟨matched, hmatch, hagrees⟩ := Catalog.exists_matchAll_eq_ok hc.plain hpatterns hconcretes
    (Substitution.agrees_empty _ _) (rigid_assign harity hfree)
  have hlen : patterns.length = concretes.length := by
    rw [hpatterns.length_eq, hconcretes.length_eq, List.length_map]
  have hkept : ∀ matched', (c.view ts).matchAll free .empty patterns concretes = .ok matched' →
      patterns.length = concretes.length →
      (Unifier.inferAim c base d Xs free ps).keeps ts matched' := by
    intro _ hmatch' _
    obtain rfl := Except.ok.inj (hmatch.symm.trans hmatch')
    obtain ⟨hext, hsolves⟩ :=
      Catalog.of_matchAll_eq_ok hc.plain hpatterns hconcretes hlen.symm hmatch
    refine ⟨hagrees, fun p hp => ?_, fun p hp => hsolves.contains ((hps p).1 hp)⟩
    have hfreeIn := Substitution.of_contains_of_extends_empty hext hp
    exact ⟨hfreeIn.1, .mentioned ((hps p).2 hfreeIn)⟩
  refine (Guard.Watches.retire _ (Unifier.watches_unify_reached (u := { free, closure := .empty })
    hc.grounded hbase (Substitution.unfolds_empty _)
    (Unifier.inferAim_served hc hd hmeets harity hdetermined hfree) hpatterns hconcretes rfl
    hkept fun _ => ⟨hlen, matched, hmatch⟩)).mono ?_
  rintro answer us cut - ⟨hsound, hcomplete⟩ hcut
  obtain ⟨found, rfl⟩ := hcomplete hcut trivial
  obtain ⟨hkeeps, -, hfinished⟩ := hsound found rfl
  exact ⟨found, rfl, hkeeps.1, fun p => Unifier.contains_of_entailed hc hd hfree hkeeps hfinished⟩

/-- An instance of the only application of `g` above the open definition `d` is served by the same
instance of `d`, if constraints lead from the parameters of that application to all others, and if the
instance can be constructed from arguments that are unambiguous. -/
theorem resolve_inferred {g : DefId} {s s₁ s₂ s₃ s₄ : Session} (hc : c.Invariant s.types)
    (hd : c.definitions.get? d = some info) (hgeneric : info.isGeneric) {opened b : TypeId}
    {above : InternTable TypeId} (hopen : Engine.definitionType c d s = (some opened, s₁))
    (habove : Engine.supertypes c opened s₁ = (above, s₂))
    (hunique : above.toList.filter ((c.view s₂.types).isApplicationOf g) = [b])
    (hentailed : ∀ i < info.arity, c.Entailed s.types ((c.view s₂.types).params b) ⟨d, i⟩)
    {xs : List TypeId} (hvalid : ∀ x ∈ xs, (c.view s₂.types).check x = .ok ())
    (hunambiguous : ∀ x ∈ xs, ∀ X, s₂.types.Unfolds x X → Unambiguous c s.types X)
    {closed abstraction : TypeId} (hconstruct : Engine.construct c d xs s₂ = (.ok closed, s₃))
    (himage : Engine.instantiate c b (.ofArgs d xs) s₃ = (abstraction, s₄)) (options : Options)
    (hlimit : Engine.cutShort
      (Request.resolve c { abstraction, implementation := opened, options }) s₄ = false) :
    (Request.resolve c { abstraction, implementation := opened, options } s₄).1 =
      .ok (.valid closed) := by
  obtain ⟨Bs, Xs, hb, hXs, himaged⟩ :=
    exists_imaged hc.grounded hd hopen habove hunique hvalid hconstruct himage
  have hover := himaged.overlying
  have hfree : ∀ p, p ∈ (c.view s₄.types).paramsOf d opened ↔ p.owner = d ∧ p.index < info.arity :=
    fun p => Request.mem_paramsOf_opened hc.plain hover.unfolds_opened
  have hpatterns := Engine.exists_argsOf_unfold hc.plain hover.unfolds
  have hconcretes := Engine.exists_argsOf_unfold hc.plain himaged.abstraction
  have hps : ∀ p, p ∈ (c.view s₂.types).params b ↔
      FreeIn ((c.view s₄.types).paramsOf d opened) Bs p := by
    intro p
    rw [c.mem_params_iff hc.plain hb]
    refine ⟨fun hp => ⟨hover.mem_paramsOf hc.declared p hp, by simpa using hp⟩, ?_⟩
    rintro ⟨-, B, hB, hp⟩
    rw [Tree.params_app, List.mem_flatMap]
    exact ⟨B, hB, hp⟩
  have hdetermined : Unifier.Determined c s.types d ((c.view s₂.types).params b) Xs := by
    refine ⟨fun i decl k e As X _ hdecl hk hK hX _ Bs hXB => ?_, fun i decl k q _ hdecl hk hK => ?_⟩
    · obtain ⟨x, hx, hxX⟩ := exists_of_mem_right hXs (List.mem_of_getElem? hX)
      have hdecl' : info.params[i]? = some decl := by
        rw [← hdecl, Definitions.param?, hd, Option.bind_some]
      have habove := hc.supertype (himaged.constraints i decl X k _ hdecl' hX hk hK)
      rw [Tree.subst_app] at habove
      cases hunambiguous x hx X hxX _ _ e hXB habove rfl rfl
      rfl
    · -- a constraint is no bare parameter
      cases (c.isParam_iff hc.plain hK).1 (hc.bounded _ decl hdecl k hk)
  refine himaged.resolve_eq_valid hc.toWellDeclared hgeneric rfl ?_ hlimit
  refine (Request.settles_unification_determined hc.declared hover.grows hd himaged.constraints himaged.arity
    hdetermined hfree hps hpatterns hconcretes).mono ?_
  rintro answer us cut - hfinds hcut
  obtain ⟨found, hanswer, hagrees, hcontains⟩ := hfinds hcut
  exact ⟨found, hanswer, hagrees, fun i hi => hcontains _ (hentailed i hi)⟩

end

/-! ## A cycle of constraints -/

namespace CycleSample

/-- The class `D<T, U, V> : G<T>` where `T : L<U>`, `U : L<V>` and `V : L<T>`. -/
def cyclic : Definition where
  kind := .classType
  name := ⟨4⟩
  params := [{ name := ⟨2⟩, constraints := [⟨3⟩] }, { name := ⟨5⟩, constraints := [⟨4⟩] },
    { name := ⟨6⟩, constraints := [⟨5⟩] }]
  interfaces := [⟨6⟩]

/-- Interfaces `L<T>` and `G<T>`, the class `D`, and classes `E : L<F>`, `F : L<H>` and `H : L<E>`. -/
def catalog : Catalog where
  definitions.entries := #[
    { kind := .interfaceType, name := ⟨1⟩, params := [{ name := ⟨2⟩ }] },
    { kind := .interfaceType, name := ⟨3⟩, params := [{ name := ⟨2⟩ }] },
    cyclic,
    { kind := .classType, name := ⟨7⟩, interfaces := [⟨11⟩] },
    { kind := .classType, name := ⟨8⟩, interfaces := [⟨12⟩] },
    { kind := .classType, name := ⟨9⟩, interfaces := [⟨10⟩] }]

/-- The parameters `T`, `U` and `V` of `D`, then `L<U>`, `L<V>`, `L<T>`, `G<T>`, `E`, `F`, `H`, `L<E>`,
`L<F>` and `L<H>`. -/
def session : Session where
  types := .ofNodes [.param ⟨⟨3⟩, 0⟩, .param ⟨⟨3⟩, 1⟩, .param ⟨⟨3⟩, 2⟩, .app ⟨1⟩ [⟨1⟩], .app ⟨1⟩ [⟨2⟩],
    .app ⟨1⟩ [⟨0⟩], .app ⟨2⟩ [⟨0⟩], .named ⟨4⟩, .named ⟨5⟩, .named ⟨6⟩, .app ⟨1⟩ [⟨7⟩], .app ⟨1⟩ [⟨8⟩],
    .app ⟨1⟩ [⟨9⟩]]

/-- The session after the open type `D<T, U, V>` has been interned. -/
def opened : Session := (Engine.definitionType catalog ⟨3⟩ session).2

/-- What lies above `D<T, U, V>`, and the session after the enumeration. -/
def climbed : InternTable TypeId × Session := Engine.supertypes catalog ⟨13⟩ opened

/-- The session after `D<E, F, H>` has been constructed. -/
def constructed : Session := (Engine.construct catalog ⟨3⟩ [⟨7⟩, ⟨8⟩, ⟨9⟩] climbed.2).2

/-- The session after `G<T>` has been specialised to `G<E>`. -/
def requested : Session :=
  (Engine.instantiate catalog ⟨6⟩ (.ofArgs ⟨3⟩ [⟨7⟩, ⟨8⟩, ⟨9⟩]) constructed).2

/-- No class has two interfaces `L` above it. -/
theorem unambiguous {x : TypeId} (hx : x ∈ [(⟨7⟩ : TypeId), ⟨8⟩, ⟨9⟩]) {X : Tree}
    (hX : session.types.Unfolds x X) : Unambiguous catalog session.types X := by
  have hall : ∀ x ∈ [(⟨7⟩ : TypeId), ⟨8⟩, ⟨9⟩],
      Engine.cutShort (Engine.supertypes catalog x) session = false ∧
      ∀ t ∈ (Engine.supertypes catalog x session).1.toList,
        ∀ u ∈ (Engine.supertypes catalog x session).1.toList,
        ∀ d ∈ (catalog.view (Engine.supertypes catalog x session).2.types).definitionOf t,
          (catalog.view (Engine.supertypes catalog x session).2.types).definitionOf u = some d →
            t = u := by decide +kernel
  obtain ⟨hcut, hunique⟩ := hall x hx
  exact unambiguous_of_supertypes (Catalog.WellDeclared.grounded (by decide +kernel)) hX rfl hcut hunique

/-- `G<E>` is served by `D<E, F, H>`, although `G<T>` mentions `T` only. -/
theorem resolve_inferred_cycle :
    (Request.resolve catalog { abstraction := ⟨15⟩, implementation := ⟨13⟩ } requested).1 =
      .ok (.valid ⟨14⟩) := by
  have hc : catalog.Invariant session.types := by decide +kernel
  have hopen : Engine.definitionType catalog ⟨3⟩ session = (some ⟨13⟩, opened) :=
    Prod.fst_eq_iff.1 (by decide +kernel)
  have hunique : climbed.1.toList.filter ((catalog.view climbed.2.types).isApplicationOf ⟨2⟩) =
      [⟨6⟩] := by decide +kernel
  -- constraints lead from `T` to `U` and from there to `V`
  have hfirst : catalog.Entailed session.types ((catalog.view climbed.2.types).params ⟨6⟩) ⟨⟨3⟩, 0⟩ :=
    .mentioned (by decide +kernel)
  have hsecond := hfirst.constraint (q := ⟨⟨3⟩, 1⟩) rfl (List.mem_singleton_self _) (by decide +kernel)
  have hthird := hsecond.constraint (q := ⟨⟨3⟩, 2⟩) rfl (List.mem_singleton_self _) (by decide +kernel)
  have hentailed : ∀ i < cyclic.arity, catalog.Entailed session.types
      ((catalog.view climbed.2.types).params ⟨6⟩) ⟨⟨3⟩, i⟩ := by
    rintro (_ | _ | _ | i) hi
    · exact hfirst
    · exact hsecond
    · exact hthird
    · exact absurd hi (by simp [cyclic, Definition.arity])
  have hgrows : session.types.Grows climbed.2.types := by decide +kernel
  have hunambiguous : ∀ x ∈ [(⟨7⟩ : TypeId), ⟨8⟩, ⟨9⟩], ∀ X, climbed.2.types.Unfolds x X →
      Unambiguous catalog session.types X := by
    intro x hx X hX
    have hcheck : ∀ x ∈ [(⟨7⟩ : TypeId), ⟨8⟩, ⟨9⟩], (catalog.view session.types).check x = .ok () := by
      decide +kernel
    obtain ⟨X', hX', -⟩ := (catalog.check_eq_ok_iff rfl).1 (hcheck x hx)
    exact hX.unique (hX'.grow hgrows) ▸ unambiguous hx hX'
  have hconstruct : Engine.construct catalog ⟨3⟩ [⟨7⟩, ⟨8⟩, ⟨9⟩] climbed.2 = (.ok ⟨14⟩, constructed) :=
    Prod.fst_eq_iff.1 (by decide +kernel)
  have himage : Engine.instantiate catalog ⟨6⟩ (.ofArgs ⟨3⟩ [⟨7⟩, ⟨8⟩, ⟨9⟩]) constructed =
      (⟨15⟩, requested) := Prod.fst_eq_iff.1 (by decide +kernel)
  have hd : catalog.definitions.get? ⟨3⟩ = some cyclic := rfl
  exact resolve_inferred hc hd rfl hopen rfl hunique hentailed (by decide +kernel) hunambiguous
    hconstruct himage {} (by decide +kernel)

end CycleSample

end Generics
