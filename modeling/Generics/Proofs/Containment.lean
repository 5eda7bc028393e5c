import Generics.Proofs.Deciding
import Generics.Proofs.Expansion
import Generics.Proofs.Soundness

/-!
# What a closed type mentions

The types that a resolution binds are parts of the abstraction, or parts of what lies above types that
it has bound.  A property of trees that passes on to arguments and to supertypes therefore passes from
the abstraction to everything that is bound.  One such property is to mention only parameters that the
abstraction leads to by way of constraints, so no other parameter turns up in a closed type.
-/

namespace Generics

/-! ## Bindings within a property -/

namespace Substitution

variable {c : Catalog} {base ts us : Types} {P : Tree → Prop} {free : List Param}
  {σ τ : Substitution} {as bs : List TypeId} {As Bs : List Tree}

/-- `σ` binds parameters of `free` to types of which `P` holds. -/
def Within (P : Tree → Prop) (ts : Types) (free : List Param) (σ : Substitution) : Prop :=
  ∀ p t, σ.get? p = some t → p ∈ free ∧ ∃ T, ts.Unfolds t T ∧ P T

theorem Within.grow (h : σ.Within P ts free) (hgrow : ts.Grows us) : σ.Within P us free := by
  intro p t ht
  obtain ⟨hp, T, hT, hPT⟩ := h p t ht
  exact ⟨hp, T, hT.grow hgrow, hPT⟩

theorem within_empty (P : Tree → Prop) (ts : Types) (free : List Param) : empty.Within P ts free :=
  nofun

theorem Within.exists_unfolds (h : σ.Within P ts free) : ∃ f, σ.Unfolds ts f :=
  Substitution.exists_unfolds fun p t ht =>
    let ⟨_, T, hT, _⟩ := h p t ht
    ⟨T, hT⟩

/-- Matching binds parts of the concrete types. -/
theorem Within.of_matchAll_eq_ok (hP : Hereditary c base P) (hplain : c.overrides = [])
    (hσ : σ.Within P ts free) (has : List.Forall₂ ts.Unfolds as As)
    (hbs : List.Forall₂ ts.Unfolds bs Bs) (hlen : bs.length = as.length) (hBs : ∀ B ∈ Bs, P B)
    (h : (c.view ts).matchAll free σ as bs = .ok τ) : τ.Within P ts free := by
  obtain ⟨hext, hsolves⟩ := Catalog.of_matchAll_eq_ok hplain has hbs hlen h
  obtain ⟨f, hf⟩ := hσ.exists_unfolds
  obtain ⟨g, hg⟩ := exists_unfolds_of_extends hf hext
  have hfree : ∀ p t, τ.get? p = some t → p ∈ free := by
    intro p t ht
    rcases get?_cases_of_extends hext ht with hp | ⟨hp, -⟩
    · exact (hσ p t hp).1
    · exact hp.1
  have himage : As.map (Tree.subst g) = Bs := hsolves.map_subst_eq hg.agrees fun p hp =>
    (hg p).2 (Option.eq_none_iff_forall_ne_some.2 fun t ht => hp (hfree p t ht))
  intro p t ht
  rcases get?_cases_of_extends hext ht with hp | ⟨⟨hp, A, hA, hpA⟩, -⟩
  · exact hσ p t hp
  · refine ⟨hp, g p, (hg p).1 t ht, hP.of_subst (T := A) ?_ hpA⟩
    exact hBs _ (himage ▸ List.mem_map_of_mem hA)

end Substitution

namespace Unifier

variable {c : Catalog} {u : Unknowns} {base ts : Types} {P : Tree → Prop} {f : Param → Tree}
  {g : Guard Param} {as bs : List TypeId} {As Bs : List Tree}

/-- Bind nothing of which `P` does not hold. -/
def withinAim (P : Tree → Prop) (free : List Param) : Aim where
  keeps ts σ := σ.Within P ts free
  done _ _ _ _ := True
  succeeds := False

/-- Inference binds a bound type itself, or parts of what lies above it. -/
theorem withinAim_served (hc : c.Grounded base) (hP : Hereditary c base P) :
    (withinAim P u.free).Served c u base f where
  free hσ p hp := by
    obtain ⟨t, ht⟩ := Option.isSome_iff_exists.1 hp
    exact (hσ p t ht).1
  grow hσ hgrow := hσ.grow hgrow
  mono _ _ _ := trivial
  closed _ _ _ _ := trivial
  infer := by
    intro ts σ p decl k K k' t g hbase hσ ht _ _ _ hk' hmentions
    obtain ⟨hp, B, htB, hB⟩ := hσ p t ht
    cases hS : K.subst f with
    | named d => simp [hS] at hmentions
    | param q =>
      rw [hS] at hk'
      cases hk' with
      | param hk' =>
      refine (watches_infer_param hc.plain hk').mono ?_
      rintro r us cut hgrow rfl
      refine ⟨fun τ hτ => ?_, fun _ h => h.elim⟩
      cases hτ
      split
      · rename_i hq
        refine ⟨fun p' t' ht' => ?_, Substitution.extends_insert hq.1 (by simpa using hq.2)
          (htB.grow hgrow), trivial⟩
        rw [Substitution.get?_insert] at ht'
        split at ht'
        · rename_i heq
          cases ht'
          exact ⟨heq ▸ hq.1, B, htB.grow hgrow, hB⟩
        · exact hσ.grow hgrow p' t' ht'
      · exact ⟨hσ.grow hgrow, .refl .., trivial⟩
    | app d As =>
      rw [hS] at hk'
      refine (watches_infer_app hc hbase hk' htB).mono ?_
      rintro r us cut hgrow ⟨args, found, cut', hargs, habove, -, rfl⟩
      refine ⟨fun τ hτ => ?_, fun _ h => h.elim⟩
      split at hτ
      · cases hτ
      cases hτ
      have hσ' := hσ.grow hgrow
      rcases inferAmong_cases (c.view us) u.free σ args
        (found.toList.filterMap ((c.view us).argsAs? d args.length)) with heq | ⟨bs, hbs, hmatch⟩
      · rw [heq]
        exact ⟨hσ', .refl .., trivial⟩
      · obtain ⟨_, -, Bs, -, hBS, hlen, hBs⟩ := (mem_supers_iff hc.plain habove).1 hbs
        have hlen' := hBs.length_eq.trans hlen
        have hPBs : ∀ B ∈ Bs, P B := fun B hB' => hP.args (hP.supertype hB hBS) hB'
        refine ⟨hσ'.of_matchAll_eq_ok hP hc.plain hargs hBs hlen' hPBs hmatch, ?_, trivial⟩
        exact (Catalog.of_matchAll_eq_ok hc.plain hargs hBs hlen' hmatch).1.mono fun q hq => hq.1

/-- Unification binds parts of the concrete types and of what lies above such parts. -/
theorem watches_unify_within (hc : c.Grounded base) (hbase : base.Grows ts)
    (hP : Hereditary c base P) (hclosure : u.closure.Unfolds ts f)
    (has : List.Forall₂ ts.Unfolds as As) (hbs : List.Forall₂ ts.Unfolds bs Bs)
    (hBs : ∀ B ∈ Bs, P B) (hvisiting : g.visiting = []) :
    g.Watches (unify c u as bs).run ts fun r us _ => ∀ τ, r = .ok τ → τ.Within P us u.free :=
  (watches_unify_reached hc hbase hclosure (withinAim_served hc hP) has hbs hvisiting
    (fun _ hmatch hlen => (Substitution.within_empty P ts u.free).of_matchAll_eq_ok hP hc.plain has hbs
      hlen.symm hBs hmatch) False.elim).mono fun _ _ _ _ h τ hτ => (h.1 τ hτ).1

end Unifier

/-! ## Arguments within a property -/

section

variable {c : Catalog} {base ts us : Types} {P : Tree → Prop} {k : Closing} {Fs As Bs : List Tree}
  {found : Substitution} {r : Request} {i : Implementation}

theorem Closing.settles_bindFree_within (hc : c.Grounded base) (hbase : base.Grows ts)
    (hP : Hereditary c base P) (hargs : List.Forall₂ ts.Unfolds k.args Fs) {free : List Param}
    (hfound : found.Within P ts free) :
    Engine.Settles (k.bindFree c (k.slots (c.view ts) found)) ts fun r us _ =>
      ∀ σ, r = .ok σ → σ.Within P us k.free := by
  obtain ⟨As, Bs, has, hbs, hpairs⟩ := exists_openPairs_unfold hc.plain hargs hfound.exists_unfolds
  have hBs : ∀ B ∈ Bs, P B := by
    have hall : List.Forall₂ (fun _ B => P B) As Bs := by
      refine (hpairs _).2 fun i F t T _ _ ht hT => ?_
      obtain ⟨-, T', hT', hPT⟩ := hfound _ t ht
      exact hT.unique hT' ▸ hPT
    intro B hB
    obtain ⟨_, -, hPB⟩ := exists_of_mem_right hall hB
    exact hPB
  unfold bindFree
  refine .query_bind c (fun vs hvs => openPairs_grow hc.plain hargs hvs) ?_
  exact Guard.Watches.retire _ (Unifier.watches_unify_within hc hbase hP
    (Substitution.unfolds_ofArgs k.definition hargs) has hbs hBs rfl)

/-- What a candidate leads to is an instance of the implementation over types of which `P` holds. -/
theorem Request.settles_closeThrough_within (hc : c.Grounded base) (hbase : base.Grows ts)
    (hP : Hereditary c base P) {A : Tree} (hA : ts.Unfolds r.abstraction A)
    (hargs : List.Forall₂ ts.Unfolds k.args Fs) {declared : List Param} {candidate : Candidate}
    {requested : List TypeId} (hpatterns : List.Forall₂ ts.Unfolds candidate.args Bs)
    (hconcretes : List.Forall₂ ts.Unfolds requested As) (hAs : ∀ A ∈ As, P A) :
    Engine.Settles (r.closeThrough c k declared requested candidate) ts fun outcome us _ =>
      ∀ closed, outcome = .ok closed → ∃ h : Param → Tree, (∀ p ∈ k.free, P (h p)) ∧
        us.Unfolds closed (.apply k.definition (Fs.map (Tree.subst h))) := by
  unfold closeThrough
  have hunify : Engine.Settles (r.unification c declared candidate.args requested) ts
      fun answer us _ => ∀ found, answer = .ok found → found.Within P us declared :=
    Guard.Watches.retire _ (Unifier.watches_unify_within hc hbase hP (Substitution.unfolds_empty ts)
      hpatterns hconcretes hAs rfl)
  refine hunify.bind ?_
  rintro (e | found) us _ hgrow hfound
  · exact .pure nofun
  replace hfound := hfound found rfl
  have hargs := Types.forall₂_unfolds_grow hargs hgrow
  have hbase := hbase.trans hgrow
  refine (Closing.settles_close_of (P := fun us σ => σ.Within P us k.free) hc hbase (hA.grow hgrow)
    hargs hfound.exists_unfolds (fun _ _ _ hvs hσ => hσ.grow hvs)
    (Closing.settles_bindFree_within hc hbase hP hargs hfound)).mono ?_
  rintro outcome vs _ - ⟨hsound, -⟩ closed hclosed
  obtain ⟨xs, σ, h, hsolution, hσ, hclosed, -⟩ := hsound closed hclosed
  refine ⟨h, fun p hp => ?_, hclosed⟩
  obtain ⟨t, ht⟩ := Option.isSome_iff_exists.1 ((hsolution.domain p).2 hp)
  obtain ⟨-, T, hT, hPT⟩ := hσ p t ht
  exact ((hsolution.unfolds p).1 t ht).unique hT ▸ hPT

theorem Request.settles_resolveOpen_within (hc : c.Grounded base) (hbase : base.Grows ts)
    (hP : Hereditary c base P) {A O : Tree} {opened : TypeId} (hA : ts.Unfolds r.abstraction A)
    (hPA : P A) (hargs : List.Forall₂ ts.Unfolds i.args Fs) (hopened : ts.Unfolds opened O) :
    Engine.Settles (r.resolveOpen c i opened) ts fun outcome us _ => ∀ closed,
      outcome = .valid closed → ∃ h : Param → Tree, (∀ p ∈ i.free, P (h p)) ∧
        us.Unfolds closed (.apply i.definition (Fs.map (Tree.subst h))) := by
  refine (settles_resolveOpen_of (P := fun us _ closed => ∃ h : Param → Tree, (∀ p ∈ i.free, P (h p)) ∧
    us.Unfolds closed (.apply i.definition (Fs.map (Tree.subst h)))) (Q := fun _ => False) hc hbase hA
    hopened ?_ ?_).mono ?_
  · rintro us vs _ t hvs ⟨h, hP, ht⟩
    exact ⟨h, hP, ht.grow hvs⟩
  · intro requested b B us hus hB hAs
    exact (settles_closeThrough_within (k := r.closing i) hc (hbase.trans hus) hP (hA.grow hus)
      (Types.forall₂_unfolds_grow hargs hus) hB.args hAs fun A' hA' => hP.args hPA hA').mono
        fun _ _ _ _ h => ⟨h, fun _ => False.elim⟩
  · rintro _ us cut - ⟨closed, rfl, hends⟩ t ht
    obtain ⟨-, -, -, -, -, -, -, -, hwithin⟩ := hends.of_eq_valid ht
    exact hwithin

end

/-! ## Parameters that others lead to -/

/-- The parameters of `ps` and, with each parameter, all those that its declared constraints
mention. -/
inductive Catalog.Entailed (c : Catalog) (ts : Types) (ps : List Param) : Param → Prop
  | mentioned {p : Param} (h : p ∈ ps) : Entailed c ts ps p
  | constraint {p q : Param} {decl : ParamDecl} {k : TypeId} (h : Entailed c ts ps p)
      (hdecl : c.definitions.param? p = some decl) (hk : k ∈ decl.constraints)
      (hq : q ∈ (c.view ts).params k) : Entailed c ts ps q

variable {c : Catalog} {base ts : Types} {ps : List Param}

theorem Catalog.not_entailed_nil (c : Catalog) (ts : Types) (p : Param) : ¬c.Entailed ts [] p := by
  intro h
  induction h with
  | mentioned h => cases h
  | constraint _ _ _ _ ih => exact ih

/-- To mention only parameters that `ps` leads to passes on to arguments and to supertypes. -/
theorem hereditary_entailed (hc : c.Declared base) (ps : List Param) :
    Hereditary c base fun T => T.Wellformed c.definitions ∧ ∀ p ∈ T.params, c.Entailed base ps p where
  args := fun ⟨hwf, hps⟩ hA =>
    ⟨hwf.of_mem_args hA, fun p hp => hps p (Tree.mem_params_of_mem_args hA hp)⟩
  above := by
    rintro S U ⟨hwf, hps⟩ h
    refine ⟨h.wellformed_of_declared hc hwf, fun q hq => ?_⟩
    cases h with
    | declared hd hinfo ht hT =>
      obtain ⟨T, hT', hTwf, hown⟩ := hc.exists_supertype hinfo ht
      obtain rfl := hT.unique hT'
      obtain ⟨p, hp, hq⟩ := Tree.mem_params_subst.1 hq
      obtain ⟨A, hA, -, heq⟩ := Tree.exists_assign_mem hTwf hown hinfo (hwf.arity_eq hd hinfo) hp
      exact hps q (Tree.mem_params_of_mem_args hA (heq ▸ hq))
    | @constraint p decl k _ hS hdecl hk hT =>
      subst hS
      exact .constraint (hps p (by simp)) hdecl hk ((c.mem_params_iff hc.plain hT).2 hq)

/-- An implementation closes to an instance over types of which `P` holds, if it does so of the
abstraction. -/
theorem Request.of_resolve_eq_valid_within {r : Request} {s : Session} {closed : TypeId}
    {P : Tree → Prop} (hc : c.Grounded s.types) (hP : Hereditary c s.types P)
    (hA : ∀ A, s.types.Unfolds r.abstraction A → A.Wellformed c.definitions → P A)
    (h : (r.resolve c s).1 = .ok (.valid closed)) :
    ∃ I, s.types.Unfolds r.implementation I ∧ s.types.Grows (r.resolve c s).2.types ∧
      (I.params = [] ∧ closed = r.implementation ∨ ∃ d, ∃ f : Param → Tree,
        (∀ p ∈ I.params, P (f p)) ∧ (r.resolve c s).2.types.Unfolds closed
          (.apply d (I.args.map (Tree.subst f)))) := by
  obtain ⟨i, I, hi, hI, hgrow, hcases⟩ := of_resolve_eq_valid_of
    (P := fun i I us closed => ∃ f : Param → Tree, (∀ p ∈ i.free, P (f p)) ∧
      us.Unfolds closed (.apply i.definition (I.args.map (Tree.subst f)))) hc
    (fun i A I us opened info hgrow hi hA' hAwf hI hargs _ hopened =>
      settles_resolveOpen_within hc hgrow hP hA' (by
        obtain ⟨⟨A₀, hA₀, -⟩, -⟩ := (c.examine_eq_ok_iff hc.plain).1 hi
        obtain rfl := (hA₀.grow hgrow).unique hA'
        exact hA A₀ hA₀ hAwf) hargs hopened) h
  obtain ⟨-, ⟨_, hI₀, -⟩, -, hparams, -⟩ := (c.examine_eq_ok_iff hc.plain).1 hi
  obtain rfl := hI₀.unique hI
  have hfree : ∀ p, p ∈ i.free ↔ p ∈ Tree.params _ := fun p => by
    rw [hparams, c.mem_params_iff hc.plain hI]
  refine ⟨_, hI, hgrow, ?_⟩
  split at hcases
  · rename_i hnil
    exact .inl ⟨List.eq_nil_iff_forall_not_mem.2 fun p hp => by simpa [hnil] using (hfree p).2 hp,
      hcases.1⟩
  · obtain ⟨f, hf, hclosed⟩ := hcases
    exact .inr ⟨i.definition, f, fun p hp => hf p ((hfree p).2 hp), hclosed⟩

/-- Every parameter of a closed type is one that the abstraction mentions, or one that such parameters
lead to by way of constraints. -/
theorem resolve_mentions {r : Request} {s : Session} {closed : TypeId} (hc : c.Declared s.types)
    (h : (r.resolve c s).1 = .ok (.valid closed)) :
    (∀ p ∈ (c.view (r.resolve c s).2.types).params closed,
      c.Entailed s.types ((c.view s.types).params r.abstraction) p) ∧
    ((c.view s.types).params r.abstraction = [] →
      (c.view (r.resolve c s).2.types).params closed = []) := by
  obtain ⟨I, hI, hgrow, hcases⟩ := Request.of_resolve_eq_valid_within hc.grounded
    (hereditary_entailed hc ((c.view s.types).params r.abstraction)) (fun A hA hwf =>
      ⟨hwf, fun p hp => .mentioned ((c.mem_params_iff hc.plain hA).2 hp)⟩) h
  have hall : ∀ q ∈ (c.view (r.resolve c s).2.types).params closed,
      c.Entailed s.types ((c.view s.types).params r.abstraction) q := by
    intro q hq
    rcases hcases with ⟨hnil, rfl⟩ | ⟨d, f, hf, hclosed⟩
    · rw [c.mem_params_iff hc.plain (hI.grow hgrow), hnil] at hq
      cases hq
    · rw [c.mem_params_iff hc.plain hclosed, Tree.params_apply, List.mem_flatMap] at hq
      obtain ⟨_, hmem, hq⟩ := hq
      obtain ⟨F, hF, rfl⟩ := List.mem_map.1 hmem
      obtain ⟨p, hp, hq⟩ := Tree.mem_params_subst.1 hq
      exact (hf p (Tree.mem_params_of_mem_args hF hp)).2 q hq
  exact ⟨hall, fun hnil => List.eq_nil_iff_forall_not_mem.2 fun p hp =>
    c.not_entailed_nil s.types p (hnil ▸ hall p hp)⟩

/-! ## A parameter that another leads to -/

namespace EntailedSample

/-- Interfaces `L<T>` and `G<T>`, and classes `D<T, U> : G<T>` where `T : L<U>` and `H<V, W>` where
`V : L<W>`. -/
def catalog : Catalog where
  definitions.entries := #[
    { kind := .interfaceType, name := ⟨1⟩, params := [{ name := ⟨2⟩ }] },
    { kind := .interfaceType, name := ⟨3⟩, params := [{ name := ⟨2⟩ }] },
    { kind := .classType, name := ⟨4⟩,
      params := [{ name := ⟨2⟩, constraints := [⟨2⟩] }, { name := ⟨5⟩ }], interfaces := [⟨3⟩] },
    { kind := .classType, name := ⟨6⟩,
      params := [{ name := ⟨7⟩, constraints := [⟨6⟩] }, { name := ⟨8⟩ }] }]

/-- The parameters `T` and `U` of `D`, then `L<U>`, `G<T>`, the parameters `V` and `W` of `H`, and
`L<W>`, `G<V>` and `D<T, U>`. -/
def session : Session where
  types := .ofNodes [.param ⟨⟨3⟩, 0⟩, .param ⟨⟨3⟩, 1⟩, .app ⟨1⟩ [⟨1⟩], .app ⟨2⟩ [⟨0⟩],
    .param ⟨⟨4⟩, 0⟩, .param ⟨⟨4⟩, 1⟩, .app ⟨1⟩ [⟨5⟩], .app ⟨2⟩ [⟨4⟩], .app ⟨3⟩ [⟨0⟩, ⟨1⟩]]

/-- A request for a `G<V>` that `D<T, U>` is to serve. -/
def request : Request := { abstraction := ⟨7⟩, implementation := ⟨8⟩ }

/-- The request ends in `D<V, W>`, and it is `V` that leads to `W`. -/
theorem resolve_mentions_constraint :
    (catalog.view (request.resolve catalog session).2.types).params ⟨9⟩ = [⟨⟨4⟩, 0⟩, ⟨⟨4⟩, 1⟩] ∧
    (catalog.view session.types).params request.abstraction = [⟨⟨4⟩, 0⟩] ∧
    catalog.Entailed session.types ((catalog.view session.types).params request.abstraction)
      ⟨⟨4⟩, 1⟩ := by
  have hc : catalog.Declared session.types := by decide +kernel
  have hrun : (request.resolve catalog session).1 = .ok (.valid ⟨9⟩) := by decide +kernel
  refine ⟨by decide +kernel, by decide +kernel, (resolve_mentions hc hrun).1 _ (by decide +kernel)⟩

end EntailedSample

end Generics
