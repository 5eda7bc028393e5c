import Generics.Unify
import Generics.Proofs.Matching
import Generics.Proofs.Mirroring.Types

/-!
# Twins are unified alike

Matching twins with twins binds the same parameters in the same order, to twins, and so does the
expansion of constraints: what is inferred depends on the order in which supertypes are found, and
that is the same.
-/

namespace Generics

variable {c c' : Catalog} {K : DefId → Prop} {base ts us : Types} {free : List Param}

/-! ## Matching -/

/-- Twins are bound, and pairs have been matched exactly if their twins have. -/
structure Matching.Twin (K : DefId → Prop) (ts us : Types) (m m' : Matching) : Prop where
  bindings : m.bindings.Twin K ts us m'.bindings
  matched : ∀ {a a' b b'}, Generics.Twin K ts us a a' → Generics.Twin K ts us b b' →
    ((a', b') ∈ m'.matched ↔ (a, b) ∈ m.matched)

namespace Matching

variable {m m' : Matching} {p : Param} {pattern pattern' concrete concrete' : TypeId}

theorem Twin.insert (hm : m.Twin K ts us m') (ha : Generics.Twin K ts us pattern pattern')
    (hb : Generics.Twin K ts us concrete concrete') :
    Matching.Twin K ts us { m with matched := m.matched.insert (pattern, concrete) }
      { m' with matched := m'.matched.insert (pattern', concrete') } := by
  refine ⟨hm.bindings, fun {a a' b b'} haa hbb => ?_⟩
  have hpattern : a = pattern ↔ a' = pattern' := Relator.rel_eq (twin_biUnique K ts us) haa ha
  have hconcrete : b = concrete ↔ b' = concrete' := Relator.rel_eq (twin_biUnique K ts us) hbb hb
  rw [mem_insert_treeSet, mem_insert_treeSet, hm.matched haa hbb, Prod.mk.injEq, Prod.mk.injEq,
    hpattern, hconcrete]

theorem Twin.bind (hm : m.Twin K ts us m') (hp : K p.owner)
    (hb : Generics.Twin K ts us concrete concrete') :
    ExceptRel (Matching.Twin K ts us) (m.bind p concrete) (m'.bind p concrete') := by
  unfold Matching.bind
  have hget := hm.bindings.get? p
  revert hget
  generalize m.bindings.get? p = first
  generalize m'.bindings.get? p = first'
  rintro (hfirst | _)
  · simp only [Relator.rel_eq (twin_biUnique K ts us) hfirst hb]
    split
    · exact .ok hm
    · exact .error _ _
  · exact .ok ⟨hm.bindings.insert hp hb, hm.matched⟩

theorem Twin.matchRigid (hm : m.Twin K ts us m') (ha : Generics.Twin K ts us pattern pattern')
    (hb : Generics.Twin K ts us concrete concrete') :
    ExceptRel (Matching.Twin K ts us) (View.matchRigid m pattern concrete)
      (View.matchRigid m' pattern' concrete') := by
  unfold View.matchRigid
  simp only [Relator.rel_eq (twin_biUnique K ts us) ha hb]
  split
  · exact .ok hm
  · exact .error _ _

end Matching

namespace Catalog.Coincide

variable {n n' : Nat} {m m' : Matching} {A : Tree} {pattern pattern' concrete concrete' : TypeId}
  {σ τ : Substitution} {as as' bs bs' : List TypeId}

/-- Twins are matched alike where both walks have fuel for the pattern. -/
theorem matchTo (hc : c.Coincide c' K base) (free : List Param) (hm : m.Twin K ts us m')
    (ha : ts.Unfolds pattern A) (ha' : us.Unfolds pattern' A) (hA : A.Over K)
    (hb : Twin K ts us concrete concrete') (hn : A.height ≤ n) (hn' : A.height ≤ n') :
    ExceptRel (Matching.Twin K ts us) ((c.view ts).matchTo free n m pattern concrete)
      ((c'.view us).matchTo free n' m' pattern' concrete') := by
  induction n generalizing A m m' n' pattern pattern' concrete concrete' with
  | zero => exact absurd hn (Nat.not_le_of_lt A.height_pos)
  | succ n ih =>
    obtain ⟨n', rfl⟩ := Nat.exists_eq_add_one_of_ne_zero
      (Nat.pos_iff_ne_zero.1 (Nat.lt_of_lt_of_le A.height_pos hn'))
    have hpattern : Twin K ts us pattern pattern' := ⟨A, hA, ha, ha'⟩
    have hmatched : m'.matched.contains (pattern', concrete') =
        m.matched.contains (pattern, concrete) := by
      rw [Bool.eq_iff_iff, Std.TreeSet.contains_iff_mem, Std.TreeSet.contains_iff_mem,
        hm.matched hpattern hb]
    rw [View.matchTo, View.matchTo, hmatched]
    split
    · exact .ok hm
    have hm := hm.insert hpattern hb
    simp only [view_node? hc.plain, view_node? hc.plain']
    cases hA with
    | named hd =>
      cases ha with | named ha =>
      cases ha' with | named ha' =>
      simp only [ha, ha']
      exact hm.matchRigid hpattern hb
    | param hp =>
      cases ha with | param ha =>
      cases ha' with | param ha' =>
      simp only [ha, ha']
      split
      · exact hm.bind hp hb
      · exact hm.matchRigid hpattern hb
    | app hd hAs =>
      cases ha with | app ha has =>
      cases ha' with | app ha' has' =>
      obtain ⟨node, node', hnode, hnode', hnodes⟩ := hb.exists_node
      simp only [ha, ha', hnode, hnode']
      cases hnodes with
      | named => exact .error _ _
      | param => exact .error _ _
      | app he hconcretes =>
        simp only [← hconcretes.length_eq, has'.length_eq, ← has.length_eq]
        split
        · refine .foldlM (forall₂_zip (forall₂_of_common has has') hconcretes) hm ?_
          rintro ⟨a, b⟩ ⟨a', b'⟩ m m' ⟨⟨A, hA, ha, ha'⟩, hb⟩ hm
          exact ih hm ha ha' (hAs A hA) hb (Tree.height_le_of_mem hn hA) (Tree.height_le_of_mem hn' hA)
        · exact .error _ _

theorem matchType (hc : c.Coincide c' K base) (free : List Param) (hσ : σ.Twin K ts us τ)
    (ha : Twin K ts us pattern pattern') (hb : Twin K ts us concrete concrete') :
    ExceptRel (Substitution.Twin K ts us) ((c.view ts).matchType free σ pattern concrete)
      ((c'.view us).matchType free τ pattern' concrete') := by
  obtain ⟨A, hA, ha, ha'⟩ := ha
  have hstart : Matching.Twin K ts us ⟨σ, ∅⟩ ⟨τ, ∅⟩ :=
    ⟨hσ, fun _ _ => by simp only [Std.TreeSet.not_mem_emptyc]⟩
  exact (hc.matchTo free hstart ha ha' hA hb (height_le_bound_mul ha) (height_le_bound_mul ha')).map
    fun _ _ hm => hm.bindings

theorem matchAll (hc : c.Coincide c' K base) (free : List Param) (hσ : σ.Twin K ts us τ)
    (has : List.Forall₂ (Twin K ts us) as as') (hbs : List.Forall₂ (Twin K ts us) bs bs') :
    ExceptRel (Substitution.Twin K ts us) ((c.view ts).matchAll free σ as bs)
      ((c'.view us).matchAll free τ as' bs') := by
  refine .foldlM (forall₂_zip has hbs) hσ ?_
  rintro ⟨a, b⟩ ⟨a', b'⟩ σ τ ⟨ha, hb⟩ hσ
  exact hc.matchType free hσ ha hb

/-- What is inferred from the first suitable list is inferred from its twin. -/
theorem inferAmong (hc : c.Coincide c' K base) (free : List Param) (hσ : σ.Twin K ts us τ)
    (has : List.Forall₂ (Twin K ts us) as as') {supers supers' : List (List TypeId)}
    (hsupers : List.Forall₂ (List.Forall₂ (Twin K ts us)) supers supers') :
    ((c.view ts).inferAmong free σ as supers).Twin K ts us
      ((c'.view us).inferAmong free τ as' supers') := by
  unfold View.inferAmong
  induction hsupers with
  | nil => exact hσ
  | @cons bs bs' supers supers' hbs _ ih =>
    rw [List.findSome?_cons, List.findSome?_cons]
    have hmatch := hc.matchAll free hσ has hbs
    revert hmatch
    generalize (c.view ts).matchAll free σ as bs = r
    generalize (c'.view us).matchAll free τ as' bs' = r'
    rintro (_ | hr)
    · exact ih
    · exact hr

end Catalog.Coincide

/-! ## Expanding constraints -/

/-- Both may bind the same parameters, and they close constraints with twins. -/
structure Unknowns.Twin (K : DefId → Prop) (ts us : Types) (u u' : Unknowns) : Prop where
  free : u'.free = u.free
  closure : u.closure.Twin K ts us u'.closure

namespace Unifier

variable {α α' β β' : Type} {g g' : Guard Param} {m : Unifier α} {m' : Unifier α'}
  {f : α → Unifier β} {f' : α' → Unifier β'} {P : α → α' → Types → Types → Prop}
  {Q : β → β' → Types → Types → Prop}

/-- Under the guards `g` and `g'`, both unifiers fail, or they succeed with values that satisfy `Q`. -/
abbrev Mirrors (g g' : Guard Param) (m : Unifier α) (m' : Unifier α') (ts us : Types)
    (Q : α → α' → Types → Types → Prop) : Prop :=
  Guard.Mirrors (.same Param) g g' m.run m'.run ts us fun r r' ts' us' =>
    ExceptRel (fun a a' => Q a a' ts' us') r r'

namespace Mirrors

theorem pure {a : α} {a' : α'} (hg : g.Twin Eq g') (h : P a a' ts us) :
    Mirrors g g' (Pure.pure a) (Pure.pure a') ts us P :=
  Guard.Mirrors.pure hg (.ok h)

theorem throw (hg : g.Twin Eq g') (e e' : UnifyError) :
    Mirrors g g' (throw e : Unifier α) (throw e' : Unifier α') ts us P :=
  Guard.Mirrors.pure hg (.error e e')

theorem bind (hm : Mirrors g g' m m' ts us P)
    (hf : ∀ a a' ts' us' h h', ts.Grows ts' → us.Grows us' → h.Twin Eq h' → P a a' ts' us' →
      Mirrors h h' (f a) (f' a') ts' us' Q) : Mirrors g g' (m >>= f) (m' >>= f') ts us Q := by
  rw [Mirrors, ExceptT.run_bind, ExceptT.run_bind]
  refine Guard.Mirrors.bind hm ?_
  rintro _ _ ts' us' h h' hts hus hh (⟨e, e'⟩ | hP)
  · exact throw hh e e'
  · exact hf _ _ ts' us' h h' hts hus hh hP

theorem lift_bind {m : Engine α} {m' : Engine α'} (hg : g.Twin Eq g')
    (hm : Engine.Mirrors m m' ts us P)
    (hf : ∀ a a' ts' us', ts.Grows ts' → us.Grows us' → P a a' ts' us' →
      Mirrors g g' (f a) (f' a') ts' us' Q) :
    Mirrors g g' (monadLift m >>= f) (monadLift m' >>= f') ts us Q := by
  have hrun : ∀ {α β : Type} (m : Engine α) (f : α → Unifier β), ((monadLift m : Unifier α) >>= f).run =
      (monadLift m : StateT (Guard Param) Engine α) >>= fun a => (f a).run :=
    fun _ _ => ExceptT.run_bind_lift _ _
  rw [Mirrors, hrun, hrun]
  exact .lift_bind (r := .same Param) hg hm fun a a' ts' us' hts hus _ hP => hf a a' ts' us' hts hus hP

theorem query_bind {q : View → α} {q' : View → α'} (hg : g.Twin Eq g')
    (h : Mirrors g g' (f (q (c.view ts))) (f' (q' (c'.view us))) ts us Q) :
    Mirrors g g' (query c q >>= f) (query c' q' >>= f') ts us Q := by
  refine lift_bind (P := fun a a' ts' us' => a = q (c.view ts) ∧ a' = q' (c'.view us) ∧ ts' = ts ∧
    us' = us) hg (.query c c' ⟨rfl, rfl, rfl, rfl⟩) ?_
  rintro _ _ _ _ - - ⟨rfl, rfl, rfl, rfl⟩
  exact h

theorem foldlM {S : α → α' → Prop} {step : β → α → Unifier β} {step' : β' → α' → Unifier β'}
    {l : List α} {l' : List α'} {b : β} {b' : β'} (hl : List.Forall₂ S l l') (hg : g.Twin Eq g')
    (hinit : Q b b' ts us)
    (hstep : ∀ a a' b b' ts' us' h h', S a a' → ts.Grows ts' → us.Grows us' → h.Twin Eq h' →
      Q b b' ts' us' → Mirrors h h' (step b a) (step' b' a') ts' us' Q) :
    Mirrors g g' (l.foldlM step b) (l'.foldlM step' b') ts us Q := by
  induction hl generalizing b b' g g' ts us with
  | nil => exact pure hg hinit
  | cons ha _ ih =>
    rw [List.foldlM_cons, List.foldlM_cons]
    refine (hstep _ _ b b' ts us g g' ha (.refl ts) (.refl us) hg hinit).bind ?_
    intro b b' ts' us' h h' hts hus hh hQ
    exact ih hh hQ fun a a' b b' ts'' us'' h h' ha hts' hus' =>
      hstep a a' b b' ts'' us'' h h' ha (hts.trans hts') (hus.trans hus')

theorem enter_bind {f : Entry → Unifier β} {f' : Entry → Unifier β'} (hg : g.Twin Eq g') (p : Param)
    (hf : ∀ e h h', h.Twin Eq h' → Mirrors h h' (f e) (f' e) ts us Q) :
    Mirrors g g' (enter p >>= f) (enter p >>= f') ts us Q := by
  have hrun : ∀ {β : Type} (f : Entry → Unifier β), (enter p >>= f).run =
      (modifyGet (·.enter p) : StateT (Guard Param) Engine Entry) >>= fun e => (f e).run :=
    fun _ => rfl
  rw [Mirrors, hrun, hrun]
  exact .enter_bind (r := .same Param) hg rfl hf

theorem visiting (hm : Mirrors g g' m m' ts us P) (p : Param) :
    Mirrors g g' (Unifier.visiting p m) (Unifier.visiting p m') ts us P :=
  Guard.Mirrors.bind_leave (r := .same Param) rfl hm

end Mirrors

variable {u u' : Unknowns} {p : Param} {k k' t t' : TypeId} {σ τ : Substitution} {n : Nat}

/-- From twins that are constrained by twins, twins are inferred. -/
theorem mirrors_infer (hc : c.Coincide c' K base) (hts : base.Grows ts) (hus : base.Grows us)
    (hfree : u'.free = u.free) (hg : g.Twin Eq g') (hσ : σ.Twin K ts us τ) (p : Param)
    (hk : Generics.Twin K ts us k k') (ht : Generics.Twin K ts us t t') :
    Mirrors g g' (infer c u p k t σ) (infer c' u' p k' t' τ) ts us fun σ τ ts us =>
      σ.Twin K ts us τ := by
  obtain ⟨node, node', hnode, hnode', hnodes⟩ := hc.exists_nodes hk
  unfold infer
  refine .query_bind hg ?_
  rw [hnode, hnode', hfree]
  cases hnodes with
  | named => exact .pure hg hσ
  | @param q hq =>
    refine .pure hg ?_
    rw [hσ.contains_eq]
    split
    · exact hσ.insert hq ht
    · exact hσ
  | @app d args args' hd hargs =>
    refine .lift_bind hg (Engine.mirrors_supertypes hc hts hus ht) ?_
    intro above above' ts' us' hts' hus' habove
    refine .query_bind hg ?_
    have hsupers : List.Forall₂ (List.Forall₂ (Generics.Twin K ts' us'))
        (above.toList.filterMap ((c.view ts').argsAs? d args.length))
        (above'.toList.filterMap ((c'.view us').argsAs? d args'.length)) := by
      rw [← hargs.length_eq]
      exact List.rel_filterMap (fun _ _ h => hc.argsAs? d args.length h) habove
    revert hsupers
    generalize above.toList.filterMap ((c.view ts').argsAs? d args.length) = supers
    generalize above'.toList.filterMap ((c'.view us').argsAs? d args'.length) = supers'
    intro hsupers
    have hempty : supers'.isEmpty = supers.isEmpty := by cases hsupers <;> rfl
    rw [hempty]
    split
    · exact .throw hg _ _
    · rw [← bind_pure (query c _), ← bind_pure (query c' _)]
      refine .query_bind hg (.pure hg ?_)
      exact hc.inferAmong u.free (hσ.grow hts' hus') (forall₂_twin_grow hargs hts' hus') hsupers

theorem mirrors_expandEach (hc : c.Coincide c' K base) (hts : base.Grows ts) (hus : base.Grows us)
    (hu : u.Twin K ts us u') {expand expand' : Substitution → Param → Unifier Substitution}
    (hexpand : ∀ q σ τ ts' us' h h', ts.Grows ts' → us.Grows us' → h.Twin Eq h' → K q.owner →
      σ.Twin K ts' us' τ → Mirrors h h' (expand σ q) (expand' τ q) ts' us' fun σ τ ts us =>
        σ.Twin K ts us τ)
    (hg : g.Twin Eq g') (hp : K p.owner) (hσ : σ.Twin K ts us τ) :
    Mirrors g g' (expandEach c u expand σ p) (expandEach c' u' expand' τ p) ts us fun σ τ ts us =>
      σ.Twin K ts us τ := by
  unfold expandEach
  refine .query_bind hg ?_
  rw [hc.param?_eq hp, Catalog.view_param?]
  have hget := hσ.get? p
  revert hget
  generalize σ.get? p = bound
  generalize τ.get? p = bound'
  rintro (@⟨t, t', ht⟩ | _)
  · cases hdecl : c.definitions.param? p with
    | none => exact .pure hg hσ
    | some decl =>
      refine .foldlM (S := fun k k' => k = k' ∧ Generics.Twin K base base k k)
        (List.forall₂_same.2 fun k hk => ⟨rfl, hc.constraints p decl hp hdecl k hk⟩) hg hσ ?_
      rintro k _ σ τ ts' us' h h' ⟨rfl, hk⟩ hts' hus' hh hσ
      have hbase := hts.trans hts'
      have hbase' := hus.trans hus'
      refine .lift_bind hh (Engine.mirrors_instantiate hc (hk.grow hbase hbase')
        (hu.closure.grow hts' hus')) ?_
      intro k k' ts'' us'' hts'' hus'' hk
      refine .query_bind hh ?_
      rw [hu.free, hc.mentionsAny_eq hk]
      split
      · refine (mirrors_infer hc (hbase.trans hts'') (hbase'.trans hus'') hu.free hh
          (hσ.grow hts'' hus'') p hk (ht.grow (hts'.trans hts'') (hus'.trans hus''))).bind ?_
        intro υ υ' ts₃ us₃ h₃ h₃' hts₃ hus₃ hh₃ hυ
        -- what was inferred just now is the same in both
        rw [hυ.domain_eq, hσ.size_eq]
        refine .foldlM (S := fun q q' => q = q' ∧ K q.owner) (List.forall₂_same.2 fun q hq => ⟨rfl,
          hυ.owner (List.mem_of_mem_drop hq)⟩) hh₃ hυ ?_
        rintro q _ σ τ ts₄ us₄ h₄ h₄' ⟨rfl, hq⟩ hts₄ hus₄ hh₄ hσ
        exact hexpand q σ τ ts₄ us₄ h₄ h₄' (hts'.trans (hts''.trans (hts₃.trans hts₄)))
          (hus'.trans (hus''.trans (hus₃.trans hus₄))) hh₄ hq hσ
      · exact .pure hh (hσ.grow hts'' hus'')
  · exact .pure hg hσ

theorem mirrors_expandTo (hc : c.Coincide c' K base) (hts : base.Grows ts) (hus : base.Grows us)
    (hu : u.Twin K ts us u') (hg : g.Twin Eq g') (hp : K p.owner) (hσ : σ.Twin K ts us τ) :
    Mirrors g g' (expandTo c u n σ p) (expandTo c' u' n τ p) ts us fun σ τ ts us =>
      σ.Twin K ts us τ := by
  induction n generalizing ts us g g' σ τ p with
  | zero => exact .throw hg _ _
  | succ n ih =>
    rw [expandTo, expandTo]
    refine .enter_bind hg p fun e h h' hh => ?_
    cases e with
    | entered =>
      refine .visiting (mirrors_expandEach hc hts hus hu ?_ hh hp hσ) p
      intro q σ τ ts' us' h h' hts' hus' hh hq hσ
      exact ih (hts.trans hts') (hus.trans hus')
        ⟨hu.free, hu.closure.grow hts' hus'⟩ hh hq hσ
    | cycle => exact .pure hh hσ
    | tooDeep => exact .throw hh _ _
    | tooLong => exact .throw hh _ _

/-- Twins are unified alike, under guards of their own. -/
theorem mirrors_unify (hc : c.Coincide c' K base) (hts : base.Grows ts) (hus : base.Grows us)
    (hu : u.Twin K ts us u') (limits : Limits) {as as' bs bs' : List TypeId}
    (has : List.Forall₂ (Generics.Twin K ts us) as as')
    (hbs : List.Forall₂ (Generics.Twin K ts us) bs bs') :
    Engine.Mirrors (runFresh limits (unify c u as bs)) (runFresh limits (unify c' u' as' bs')) ts us
      fun r r' ts' us' => ExceptRel (Substitution.Twin K ts' us') r r' := by
  have hg : Guard.Twin (Eq : Param → Param → Prop) { limits } { limits } := Guard.twin_start _ _
  refine Guard.Mirrors.retire (r := .same Param) limits ?_
  change Mirrors { limits } { limits } (unify c u as bs) (unify c' u' as' bs') ts us
    fun σ τ ts us => σ.Twin K ts us τ
  unfold unify
  rw [has.length_eq, hbs.length_eq]
  split
  · exact .throw hg _ _
  refine .query_bind hg ?_
  rw [hu.free]
  have hmatch := hc.matchAll u.free (Substitution.twin_empty K ts us) has hbs
  revert hmatch
  generalize (c.view ts).matchAll u.free .empty as bs = matched
  generalize (c'.view us).matchAll u.free .empty as' bs' = matched'
  rintro (_ | @⟨matched, matched', hmatched⟩)
  · exact .throw hg _ _
  dsimp only
  rw [hmatched.domain_eq]
  refine Mirrors.bind (P := fun σ τ ts us => σ.Twin K ts us τ) (.foldlM
    (S := fun p p' => p = p' ∧ K p.owner) (List.forall₂_same.2 fun p hp => ⟨rfl, hmatched.owner hp⟩)
    hg hmatched ?_) ?_
  · rintro p _ σ τ ts' us' h h' ⟨rfl, hp⟩ hts' hus' hh hσ
    exact mirrors_expandTo hc (hts.trans hts') (hus.trans hus')
      ⟨hu.free, hu.closure.grow hts' hus'⟩ hh hp hσ
  · intro σ τ ts' us' h h' _ _ hh hσ
    refine .lift_bind hh (Engine.Mirrors.report (P := fun _ _ _ _ => True) c c' _ _ trivial) ?_
    intro _ _ ts'' us'' hts'' hus'' _
    exact .pure hh (hσ.grow hts'' hus'')

end Unifier

end Generics
