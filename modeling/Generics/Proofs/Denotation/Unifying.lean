import Generics.Proofs.Denotation
import Generics.Proofs.Unification

/-!
# Unification comes to its outcomes

A run of the engine that is not cut short simulates the steps on trees: from bindings to the same trees
in the same order it fails where a step may fail, and otherwise leads to bindings to the same trees in
the same order as one that a step may come to.  The order of supertypes is that in which the catalog finds
them.
-/

namespace Generics

namespace Unifier

/-- The outcome is one that `x` may have at the bindings of `σ`, unless it is cut short; and it binds
more free parameters in any case. -/
structure Simulates (free : List Param) (ts : Types) (σ : Substitution)
    (x : Bindings → Outcomes Bindings) (r : Except UnifyError Substitution) (us : Types) (cut : Bool) :
    Prop where
  appends : ∀ τ, r = .ok τ → σ.Extends us (· ∈ free) τ
  included : cut = false → ∀ E, E.domain ⊆ free → σ.Binds ts E →
    (x E).Include (fun τ E' => E'.domain ⊆ free ∧ τ.Binds us E') r

section Rules

variable {α : Type} {c : Catalog} {g : Guard Param} {ts us : Types} {free : List Param}
  {σ : Substitution} {x x' : Bindings → Outcomes Bindings} {cut : Bool}

theorem simulates_self (hgrow : ts.Grows us) : Simulates free ts σ pure (.ok σ) us cut where
  appends _ heq := Except.ok.inj heq ▸ .refl ..
  included _ E hE hσ := ⟨E, rfl, hE, hσ.grow hgrow⟩

theorem simulates_error {e : UnifyError} (h : cut = true) :
    Simulates free ts σ x (.error e) us cut where
  appends := nofun
  included hcut := by simp [h] at hcut

theorem Simulates.congr {r : Except UnifyError Substitution} (h : Simulates free ts σ x r us cut)
    (heq : ∀ E, σ.Binds ts E → x' E = x E) : Simulates free ts σ x' r us cut where
  appends := h.appends
  included hcut E hE hσ := heq E hσ ▸ h.included hcut E hE hσ

theorem Simulates.of_grows {vs : Types} {r : Except UnifyError Substitution}
    (h : Simulates free vs σ x r us cut) (hgrow : ts.Grows vs) : Simulates free ts σ x r us cut where
  appends := h.appends
  included hcut E hE hσ := h.included hcut E hE (hσ.grow hgrow)

/-- One simulation after the other. -/
theorem watches_simulates_bind {m : Unifier Substitution} {f : Substitution → Unifier Substitution}
    {x₁ : Bindings → Outcomes Bindings} (x₂ : Substitution → Bindings → Outcomes Bindings)
    (hm : g.Watches m.run ts (Simulates free ts σ x₁))
    (hf : ∀ τ us g', ts.Grows us → g.Keeps g' → σ.Extends us (· ∈ free) τ →
      g'.Watches (f τ).run us (Simulates free us τ (x₂ τ)))
    (hnone : ∀ E, x₁ E none → x E none)
    (hsome : ∀ E E' τ us, σ.Binds ts E → x₁ E (some E') → τ.Binds us E' → ∀ o, x₂ τ E' o → x E o) :
    g.Watches (m >>= f).run ts (Simulates free ts σ x) := by
  refine watches_bind hm ?_ ?_
  · intro τ us cut g' hgrow hkeeps hfirst
    refine (hf τ us g' hgrow hkeeps (hfirst.appends τ rfl)).mono ?_
    intro r vs cut' hvs hrest
    refine ⟨fun υ hυ => ((hfirst.appends τ rfl).grow hvs).trans (hrest.appends υ hυ),
      fun hcut E hE hσ => ?_⟩
    rw [Bool.or_eq_false_iff] at hcut
    obtain ⟨E', hx, hE', hτ⟩ := hfirst.included hcut.1 E hE hσ
    exact (hrest.included hcut.2 E' hE' hτ).mono (hsome E E' τ us hσ hx hτ) fun _ _ => id
  · intro e us cut cut' hfails
    refine ⟨nofun, fun hcut E hE hσ => ?_⟩
    exact hnone E (hfails.included (Bool.or_eq_false_iff.1 hcut).1 E hE hσ)

/-- Going through a list simulates going through it. -/
theorem watches_foldlM_simulates (free : List Param) (x : Bindings → α → Outcomes Bindings)
    {step : Substitution → α → Unifier Substitution} {l : List α}
    (hstep : ∀ a ∈ l, ∀ τ us g', ts.Grows us → g.Keeps g' → σ.Extends us (· ∈ free) τ →
      g'.Watches (step τ a).run us (Simulates free us τ (x · a))) :
    g.Watches (l.foldlM step σ).run ts (Simulates free ts σ fun E => l.foldlM x E) := by
  induction l generalizing σ ts g with
  | nil => exact .pure fun _ => simulates_self (.refl ts)
  | cons a l ih =>
    rw [List.foldlM_cons]
    refine watches_simulates_bind (fun _ E => l.foldlM x E)
      (hstep a (List.mem_cons_self ..) σ ts g (.refl ts) (.refl g) (.refl ..)) ?_ ?_ ?_
    · intro τ us g' hgrow hkeeps hext
      exact ih fun b hb υ vs g'' hvs hkeeps' hext' => hstep b (List.mem_cons_of_mem _ hb) υ vs g''
        (hgrow.trans hvs) (hkeeps.trans hkeeps') ((hext.grow hvs).trans hext')
    · intro E hnone
      exact Outcomes.bind_none hnone
    · intro E E' _ _ _ hsome _ o ho
      exact Outcomes.bind_some hsome ho

end Rules

/-! ## One inference -/

section

variable {c : Catalog} {u : Unknowns} {base ts us : Types} {f : Param → Tree} {As Bs : List Tree}
  {g : Guard Param} {σ : Substitution} {p : Param} {k t : TypeId} {K X : Tree}

/-- What is inferred from the supertypes found comes from the first that matches. -/
theorem matchesFirst_inferAmong {args : List TypeId} {Ks : List Tree} {supers : List (List TypeId)}
    {Bss : List (List Tree)} {E : Bindings} (hplain : c.overrides = []) (hE : E.domain ⊆ u.free)
    (hσ : σ.Binds ts E) (hargs : List.Forall₂ ts.Unfolds args Ks)
    (hsupers : List.Forall₂ (List.Forall₂ ts.Unfolds) supers Bss)
    (hlen : ∀ Bs ∈ Bss, Bs.length = Ks.length) :
    ∃ E', E.MatchesFirst u.free Ks Bss E' ∧ E'.domain ⊆ u.free ∧
      ((c.view ts).inferAmong u.free σ args supers).Binds ts E' := by
  induction hsupers with
  | nil => exact ⟨E, .nil, hE, hσ⟩
  | @cons bs Bs supers Bss hBs _ ih =>
    rw [List.forall_mem_cons] at hlen
    rw [View.inferAmong, List.findSome?_cons]
    cases hmatch : (c.view ts).matchAll u.free σ args bs with
    | ok τ =>
      obtain ⟨E', hmatches, hτ⟩ := Catalog.matches_of_matchAll_eq_ok hplain hargs hBs
        (by rw [hBs.length_eq, hlen.1, hargs.length_eq]) hσ hE hmatch
      exact ⟨E', .here hmatches, hmatches.domain_subset hE, hτ⟩
    | error e =>
      obtain ⟨E', hfirst, hbound, hbinds⟩ := ih hlen.2
      refine ⟨E', .later (fun E'' hmatches => ?_) hfirst, hbound, hbinds⟩
      obtain ⟨τ, hτ⟩ := Catalog.exists_matchAll_eq_ok_of_matches hplain hargs hBs hσ hE hmatches
      cases hmatch.symm.trans hτ

theorem watches_infer_simulates (hc : c.Grounded base) (hbase : base.Grows ts)
    (hX : ts.Unfolds t X) (hk : ts.Unfolds k K) :
    g.Watches (infer c u p k t σ).run ts (Simulates u.free ts σ ((c.hierarchy base).infer u.free K X)) := by
  have hextends := watches_infer (u := u) (g := g) (p := p) (σ := σ) hc hbase hk hX
  suffices hincluded : g.Watches (infer c u p k t σ).run ts fun r us cut => cut = false →
      ∀ E, E.domain ⊆ u.free → σ.Binds ts E → ((c.hierarchy base).infer u.free K X E).Include
        (fun τ E' => E'.domain ⊆ u.free ∧ τ.Binds us E') r by
    refine (Engine.Settles.and hextends hincluded).mono ?_
    rintro ⟨r, g'⟩ us cut - ⟨⟨hkeeps, hanswers, -⟩, -, hincluded⟩
    exact ⟨hkeeps, hanswers.1, hincluded⟩
  cases hk with
  | named hk =>
    unfold infer
    refine watches_query_bind (fun vs hvs => ?_) ?_
    · simp only [Catalog.view_node? hc.plain, hk, hvs _ _ hk]
    simp only [Catalog.view_node? hc.plain, hk]
    exact .pure fun _ _ E hE hσ => ⟨E, rfl, hE, hσ⟩
  | @param _ q hk =>
    refine (watches_infer_param hc.plain hk).mono ?_
    rintro r us cut hgrow rfl - E hE hσ
    refine ⟨_, rfl, ?_⟩
    have hiff : (q ∈ u.free ∧ !σ.contains q) ↔ q ∈ u.free ∧ q ∉ E.domain := by
      rw [← hσ.contains_iff, Bool.not_eq_true']
      simp
    by_cases hq : q ∈ u.free ∧ q ∉ E.domain
    · rw [if_pos (hiff.2 hq), if_pos hq]
      refine ⟨List.append_subset.2 ⟨hE, List.cons_subset.2 ⟨hq.1, List.nil_subset _⟩⟩, ?_⟩
      exact (hσ.grow hgrow).insert (hσ.contains_iff.not.2 hq.2) (hX.grow hgrow)
    · rw [if_neg (hiff.not.2 hq), if_neg hq]
      exact ⟨hE, hσ.grow hgrow⟩
  | @app _ d _ Ks hk hargs =>
    refine (watches_infer_app_of hc hbase (.app hk hargs) hX
      (Engine.settles_supertypes_ascent hc hbase hX)).mono ?_
    rintro r us cut hgrow ⟨args, found, cut', hargs, ⟨-, Ts, refused, hTs, hascent, hrefused⟩, hcut', rfl⟩
      hcut E hE hσ
    -- the supertypes found, in the order in which they were found
    have hsearch : DepthFirst c base [] [X] Ts := hascent.depthFirst (hrefused (hcut' hcut)) (.done Ts)
    have hsupers : List.Forall₂ (List.Forall₂ us.Unfolds)
        (found.toList.filterMap ((c.view us).argsAs? d args.length))
        (Ts.filterMap (Tree.argsAs? d Ks.length)) := by
      rw [hargs.length_eq]
      refine List.rel_filterMap ?_ hTs
      exact fun _ _ hT => Catalog.rel_argsAs? hc.plain hT d _
    split
    · rename_i hempty
      rw [List.isEmpty_iff.1 hempty, List.forall₂_nil_left_iff] at hsupers
      exact ⟨Ts, hsearch, hsupers⟩
    · rename_i hnonempty
      obtain ⟨E', hfirst, hbound, hbinds⟩ := matchesFirst_inferAmong hc.plain hE (hσ.grow hgrow) hargs
        hsupers fun Bs hBs => by
          obtain ⟨S, -, hS⟩ := List.mem_filterMap.1 hBs
          exact (Tree.argsAs?_eq_some_iff.1 hS).2
      refine ⟨E', ⟨Ts, hsearch, fun hnil => hnonempty ?_, hfirst⟩, hbound, hbinds⟩
      rw [hnil, List.forall₂_nil_right_iff] at hsupers
      rw [hsupers]
      rfl

/-! ## The whole expansion -/

section

variable {expand : Substitution → Param → Unifier Substitution}
  {x : Bindings → Param → Outcomes Bindings}

/-- Expanding one constraint of `p`, which is bound to `bound`. -/
def expandOne (c : Catalog) (u : Unknowns) (expand : Substitution → Param → Unifier Substitution)
    (p : Param) (bound : TypeId) (σ : Substitution) (k : TypeId) : Unifier Substitution := do
  let k ← monadLift (Engine.instantiate c k u.closure)
  if ← query c (·.mentionsAny k u.free) then
    let τ ← infer c u p k bound σ
    (τ.domain.drop σ.size).foldlM expand τ
  else pure σ

theorem watches_expandOne_simulates (hc : c.Grounded base) (hbase : base.Grows ts)
    (hclosure : u.closure.Unfolds ts f) (hX : ts.Unfolds t X) (hk : base.Unfolds k K)
    (hexpand : ∀ q τ us g', ts.Grows us → g.Keeps g' → σ.Extends us (· ∈ u.free) τ →
      g'.Watches (expand τ q).run us (Simulates u.free us τ (x · q))) :
    g.Watches (expandOne c u expand p t σ k).run ts
      (Simulates u.free ts σ ((c.hierarchy base).expandOne u.free f x X · K)) := by
  unfold expandOne
  refine watches_lift_bind (Engine.settles_instantiate hc.plain (hk.grow hbase) hclosure) ?_
  rintro k' us _ hgrow ⟨hk', rfl, -⟩
  refine watches_query_bind (fun vs hvs => c.mentionsAny_grow hc.plain hk' hvs) ?_
  refine Guard.Watches.mono ?_ fun _ _ _ _ hsimulates => Simulates.of_grows hsimulates hgrow
  split
  · rename_i hmentions
    rw [c.mentionsAny_iff hc.plain hk'] at hmentions
    refine watches_simulates_bind (fun τ E => (τ.domain.drop σ.size).foldlM x E)
      (watches_infer_simulates hc (hbase.trans hgrow) (hX.grow hgrow) hk') ?_ ?_ ?_
    · intro τ vs g' hvs hkeeps hext
      exact watches_foldlM_simulates _ x fun q _ υ xs g'' hxs hkeeps' hext' =>
        hexpand q υ xs g'' (hgrow.trans (hvs.trans hxs)) (hkeeps.trans hkeeps')
          ((hext.grow hxs).trans hext')
    · intro E hnone
      rw [Hierarchy.expandOne, if_pos hmentions]
      exact Outcomes.bind_none hnone
    · intro E E' τ vs hσ hsome hτ o ho
      have hsize : σ.size = E.domain.length := by
        rw [← hσ.domain, Substitution.domain, List.length_map, Substitution.size]
      rw [hτ.domain, hsize] at ho
      rw [Hierarchy.expandOne, if_pos hmentions]
      exact Outcomes.bind_some hsome ho
  · rename_i hnone
    rw [c.mentionsAny_iff hc.plain hk'] at hnone
    refine .pure fun _ => (simulates_self (.refl us)).congr fun E _ => ?_
    rw [Hierarchy.expandOne, if_neg hnone]

theorem watches_expandEach_simulates (hc : c.Grounded base) (hbase : base.Grows ts)
    (hclosure : u.closure.Unfolds ts f) (hσ : ∃ h, σ.Unfolds ts h)
    (hexpand : ∀ q τ us g', ts.Grows us → g.Keeps g' → σ.Extends us (· ∈ u.free) τ →
      g'.Watches (expand τ q).run us (Simulates u.free us τ (x · q))) :
    g.Watches (expandEach c u expand σ p).run ts
      (Simulates u.free ts σ ((c.hierarchy base).expandEach u.free f x · p)) := by
  unfold expandEach
  refine watches_query_bind (fun vs hvs => rfl) ?_
  rw [Catalog.view_param?]
  cases ht : σ.get? p with
  | none =>
    refine .pure fun _ => (simulates_self (.refl ts)).congr fun E hσ => ?_
    rw [Hierarchy.expandEach, if_neg]
    rw [← hσ.contains_iff, Substitution.contains, ht]
    exact Bool.false_ne_true
  | some t =>
    obtain ⟨h, hh⟩ := hσ
    have hX := (hh p).1 t ht
    cases hdecl : c.definitions.param? p with
    | none =>
      refine .pure fun _ => (simulates_self (.refl ts)).congr fun E hσ => ?_
      rw [Hierarchy.expandEach, if_pos (hσ.mem_domain ht), Catalog.constraints_hierarchy, hdecl]
      rfl
    | some decl =>
      have hconstraints : (c.hierarchy base).constraints p = decl.constraints.map base.tree := by
        rw [Catalog.constraints_hierarchy, hdecl]
        rfl
      refine (watches_foldlM_simulates u.free
        (fun E k => (c.hierarchy base).expandOne u.free f x (h p) E (base.tree k))
        fun k hk τ us g' hgrow hkeeps hext => ?_).mono fun r us cut _ hsimulates =>
          hsimulates.congr fun E hσ => ?_
      · obtain ⟨K, hK⟩ := hc.constraints p decl hdecl k hk
        rw [hK.tree_eq]
        exact watches_expandOne_simulates hc (hbase.trans hgrow) (hclosure.grow hgrow) (hX.grow hgrow)
          hK fun q υ vs g'' hvs hkeeps' hext' => hexpand q υ vs g'' (hgrow.trans hvs)
            (hkeeps.trans hkeeps') ((hext.grow hvs).trans hext')
      · rw [Hierarchy.expandEach, if_pos (hσ.mem_domain ht), hσ.image_eq ht hX, hconstraints,
          List.foldlM_map]

end

theorem watches_expandTo_simulates {n : Nat} (hc : c.Grounded base) (hbase : base.Grows ts)
    (hclosure : u.closure.Unfolds ts f) (hσ : ∃ h, σ.Unfolds ts h) :
    g.Watches (expandTo c u n σ p).run ts
      (Simulates u.free ts σ ((c.hierarchy base).expandTo u.free f n g.visiting · p)) := by
  induction n generalizing ts σ p g with
  | zero => exact .pure fun _ => ⟨nofun, fun _ _ _ _ => rfl⟩
  | succ n ih =>
    rw [expandTo, Guard.Watches, ExceptT.run_bind, StateT.run_bind]
    change Engine.Settles (pure (Except.ok (g.enter p).1, (g.enter p).2) >>= _) ts _
    rw [pure_bind]
    rcases henter : g.enter p with ⟨e, g'⟩
    by_cases he : e = .entered
    · subst he
      obtain ⟨hnew, hvisiting, -, -⟩ := Guard.of_enter_eq_entered henter
      refine Guard.Watches.leave_entered henter (Guard.Watches.mono
        (watches_expandEach_simulates (x := (c.hierarchy base).expandTo u.free f n (p :: g.visiting))
          hc hbase hclosure hσ ?_)
        fun r us cut _ hsimulates => hsimulates.congr fun E _ => ?_)
      · intro q τ us g'' hus hkeeps hext
        rw [← hvisiting, ← hkeeps.visiting]
        exact ih (hbase.trans hus) (hclosure.grow hus) (exists_unfolds_of_extends hσ hus hext)
      · rw [Hierarchy.expandTo, if_neg hnew]
    · obtain ⟨hkeeps, hcases⟩ := Guard.of_enter_ne_entered henter he
      rcases hcases with ⟨rfl, hmem⟩ | ⟨hne, hexceeded⟩
      · refine .pure ⟨hkeeps, (simulates_self (.refl ts)).congr fun E _ => ?_⟩
        rw [Hierarchy.expandTo, if_pos hmem]
      · cases e with
        | entered => exact absurd rfl he
        | cycle => exact absurd rfl hne
        | tooDeep => exact .pure ⟨hkeeps, simulates_error (by simpa using hexceeded)⟩
        | tooLong => exact .pure ⟨hkeeps, simulates_error (by simpa using hexceeded)⟩

/-- What unification finds is one of its outcomes. -/
theorem watches_unify_include {as bs : List TypeId} (hc : c.Grounded base) (hbase : base.Grows ts)
    (hclosure : u.closure.Unfolds ts f) (has : List.Forall₂ ts.Unfolds as As)
    (hbs : List.Forall₂ ts.Unfolds bs Bs) (hvisiting : g.visiting = []) :
    g.Watches (unify c u as bs).run ts fun r us cut => cut = false →
      ((c.hierarchy base).unify u.free f As Bs).Include (·.Binds us ·) r := by
  unfold unify
  split
  · rename_i hlen
    refine .pure fun _ _ => Outcomes.bind_none ?_
    rintro ⟨E, hE⟩
    exact hlen (by rw [has.length_eq, hbs.length_eq, ← hE.solves, List.length_map])
  rename_i hlen
  rw [not_not] at hlen
  refine watches_query_bind (fun vs hvs => c.matchAll_grow hc.plain has hbs hvs .empty) ?_
  have hempty := Substitution.binds_empty ts
  have hsubset : Bindings.empty.domain ⊆ u.free := List.nil_subset _
  cases hmatch : (c.view ts).matchAll u.free .empty as bs with
  | error e =>
    refine .pure fun _ _ => Outcomes.bind_none ?_
    rintro ⟨E, hE⟩
    obtain ⟨τ, hτ⟩ := Catalog.exists_matchAll_eq_ok_of_matches hc.plain has hbs hempty hsubset hE
    cases hmatch.symm.trans hτ
  | ok matched =>
    obtain ⟨E, hE, hbinds⟩ :=
      Catalog.matches_of_matchAll_eq_ok hc.plain has hbs hlen.symm hempty hsubset hmatch
    have hbound := hE.domain_subset hsubset
    -- what expansion comes to from these bindings, unification may come to
    have hunify : ∀ o, (matched.domain.foldlM
        ((c.hierarchy base).expandTo u.free f (u.free.length + 1) []) E : Outcomes Bindings) o →
        (c.hierarchy base).unify u.free f As Bs o := fun o ho => by
      rw [hbinds.domain] at ho
      exact Outcomes.bind_some (x := Bindings.matching u.free As Bs) hE ho
    refine watches_bind (watches_foldlM_simulates u.free
      ((c.hierarchy base).expandTo u.free f (u.free.length + 1) [])
      fun p _ τ us g' hgrow hkeeps hext' => ?_) ?_ ?_
    · rw [← hvisiting, ← hkeeps.visiting]
      exact watches_expandTo_simulates hc (hbase.trans hgrow) (hclosure.grow hgrow)
        (exists_unfolds_of_extends ⟨_, hbinds.unfolds⟩ hgrow hext')
    · intro τ us cut g' hgrow hkeeps hsimulates
      refine watches_lift_bind (Engine.Settles.report (P := fun _ vs cut => vs = us ∧ cut = false)
        c _ ⟨rfl, rfl⟩) ?_
      rintro _ _ _ - ⟨rfl, rfl⟩
      refine .pure fun cut' hcut => ?_
      exact (hsimulates.included (Bool.or_eq_false_iff.1 hcut).1 E hbound hbinds).mono hunify
        fun _ _ => And.right
    · intro e us cut cut' hsimulates hcut
      exact hunify none (hsimulates.included (Bool.or_eq_false_iff.1 hcut).1 E hbound hbinds)

end

end Unifier

end Generics
