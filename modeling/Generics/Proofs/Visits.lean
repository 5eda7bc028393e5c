import Generics.Proofs.ExactMatching
import Generics.Proofs.Promises
import Generics.Proofs.Recording
import Mathlib.Data.Finset.Card

/-!
# Expansion visits each parameter once

A parameter is expanded when it is bound, and it is bound once.  So whatever the constraints look like,
the guard is asked about no parameter twice, and it never meets one that it is visiting.  As all of them
are free, there are no more questions than free parameters, and a guard whose limits are as large lets
every one of them in.
-/

namespace Generics

/-! ## Records -/

namespace Record

variable {free : List Param} {σ τ : Substitution} {record record' : Record} {g g' : Guard Param}
  {p : Param} {e : Entry}

/-- The parameters that the guard was asked about. -/
def asked (record : Record) : List Param := record.map Prod.fst

theorem asked_append (record record' : Record) :
    asked (record ++ record') = asked record ++ asked record' :=
  List.map_append

theorem asked_subset (h : record <+: record') : asked record ⊆ asked record' :=
  (h.map Prod.fst).subset

/-- The guard was asked once about each of some free parameters that `σ` binds, and it was visiting
none of them. -/
structure Proper (free : List Param) (σ : Substitution) (record : Record) : Prop where
  once : (asked record).Nodup
  bound : asked record ⊆ σ.domain
  acyclic : ∀ e ∈ record, e.2 ≠ .cycle
  nodup : σ.domain.Nodup
  free : σ.domain ⊆ free

/-- The guard visits what it was asked about, and has counted the questions. -/
structure Counts (record : Record) (g : Guard Param) : Prop where
  visiting : g.visiting ⊆ asked record
  depth : g.depth ≤ record.length
  iterations : g.iterations = min record.length Guard.maxCount

namespace Proper

theorem append (h : Proper free σ record) (happends : σ.Appends free τ) : Proper free τ record where
  once := h.once
  bound := List.Subset.trans h.bound happends.domain.subset
  acyclic := h.acyclic
  nodup := happends.nodup h.nodup
  free _ hp := (happends.mem_domain_cases hp).elim (fun hσ => h.free hσ) id

/-- There are no more questions than free parameters. -/
theorem length_le (h : Proper free σ record) : record.length ≤ free.toFinset.card := by
  have hlength : (asked record).toFinset.card = record.length := by
    rw [List.toFinset_card_of_nodup h.once, asked, List.length_map]
  rw [← hlength]
  refine Finset.card_le_card fun p hp => ?_
  rw [List.mem_toFinset] at hp ⊢
  exact h.free (h.bound hp)

theorem ask (h : Proper free σ record) (hp : p ∈ σ.domain) (hnew : p ∉ asked record)
    (he : e ≠ .cycle) : Proper free σ (record ++ [(p, e)]) where
  once := by
    rw [asked_append]
    exact h.once.append (List.nodup_singleton p) (by simpa [asked] using hnew)
  bound q hq := by
    rw [asked_append, List.mem_append] at hq
    exact hq.elim (fun hq => h.bound hq) fun hq => List.mem_singleton.1 hq ▸ hp
  acyclic e' he' := by
    rcases List.mem_append.1 he' with he' | he'
    · exact h.acyclic e' he'
    · exact List.mem_singleton.1 he' ▸ he
  nodup := h.nodup
  free := h.free

end Proper

namespace Counts

/-- A question about `p`, whatever the answer. -/
theorem ask (h : Counts record g) (henter : g.enter p = (e, g')) :
    Counts (record ++ [(p, e)]) g' := by
  obtain ⟨hiterations, hdepth, hvisiting⟩ := Guard.of_enter henter
  have hlength : (record ++ [(p, e)]).length = record.length + 1 := List.length_append
  refine ⟨List.Subset.trans hvisiting ?_, ?_, ?_⟩
  · rw [asked_append]
    exact List.cons_subset.2 ⟨List.mem_append_right _ (List.mem_singleton_self p),
      List.Subset.trans h.visiting (List.subset_append_left ..)⟩
  · rw [hlength]
    exact Nat.le_trans hdepth (Nat.succ_le_succ h.depth)
  · rw [hiterations, h.iterations, hlength]
    omega

end Counts

end Record

/-- The limits leave room for `n` visits, one within the other. -/
def Limits.Admit (limits : Limits) (n : Nat) : Prop :=
  n ≤ limits.maxDepth.toNat ∧ n ≤ limits.maxIterations.toNat

namespace Recorder

/-! ## Walks -/

section

variable {free ps qs : List Param} {σ τ υ : Substitution} {record record' record'' : Record}
  {g g' g'' : Guard Param} {p : Param} {e : UnifyError} {m : Recorder Substitution}

/-- What has become of `σ`, the record and the guard in a walk over `ps`: the guard was asked about some
of `ps`, and about others only after they were bound. -/
structure Progress (free ps : List Param) (σ : Substitution) (record : Record) (g : Guard Param)
    (υ : Substitution) (record' : Record) (g' : Guard Param) : Prop where
  appends : σ.Appends free υ
  proper : record'.Proper free υ
  counts : record'.Counts g'
  longer : record <+: record'
  keeps : g.Keeps g'
  asked : ∀ p ∈ record'.asked, p ∈ record.asked ∨ p ∈ ps ∨ p ∉ σ.domain

/-- A walk that has failed was well under way, and the limits are not to blame if they admit every free
parameter. -/
structure Setback (free ps : List Param) (σ : Substitution) (record : Record) (g : Guard Param)
    (e : UnifyError) (record' : Record) (g' : Guard Param) : Prop where
  progress : ∃ υ, Progress free ps σ record g υ record' g'
  refused : e = .limitExceeded → ¬g.limits.Admit free.toFinset.card

/-- `m` walks over `ps`. -/
abbrev Walks (free : List Param) (m : Recorder Substitution) (ps : List Param) (σ : Substitution)
    (record : Record) (g : Guard Param) : Prop :=
  Ends m record g (Progress free ps σ record g) (Setback free ps σ record g)

namespace Progress

theorem refl (hproper : record.Proper free σ) (hcounts : record.Counts g) :
    Progress free ps σ record g σ record g where
  appends := .refl ..
  proper := hproper
  counts := hcounts
  longer := List.prefix_rfl
  keeps := .refl g
  asked _ := .inl

theorem append (h : Progress free ps σ record g υ record' g') (hτ : υ.Appends free τ) :
    Progress free ps σ record g τ record' g' :=
  { h with
    appends := h.appends.trans hτ
    proper := h.proper.append hτ }

/-- A walk that goes on over parameters that it started with or has bound. -/
theorem trans (h : Progress free ps σ record g υ record' g')
    (h' : Progress free qs υ record' g' τ record'' g'') (hqs : ∀ q ∈ qs, q ∈ ps ∨ q ∉ σ.domain) :
    Progress free ps σ record g τ record'' g'' where
  appends := h.appends.trans h'.appends
  proper := h'.proper
  counts := h'.counts
  longer := h.longer.trans h'.longer
  keeps := h.keeps.trans h'.keeps
  asked p hp := by
    rcases h'.asked p hp with hp | hp | hp
    · exact h.asked p hp
    · exact .inr (hqs p hp)
    · exact .inr (.inr fun hσ => hp (h.appends.domain.subset hσ))

theorem setback (h : Progress free ps σ record g υ record' g')
    (h' : Setback free qs υ record' g' e record'' g'') (hqs : ∀ q ∈ qs, q ∈ ps ∨ q ∉ σ.domain) :
    Setback free ps σ record g e record'' g'' where
  progress := h'.progress.imp fun _ hτ => h.trans hτ hqs
  refused := h.keeps.limits ▸ h'.refused

theorem walks (h : Progress free ps σ record g υ record' g') (hm : Walks free m qs υ record' g')
    (hqs : ∀ q ∈ qs, q ∈ ps ∨ q ∉ σ.domain) :
    Ends m record' g' (Progress free ps σ record g) (Setback free ps σ record g) :=
  hm.mono (fun _ _ _ h' => h.trans h' hqs) fun _ _ _ h' => h.setback h' hqs

/-- A question about `p` that does not let it in. -/
theorem ask {e : Entry} (hproper : Record.Proper free σ (record ++ [(p, e)]))
    (hcounts : Record.Counts (record ++ [(p, e)]) g') (henter : g.enter p = (e, g'))
    (he : e ≠ .entered) :
    Progress free [p] σ record g σ (record ++ [(p, e)]) g' where
  appends := .refl ..
  proper := hproper
  counts := hcounts
  longer := List.prefix_append ..
  keeps := (Guard.of_enter_ne_entered henter he).1
  asked q hq := by
    rw [Record.asked_append, List.mem_append] at hq
    exact hq.imp id .inl

/-- A walk that has entered `p` may leave it, and has then walked over `p`. -/
theorem leave (h : Progress free [] σ (record ++ [(p, .entered)]) g' υ record' g'')
    (hcounts : record.Counts g) (henter : g.enter p = (.entered, g')) :
    ∃ left, g''.leave p = .ok left ∧ Progress free [p] σ record g υ record' left := by
  obtain ⟨left, hleave, hkeeps, -⟩ := Guard.exists_leave_eq_ok henter h.keeps
  have hlonger : record <+: record' := (List.prefix_append ..).trans h.longer
  refine ⟨left, hleave, h.appends, h.proper, ⟨?_, ?_, ?_⟩, hlonger, hkeeps, fun q hq => ?_⟩
  · rw [hkeeps.visiting]
    exact List.Subset.trans hcounts.visiting (Record.asked_subset hlonger)
  · rw [hkeeps.depth]
    exact Nat.le_trans hcounts.depth hlonger.length_le
  · rw [Guard.leave_iterations hleave]
    exact h.counts.iterations
  · rcases h.asked q hq with hq | hq | hq
    · rw [Record.asked_append, List.mem_append] at hq
      exact hq.imp id .inl
    · cases hq
    · exact .inr (.inr hq)

end Progress

/-- From wherever the record has become longer than `base`, `expand` walks over any bound parameter that
the guard was not asked about. -/
def Expands (free : List Param) (base : Record) (expand : Substitution → Param → Recorder Substitution) :
    Prop :=
  ∀ σ (record : Record) g p, base <+: record → record.Proper free σ → record.Counts g →
    p ∈ σ.domain → p ∉ record.asked → Walks free (expand σ p) [p] σ record g

variable {base : Record} {expand : Substitution → Param → Recorder Substitution}

/-- Bound parameters that the guard was not asked about are expanded in turn: the guard is asked about
none of them while it is not their turn, since they were bound before. -/
theorem Expands.foldlM (hexpand : Expands free base expand) (hbase : base <+: record)
    (hproper : record.Proper free σ) (hcounts : record.Counts g) (hnodup : ps.Nodup)
    (hps : ∀ p ∈ ps, p ∈ σ.domain ∧ p ∉ record.asked) :
    Walks free (ps.foldlM expand σ) ps σ record g := by
  refine (Ends.foldlM (I := fun rest υ record' g' => Progress free ps σ record g υ record' g' ∧
    rest.Nodup ∧ rest ⊆ ps ∧ ∀ p ∈ rest, p ∉ record'.asked) (fun p rest υ record' g' h => ?_)
    ⟨.refl hproper hcounts, hnodup, List.Subset.refl ps, fun p hp => (hps p hp).2⟩).mono
    (fun _ _ _ h => h.1) fun _ _ _ => id
  obtain ⟨hprogress, hnodup, hsubset, hnew⟩ := h
  obtain ⟨hp, hrest⟩ := List.cons_subset.1 hsubset
  have hturn : ∀ q ∈ [p], q ∈ ps ∨ q ∉ σ.domain := fun q hq => .inl (List.mem_singleton.1 hq ▸ hp)
  have hbound := hprogress.appends.domain.subset
  refine (hexpand υ record' g' p (hbase.trans hprogress.longer) hprogress.proper hprogress.counts
    (hbound (hps p hp).1) (hnew p (List.mem_cons_self ..))).mono
    (fun τ _ _ h => ⟨hprogress.trans h hturn, hnodup.of_cons, hrest, fun q hq hasked => ?_⟩)
    fun _ _ _ h => hprogress.setback h hturn
  rcases h.asked q hasked with hasked | hasked | hunbound
  · exact hnew q (List.mem_cons_of_mem p hq) hasked
  · exact (List.nodup_cons.1 hnodup).1 (List.mem_singleton.1 hasked ▸ hq)
  · exact hunbound (hbound (hps q (hrest hq)).1)

end

/-! ## The expansion of constraints -/

variable {c : Catalog} {u : Unknowns} {σ : Substitution} {record base : Record} {g g' : Guard Param}
  {p : Param} {expand : Substitution → Param → Recorder Substitution}

/-- Inference asks the guard nothing, and no limit stops it. -/
theorem Ends.infer_bind {β : Type} {f : Substitution → Recorder β} {k bound : TypeId}
    {Q : β → Record → Guard Param → Prop} {E : UnifyError → Record → Guard Param → Prop}
    (hf : ∀ τ, σ.Appends u.free τ → Ends (f τ) record g Q E)
    (hE : ∀ e, e ≠ .limitExceeded → E e record g) :
    Ends (Recorder.unasked (Unifier.infer c u p k bound σ) >>= f) record g Q E := by
  refine bind (P := fun τ record' g' => record' = record ∧ g' = g ∧ σ.Appends u.free τ)
    (unasked (fun s => ?_) fun s => ?_) fun τ _ _ ⟨hrecord, hg, hτ⟩ => hrecord ▸ hg ▸ hf τ hτ
  · have hsame := (Conduct.lenient_unifyingBy fun _ g' => g' = g).infer c u p k bound σ g g rfl
    exact (Conduct.faults_eq hsame s).1.2
  · have hinfer : Conduct.Outcome (· ≠ .limitExceeded) (σ.Appends u.free)
        ((Unifier.infer c u p k bound σ).run.run g s).1.1 :=
      Conduct.outcomes_infer (fun _ _ _ => nofun) k bound g s
    cases hanswer : ((Unifier.infer c u p k bound σ).run.run g s).1.1 with
    | ok τ => exact ⟨rfl, rfl, by rw [hanswer] at hinfer; exact hinfer⟩
    | error e => exact hE e (by rw [hanswer] at hinfer; exact hinfer)

/-- The constraints of one parameter. -/
theorem Expands.expandEach (hexpand : Expands u.free record expand) (hproper : record.Proper u.free σ)
    (hcounts : record.Counts g) : Walks u.free (expandEach c u expand σ p) [] σ record g := by
  refine Ends.lift_bind fun _ => ?_
  split
  · refine Ends.foldlM (I := fun _ => Progress u.free [] σ record g)
      (fun k _ υ record' g' hprogress => ?_) (.refl hproper hcounts)
    refine Ends.lift_bind fun _ => Ends.lift_bind fun _ => ?_
    split
    · refine Ends.infer_bind (fun τ hτ => ?_) fun e he => ⟨⟨υ, hprogress⟩, fun heq => absurd heq he⟩
      obtain ⟨hnodup, hnew⟩ := hτ.drop_domain
      have hprogress' := hprogress.append hτ
      refine hprogress'.walks (hexpand.foldlM hprogress.longer hprogress'.proper hprogress'.counts
        hnodup fun q hq => ⟨(hnew q hq).1, fun hasked => ?_⟩) fun q hq => .inr fun hσ => ?_
      · exact (hnew q hq).2 (hprogress.proper.bound hasked)
      · exact (hnew q hq).2 (hprogress.appends.domain.subset hσ)
    · exact Ends.pure hprogress
  · exact Ends.pure (.refl hproper hcounts)

/-- A guard that does not let a parameter in has a limit that does not admit every free parameter. -/
theorem not_admit_of_refused {free : List Param} {e : Entry}
    (hproper : Record.Proper free σ (record ++ [(p, e)])) (hcounts : record.Counts g)
    (henter : g.enter p = (e, g')) (he : e = .tooDeep ∨ e = .tooLong) :
    ¬g.limits.Admit free.toFinset.card := by
  rintro ⟨hdepth, hsteps⟩
  have hlength := hproper.length_le
  rw [List.length_append, List.length_singleton] at hlength
  have hcounted : g.counted.iterations ≤ record.length + 1 := by
    change min (g.iterations + 1) Guard.maxCount ≤ _
    rw [hcounts.iterations]
    omega
  have := hcounts.depth
  rcases Guard.enter_cases g p with ⟨hlong, -⟩ | ⟨-, -, heq⟩ | ⟨-, -, hdeep, -⟩ | ⟨-, -, -, heq⟩
  · omega
  · obtain ⟨rfl, -⟩ := Prod.mk.inj (henter.symm.trans heq)
    simp at he
  · omega
  · obtain ⟨rfl, -⟩ := Prod.mk.inj (henter.symm.trans heq)
    simp at he

/-- The expansion of a parameter.  Each visit takes one from the free parameters that the guard was not
asked about, and so the fuel lasts. -/
theorem expands_expandTo (n : Nat) (hn : View.unsearched u.free base.asked < n) :
    Expands u.free base (expandTo c u n) := by
  induction n generalizing base with
  | zero => exact absurd hn (Nat.not_lt_zero _)
  | succ n ih =>
    intro σ record g p hbase hproper hcounts hp hnew
    rcases henter : g.enter p with ⟨e, g'⟩
    have hne : e ≠ .cycle := fun he => by
      rcases (Guard.of_enter_ne_entered henter (he ▸ nofun)).2 with ⟨-, hmem⟩ | ⟨hne, -⟩
      · exact hnew (hcounts.visiting hmem)
      · exact hne he
    have hproper' := hproper.ask hp hnew hne
    have hcounts' := hcounts.ask henter
    refine Ends.enter_bind henter ?_
    cases e with
    | entered =>
      have hfewer : View.unsearched u.free (Record.asked (record ++ [(p, .entered)])) < n := by
        have hle : View.unsearched u.free record.asked ≤ View.unsearched u.free base.asked :=
          View.unsearched_le u.free (Record.asked_subset hbase)
        have hlt := View.unsearched_cons_lt (hproper.free hp) hnew
        have hsubset : p :: record.asked ⊆ Record.asked (record ++ [(p, .entered)]) := by
          simp [Record.asked]
        have := View.unsearched_le u.free hsubset
        omega
      refine Ends.visiting (((ih hfewer).expandEach hproper' hcounts').mono
        (fun υ _ _ h => h.leave hcounts henter) fun e _ _ h => ?_)
      obtain ⟨υ, hprogress⟩ := h.progress
      obtain ⟨left, hleave, hleft⟩ := hprogress.leave hcounts henter
      have hlimits : g'.limits = g.limits := by
        rw [← hleft.keeps.limits, ← hprogress.keeps.limits, Guard.leave_limits hleave]
      exact ⟨left, hleave, ⟨υ, hleft⟩, hlimits ▸ h.refused⟩
    | cycle => exact absurd rfl hne
    | tooDeep =>
      exact Ends.throw ⟨⟨σ, .ask hproper' hcounts' henter nofun⟩, fun _ =>
        not_admit_of_refused hproper' hcounts henter (.inl rfl)⟩
    | tooLong =>
      exact Ends.throw ⟨⟨σ, .ask hproper' hcounts' henter nofun⟩, fun _ =>
        not_admit_of_refused hproper' hcounts henter (.inr rfl)⟩

/-- Unification matches first and then walks over what it has bound. -/
theorem ends_unify (c : Catalog) (u : Unknowns) (limits : Limits) (patterns concretes : List TypeId) :
    Ends (unify c u patterns concretes) [] { limits }
      (Progress u.free [] .empty [] { limits }) (Setback u.free [] .empty [] { limits }) := by
  have hstart : Record.Proper u.free .empty [] := ⟨.nil, by simp [Record.asked], by simp, .nil, nofun⟩
  have hcounts : Record.Counts [] ({ limits } : Guard Param) :=
    ⟨List.nil_subset _, Nat.le_refl _, rfl⟩
  have hprogress : Progress u.free [] .empty [] { limits } .empty [] { limits } :=
    .refl hstart hcounts
  unfold unify
  split
  · exact Ends.throw ⟨⟨_, hprogress⟩, nofun⟩
  refine Ends.lift_bind fun s => ?_
  cases hmatched : (c.view s.types).matchAll u.free .empty patterns concretes with
  | error e =>
    have hmismatch := View.isMismatch_of_matchAll hmatched
    rw [Engine.query_apply, hmatched]
    exact Ends.throw ⟨⟨_, hprogress⟩, fun he => absurd hmismatch (he ▸ id)⟩
  | ok matched =>
    rw [Engine.query_apply, hmatched]
    have hmatch := hprogress.append (View.appends_matchAll hmatched)
    refine Ends.bind (hmatch.walks ((expands_expandTo _ ?_).foldlM List.prefix_rfl hmatch.proper
      hmatch.counts hmatch.proper.nodup fun p hp => ⟨hp, List.not_mem_nil⟩) fun p _ => .inr ?_)
      fun σ record' g' h => Ends.lift_bind fun _ => Ends.pure h
    · exact Nat.lt_succ_of_le (List.length_filter_le ..)
    · exact List.not_mem_nil

end Recorder

end Generics
