import Generics.Proofs.Inference
import Generics.Proofs.Visits

/-!
# Limits are a pure cutoff

The limits of a guard are read where a walk asks to go on, and nowhere else.  So two unifications that
differ in their limits run alike until the tighter limits refuse a step, and then that one ends.  As
long as it is not refused, what it answers and what it leaves behind is the same under all larger limits,
and it is not refused if they admit every free parameter.
-/

namespace Generics

/-- Limits are larger if they admit as much depth and as many steps. -/
instance : LE Limits where
  le limits limits' :=
    limits.maxDepth ≤ limits'.maxDepth ∧ limits.maxIterations ≤ limits'.maxIterations

namespace Guard

variable {κ : Type} [DecidableEq κ] {limits limits' : Limits}

/-- The same guard with other limits. -/
def within (g : Guard κ) (limits : Limits) : Guard κ := { g with limits }

/-- A guard that refuses nothing answers as it would within larger limits. -/
theorem enter_within (hle : limits ≤ limits') (g : Guard κ) (key : κ) :
    ((g.within limits).enter key).1 = .tooLong ∨ ((g.within limits).enter key).1 = .tooDeep ∨
    ∃ (e : Entry) (g' : Guard κ), (g.within limits).enter key = (e, g'.within limits) ∧
      (g.within limits').enter key = (e, g'.within limits') := by
  have hsteps : limits.maxIterations.toNat ≤ limits'.maxIterations.toNat := hle.2
  have hdepth : limits.maxDepth.toNat ≤ limits'.maxDepth.toNat := hle.1
  rcases enter_cases (g.within limits) key with
    ⟨-, heq⟩ | ⟨hcount, hmem, heq⟩ | ⟨-, -, -, heq⟩ | ⟨hcount, hnew, hroom, heq⟩
  · exact .inl (congrArg Prod.fst heq)
  · refine .inr (.inr ⟨.cycle, g.counted, heq, ?_⟩)
    rcases enter_cases (g.within limits') key with ⟨hlong, -⟩ | ⟨-, -, heq'⟩ | ⟨-, hnew, -⟩ |
      ⟨-, hnew, -⟩
    · exact absurd (Nat.le_trans hcount hsteps) (Nat.not_le_of_lt hlong)
    · exact heq'
    · exact absurd hmem hnew
    · exact absurd hmem hnew
  · exact .inr (.inl (congrArg Prod.fst heq))
  · refine .inr (.inr ⟨.entered,
      { g.counted with visiting := key :: g.visiting, depth := g.depth + 1 }, heq, ?_⟩)
    rcases enter_cases (g.within limits') key with ⟨hlong, -⟩ | ⟨-, hmem, -⟩ | ⟨-, -, hdeep, -⟩ |
      ⟨-, -, -, heq'⟩
    · exact absurd (Nat.le_trans hcount hsteps) (Nat.not_le_of_lt hlong)
    · exact absurd hmem hnew
    · exact absurd (Nat.lt_of_lt_of_le hroom hdepth) (Nat.not_lt_of_le hdeep)
    · exact heq'

theorem leave_within (g : Guard κ) (key : κ) (limits : Limits) :
    (g.within limits).leave key = (g.leave key).map (within · limits) := by
  unfold leave
  split
  · rename_i hmem
    rw [if_pos (show key ∈ g.visiting from hmem)]
    rfl
  · rename_i hmem
    rw [if_neg (show key ∉ g.visiting from hmem)]
    rfl

end Guard

/-- Leaving a key does not depend on limits. -/
theorem Engine.leave_within {κ : Type} [DecidableEq κ] (g : Guard κ) (key : κ) (limits : Limits)
    (s : Session) :
    leave (g.within limits) key s = ((leave g key s).1.within limits, (leave g key s).2) := by
  unfold leave
  rw [Guard.leave_within]
  cases g.leave key <;> rfl

namespace Conduct

variable {α : Type} {limits limits' : Limits} {P : α → Prop}

/-- Unifiers that run within `limits'` as they do within `limits`, unless they end in a refusal there. -/
def cutoff (limits limits' : Limits) : Conduct Unifier where
  Ensures m P := ∀ (g : Guard Param) s,
    (m.run.run (g.within limits) s).1.1 = .error .limitExceeded ∨
    ∃ r g' s', m.run.run (g.within limits) s = ((r, Guard.within g' limits), s') ∧
      m.run.run (g.within limits') s = ((r, Guard.within g' limits'), s') ∧ ∀ a, r = .ok a → P a
  pure {α a P} h g s := .inr ⟨.ok a, g, s, rfl, rfl, fun _ heq => Except.ok.inj heq ▸ h⟩
  bind {α β m f P Q} hm hf g s := by
    rw [ExceptT.run_bind, StateT.run_bind, StateT.run_bind, Engine.bind_apply, Engine.bind_apply]
    rcases hm g s with hrefused | ⟨r, g', s', hrun, hrun', hP⟩
    · left
      rcases hrun : m.run.run (g.within limits) s with ⟨⟨r, g'⟩, s'⟩
      rw [hrun] at hrefused
      obtain rfl : r = .error .limitExceeded := hrefused
      rfl
    · rw [hrun, hrun']
      cases r with
      | ok a => exact hf a (hP a rfl) g' s'
      | error e => exact .inr ⟨.error e, g', s', rfl, rfl, nofun⟩

theorem lenient_cutoff (limits limits' : Limits) : (cutoff limits limits').Lenient where
  lift {_ m} _ g s := .inr ⟨.ok (m s).1, g, (m s).2, rfl, rfl, fun _ _ => trivial⟩
  throw e g s := .inr ⟨.error e, g, s, rfl, rfl, nofun⟩

theorem visiting_cutoff (p : Param) {m : Unifier α} (hm : (cutoff limits limits').Ensures m P) :
    (cutoff limits limits').Ensures (Unifier.visiting p m) P := by
  intro g s
  rcases hm g s with hrefused | ⟨r, g', s', hrun, hrun', hP⟩
  · exact .inl hrefused
  · have hvisiting : ∀ l : Limits, m.run.run (g.within l) s = ((r, Guard.within g' l), s') →
        (Unifier.visiting p m).run.run (g.within l) s =
          ((r, (Engine.leave g' p s').1.within l), (Engine.leave g' p s').2) := by
      intro l hrun
      change (m.run.run (g.within l) >>= fun r => do
        let left ← Engine.leave r.2 p
        pure (r.1, left) : Engine _) s = _
      rw [Engine.bind_apply, hrun, Engine.bind_apply, Engine.leave_within]
      rfl
    exact .inr ⟨r, _, _, hvisiting limits hrun, hvisiting limits' hrun', hP⟩

/-- Only here the limits are read. -/
theorem enter_bind_cutoff (hle : limits ≤ limits') {p : Param} {f : Entry → Unifier α}
    (hrefused : f .tooDeep = MonadExcept.throw UnifyError.limitExceeded ∧
      f .tooLong = MonadExcept.throw UnifyError.limitExceeded)
    (hf : ∀ e, (cutoff limits limits').Ensures (f e) P) :
    (cutoff limits limits').Ensures (Unifier.enter p >>= f) P := by
  intro g s
  change ((f ((g.within limits).enter p).1).run.run ((g.within limits).enter p).2 s).1.1 = _ ∨
    ∃ r g' s', (f ((g.within limits).enter p).1).run.run ((g.within limits).enter p).2 s = _ ∧
      (f ((g.within limits').enter p).1).run.run ((g.within limits').enter p).2 s = _ ∧ _
  rcases Guard.enter_within hle g p with hlong | hdeep | ⟨e, g', heq, heq'⟩
  · left
    rw [hlong, hrefused.2]
    rfl
  · left
    rw [hdeep, hrefused.1]
    rfl
  · rw [heq, heq']
    exact hf e g' s

theorem expandTo_cutoff (hle : limits ≤ limits') (c : Catalog) (u : Unknowns) (n : Nat)
    (σ : Substitution) (p : Param) :
    (cutoff limits limits').Obeys (Unifier.expandTo c u n σ p) := by
  have hlenient := lenient_cutoff limits limits'
  induction n generalizing σ p with
  | zero => exact hlenient.throw _
  | succ n ih =>
    refine enter_bind_cutoff hle ⟨rfl, rfl⟩ fun e => ?_
    cases e with
    | entered => exact visiting_cutoff p (hlenient.expandEach ih σ p)
    | cycle => exact (cutoff limits limits').pure trivial
    | tooDeep => exact hlenient.throw _
    | tooLong => exact hlenient.throw _

theorem unify_cutoff (hle : limits ≤ limits') (c : Catalog) (u : Unknowns)
    (patterns concretes : List TypeId) :
    (cutoff limits limits').Obeys (Unifier.unify c u patterns concretes) :=
  (lenient_cutoff limits limits').unify (expandTo_cutoff hle c u) patterns concretes

/-- A guard of one's own is given up in the same way, whatever its limits. -/
theorem runFresh_cutoff {m : Unifier α} (hm : (cutoff limits limits').Obeys m) {s : Session}
    (hanswer : (Unifier.runFresh limits m s).1 ≠ .error .limitExceeded) :
    Unifier.runFresh limits' m s = Unifier.runFresh limits m s := by
  rcases hm { limits } s with hrefused | ⟨r, g', s', hrun, hrun', -⟩
  · exact absurd hrefused hanswer
  · have hfresh : ∀ l : Limits, m.run.run (Guard.within { limits } l) s = ((r, Guard.within g' l), s') →
        Unifier.runFresh l m s = (r, (Engine.retire g' s').2) := by
      intro l hrun
      change (m.run.run (Guard.within { limits } l) >>= fun r => do
        Engine.retire r.2
        pure r.1 : Engine _) s = _
      rw [Engine.bind_apply, hrun]
      rfl
    rw [hfresh limits hrun, hfresh limits' hrun']

end Conduct

/-! ## Visits and limits -/

/-- Unification asks its guard about each parameter once at most, about free ones only, and the guard is
visiting none of those.  So limits that admit every free parameter are never exceeded; and unless they
are, all larger limits lead to the same answer and the same session. -/
theorem unify_visits_once (c : Catalog) (u : Unknowns) (limits : Limits) (s : Session)
    (patterns concretes : List TypeId) :
    ∃ (answer : Except UnifyError Substitution) (record : Record) (guard : Guard Param) (s' : Session),
      ((Recorder.unify c u patterns concretes).run.run []).run { limits } s =
        (((answer, record), guard), s') ∧
      (Unifier.unify c u patterns concretes).run.run { limits } s = ((answer, guard), s') ∧
      guard.iterations = min record.length Guard.maxCount ∧
      (record.map Prod.fst).Nodup ∧ (∀ e ∈ record, e.1 ∈ u.free ∧ e.2 ≠ .cycle) ∧
      record.length ≤ u.free.toFinset.card ∧
      (Unifier.runFresh limits (Unifier.unify c u patterns concretes) s).1 = answer ∧
      (u.free.toFinset.card ≤ limits.maxDepth.toNat →
        u.free.toFinset.card ≤ limits.maxIterations.toNat → answer ≠ .error .limitExceeded) ∧
      (answer ≠ .error .limitExceeded → ∀ limits', limits ≤ limits' →
        Unifier.runFresh limits' (Unifier.unify c u patterns concretes) s =
          Unifier.runFresh limits (Unifier.unify c u patterns concretes) s) := by
  obtain ⟨answer, record, guard, s', hrun, houtcome⟩ :=
    Recorder.ends_unify c u limits patterns concretes s
  have hplain : (Unifier.unify c u patterns concretes).run.run { limits } s =
      ((answer, guard), s') := by
    rw [← Recorder.Erases.unify c u patterns concretes [], StateT.run_map, Engine.map_apply, hrun]
  have hfresh : (Unifier.runFresh limits (Unifier.unify c u patterns concretes) s).1 = answer := by
    change ((Unifier.unify c u patterns concretes).run.run { limits } s).1.1 = answer
    rw [hplain]
  obtain ⟨υ, hprogress⟩ : ∃ υ, Recorder.Progress u.free [] .empty [] { limits } υ record guard := by
    cases answer with
    | ok σ => exact ⟨σ, houtcome⟩
    | error e => exact houtcome.progress
  obtain ⟨hproper, hcounts⟩ := And.intro hprogress.proper hprogress.counts
  refine ⟨answer, record, guard, s', hrun, hplain, hcounts.iterations, hproper.once,
    fun e he => ⟨?_, hproper.acyclic e he⟩, hproper.length_le, hfresh, fun hdepth hsteps => ?_,
    fun hanswer limits' hle => ?_⟩
  · exact hproper.free (hproper.bound (List.mem_map_of_mem he))
  · rintro rfl
    exact houtcome.refused rfl ⟨hdepth, hsteps⟩
  · exact Conduct.runFresh_cutoff (Conduct.unify_cutoff hle c u patterns concretes) (hfresh ▸ hanswer)

namespace CycleSample

/-- The three parameters of `D`. -/
def unknowns : Unknowns := ⟨[⟨⟨3⟩, 0⟩, ⟨⟨3⟩, 1⟩, ⟨⟨3⟩, 2⟩], .empty⟩

/-- The constraints of `D` lead from `T` to `U`, from there to `V`, and back to `T`.  Each expansion is
part of the one before, so a depth of two is not enough; three is, and then no limits give more. -/
theorem unify_visits_once_cycle :
    (Unifier.runFresh ⟨2, 3⟩ (Unifier.unify catalog unknowns [⟨0⟩] [⟨7⟩]) session).1 =
      .error .limitExceeded ∧
    (Unifier.runFresh ⟨3, 3⟩ (Unifier.unify catalog unknowns [⟨0⟩] [⟨7⟩]) session).1 ≠
      .error .limitExceeded ∧
    Unifier.runFresh .unification (Unifier.unify catalog unknowns [⟨0⟩] [⟨7⟩]) session =
      Unifier.runFresh ⟨3, 3⟩ (Unifier.unify catalog unknowns [⟨0⟩] [⟨7⟩]) session := by
  obtain ⟨answer, _, _, _, -, -, -, -, -, -, hanswer, hadmitted, hcutoff⟩ :=
    unify_visits_once catalog unknowns ⟨3, 3⟩ session [⟨0⟩] [⟨7⟩]
  have hcard : unknowns.free.toFinset.card = 3 := by decide +kernel
  have hnot : answer ≠ .error .limitExceeded := hadmitted (by rw [hcard]; decide) (by rw [hcard]; decide)
  exact ⟨by decide +kernel, hanswer ▸ hnot, hcutoff hnot .unification ⟨by decide, by decide⟩⟩

end CycleSample

end Generics
