import Generics.Proofs.Conduct.Resolving
import Generics.Proofs.Growth.Calls

/-!
# Guards are balanced

Every walk of the engine leaves each key that it enters, on every path: where it is refused, where it
comes back to a key, where a search stops at its first hit, and where it fails.  So a guard is given
back visiting what it was visiting before, however the walk ends, and no call ever leaves a key that
is not being visited or gives up a guard that still visits one.
-/

namespace Generics

/-- From every guard and session, `m` gives the guard back visiting what it visited before, at the
same depth, and no guard is misused on the way. -/
def Guard.Balanced {κ α : Type} (m : StateT (Guard κ) Engine α) : Prop :=
  ∀ (g : Guard κ) (s : Session), (m.run g s).1.2.visiting = g.visiting ∧
    (m.run g s).1.2.depth = g.depth ∧ (m.run g s).2.faults = s.faults

theorem Conduct.balanced {κ α : Type} {m : StateT (Guard κ) Engine α} {P : α → Prop}
    (hm : (guarded κ).Ensures m P) : Guard.Balanced m := by
  intro g s
  obtain ⟨⟨-, hkeeps⟩, hfaults⟩ := faults_eq (run hm g) s
  exact ⟨hkeeps.visiting, hkeeps.depth, hfaults⟩

/-- No call misuses a guard. -/
theorem Call.obeys_perform (c : Catalog) (call : Call) : Conduct.engine.Obeys (call.perform c) := by
  cases call with
  | instantiate t σ => exact Conduct.obeys_discard (Conduct.instantiate c t σ)
  | supertypes t => exact Conduct.obeys_discard (Conduct.supertypes c t)
  | isAssignable target source =>
    exact Conduct.obeys_discard (Conduct.isAssignable c target source)
  | construct d args => exact Conduct.obeys_discard (Conduct.construct c d args)
  | unify limits u patterns concretes =>
    exact Conduct.obeys_discard (Conduct.runUnify c limits u patterns concretes)
  | close k abstraction found =>
    exact Conduct.obeys_discard (Conduct.engine.run_except (Conduct.close c k abstraction found))
  | resolve r => exact Conduct.obeys_discard (Conduct.resolve c r)
  | closedImplementation abstraction implementation =>
    exact Conduct.obeys_discard (Conduct.closedImplementation c abstraction implementation)
  | servesEveryInstance abstraction implementation =>
    exact Conduct.obeys_discard (Conduct.servesEveryInstance c abstraction implementation)
  | getOrResolve k abstraction implementation =>
    exact Conduct.obeys_discard (Conduct.getOrResolve c k abstraction implementation)

/-- No series of calls misuses a guard. -/
theorem Store.faults_of_steps {s s' : Store} (h : Relation.ReflTransGen Store.Step s s') :
    s'.session.faults = s.session.faults := by
  induction h with
  | refl => rfl
  | @tail b _ _ hstep ih =>
    obtain ⟨call, -, rfl⟩ := hstep
    exact (Conduct.faults_eq (call.obeys_perform b.catalog) b.session).2.trans ih

/-- Guards are balanced: the walk through supertypes, comparisons, the search for a violated
requirement and unification give back whatever guard they are run under, and no call of the engine,
however it ends, notes a fault. -/
theorem guards_balanced (c : Catalog) :
    (∀ (n : Nat) (w : Climb) (t : TypeId) (s : Session),
      (Engine.climb c n w t s).1.guard.visiting = w.guard.visiting ∧
      (Engine.climb c n w t s).1.guard.depth = w.guard.depth ∧
      (Engine.climb c n w t s).2.faults = s.faults) ∧
    (∀ n target source, Guard.Balanced (Comparison.acceptsTo c n target source)) ∧
    (∀ (σ : Substitution) (rs : List Requirement),
      Guard.Balanced (rs.findSomeM? (Comparison.violation? c σ))) ∧
    (∀ u patterns concretes, Guard.Balanced (Unifier.unify c u patterns concretes).run) ∧
    (∀ (call : Call) (s : Session), (call.perform c s).2.faults = s.faults) := by
  refine ⟨fun n w t s => ?_, fun n target source => ?_, fun σ rs => ?_, fun u ps cs => ?_,
    fun call s => ?_⟩
  · obtain ⟨hkeeps, hfaults⟩ := Conduct.faults_eq (Conduct.climb c n w t) s
    exact ⟨hkeeps.visiting, hkeeps.depth, hfaults⟩
  · exact Conduct.balanced (Conduct.acceptsTo c n target source)
  · exact Conduct.balanced (Conduct.comparing.findSomeM? (Conduct.violation? c σ))
  · exact Conduct.balanced ((Conduct.guarded Param).run_except (Conduct.unify c u ps cs))
  · exact (Conduct.faults_eq (call.obeys_perform c) s).2

end Generics
