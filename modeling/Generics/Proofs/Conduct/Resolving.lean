import Generics.Cache
import Generics.Proofs.Conduct.Comparing

/-!
# Resolution behaves

Unification leaves each parameter that it expands, whether or not the expansion fails.  So unification
gives its guard back as it was, with an answer and with any error, and a resolution misuses no guard.
-/

namespace Generics

namespace Conduct

variable {c : Catalog} {u : Unknowns} {k : Closing} {r : Request}

/-! ## Unification -/

/-- A conduct of unifiers that asks nothing of the engine but to behave, and that allows every failure. -/
structure Lenient (D : Conduct Unifier) : Prop where
  lift {α : Type} {m : Engine α} (hm : engine.Obeys m) : D.Obeys (monadLift m : Unifier α)
  throw {α : Type} (e : UnifyError) : D.Obeys (MonadExcept.throw e : Unifier α)

namespace Lenient

variable {D : Conduct Unifier}

theorem query (h : D.Lenient) (c : Catalog) {α : Type} (f : View → α) :
    D.Obeys (Unifier.query c f) :=
  h.lift (Conduct.query c f)

theorem infer (h : D.Lenient) (c : Catalog) (u : Unknowns) (p : Param) (t bound : TypeId)
    (σ : Substitution) : D.Obeys (Unifier.infer c u p t bound σ) := by
  refine D.bind (h.query c _) fun node _ => ?_
  split
  · exact D.pure trivial
  · refine D.bind (h.lift (supertypes c bound)) fun above _ => ?_
    refine D.bind (h.query c _) fun supers _ => ?_
    split
    · exact h.throw _
    · exact h.query c _
  · exact D.pure trivial

theorem expandEach (h : D.Lenient) {expand : Substitution → Param → Unifier Substitution}
    (hexpand : ∀ σ p, D.Obeys (expand σ p)) (σ : Substitution) (p : Param) :
    D.Obeys (Unifier.expandEach c u expand σ p) := by
  refine D.bind (h.query c _) fun decl _ => ?_
  split
  · refine D.foldlM (fun σ t _ => ?_) trivial
    refine D.bind (h.lift (instantiate c t u.closure)) fun t _ => ?_
    refine D.bind (h.query c _) fun mentions _ => ?_
    split
    · refine D.bind (h.infer c u p t _ σ) fun τ _ => ?_
      exact D.foldlM (fun σ q _ => hexpand σ q) trivial
    · exact D.pure trivial
  · exact D.pure trivial

theorem unify (h : D.Lenient) (hexpand : ∀ n σ p, D.Obeys (Unifier.expandTo c u n σ p))
    (patterns concretes : List TypeId) : D.Obeys (Unifier.unify c u patterns concretes) := by
  unfold Unifier.unify
  split
  · exact h.throw _
  refine D.bind (h.query c _) fun matched _ => ?_
  split
  · exact h.throw _
  refine D.bind (D.foldlM (fun σ p _ => hexpand _ σ p) trivial) fun σ _ => ?_
  exact D.bind (h.lift (report c _)) fun _ _ => D.pure trivial

end Lenient

theorem Lifts.lenient {D : Conduct (StateT (Guard Param) Engine)} (hD : D.Lifts) :
    (D.except UnifyError).Lenient where
  lift hm := D.lift_except (hD.lift hm)
  throw e := D.throw e

/-- Computations that carry a guard, change it as `R` says, and may fail. -/
abbrev unifyingBy (R : Guard Param → Guard Param → Prop) : Conduct Unifier :=
  (engine.state R).except UnifyError

theorem lenient_unifyingBy (R : Guard Param → Guard Param → Prop) : (unifyingBy R).Lenient :=
  (lifts_state R).lenient

/-- Computations that give their guard back visiting what it visited before, and may fail. -/
abbrev unifying : Conduct Unifier := unifyingBy Guard.Keeps

/-- The expansion of a parameter gives the guard back as it was, whether or not it fails. -/
theorem expandTo (c : Catalog) (u : Unknowns) (n : Nat) (σ : Substitution) (p : Param) :
    unifying.Obeys (Unifier.expandTo c u n σ p) := by
  induction n generalizing σ p with
  | zero => exact (guarded Param).throw _
  | succ n ih =>
    change (guarded Param).Ensures (Unifier.expandTo c u (n + 1) σ p).run
      fun r => ∀ τ, r = .ok τ → True
    refine of_run fun g => ?_
    rw [Unifier.expandTo, ExceptT.run_bind, StateT.run_bind]
    change engine.Ensures (pure (Except.ok (g.enter p).1, (g.enter p).2) >>= _) _
    rw [pure_bind]
    rcases henter : g.enter p with ⟨e, g'⟩
    by_cases he : e = .entered
    · subst he
      exact leave_entered henter
        ((guarded Param).run_except ((lenient_unifyingBy Guard.Keeps).expandEach ih σ p))
    · have hkeeps := (Guard.of_enter_ne_entered henter he).1
      cases e with
      | entered => exact absurd rfl he
      | cycle => exact engine.pure ⟨fun _ _ => trivial, hkeeps⟩
      | tooDeep => exact engine.pure ⟨fun _ _ => trivial, hkeeps⟩
      | tooLong => exact engine.pure ⟨fun _ _ => trivial, hkeeps⟩

/-- Unification gives its guard back as it was, with an answer and with any error. -/
theorem unify (c : Catalog) (u : Unknowns) (patterns concretes : List TypeId) :
    unifying.Obeys (Unifier.unify c u patterns concretes) :=
  (lenient_unifyingBy Guard.Keeps).unify (expandTo c u) patterns concretes

theorem runUnify (c : Catalog) (limits : Limits) (u : Unknowns) (patterns concretes : List TypeId) :
    engine.Obeys (Unifier.runFresh limits (Unifier.unify c u patterns concretes)) :=
  engine.mono (runFresh limits ((guarded Param).run_except (unify c u patterns concretes)))
    fun _ _ => trivial

/-! ## Closing -/

abbrev closing : Conduct (ExceptT Rejection Engine) := engine.except Rejection

theorem bindFree (c : Catalog) (k : Closing) (slots : List Slot) :
    engine.Obeys (k.bindFree c slots) :=
  query_bind fun _ => runUnify c k.limits _ _ _

theorem fillSlot (c : Catalog) (k : Closing) (σ : Substitution) (s : Slot) :
    engine.Obeys (k.fillSlot c σ s) := by
  unfold Closing.fillSlot
  split
  · exact engine.pure trivial
  · refine engine.bind (instantiate c s.fixed σ) fun t _ => query_bind fun mentions => ?_
    split <;> exact engine.pure trivial

theorem argsFor (c : Catalog) (k : Closing) (found : Substitution) :
    closing.Obeys (k.argsFor c found) := by
  refine closing.bind (engine.lift_except (query c _)) fun slots _ => ?_
  refine closing.bind (engine.lift_except (bindFree c k slots)) fun bound _ => ?_
  split
  · exact engine.throw _
  refine closing.bind (P := fun _ => True) (engine.except_mk (engine.pure fun _ _ => trivial))
    fun _ _ => ?_
  refine closing.bind (engine.lift_except (engine.mapM (fillSlot c k _))) fun slots _ => ?_
  exact engine.except_mk (engine.mono (query c _) fun _ _ _ _ => trivial)

theorem checkClosed (c : Catalog) (k : Closing) (abstraction : TypeId) (args : List TypeId) :
    closing.Obeys (k.checkClosed c abstraction args) := by
  refine closing.bind (engine.lift_except (construct c k.definition args)) fun built _ => ?_
  split
  · exact engine.throw _
  refine closing.bind (engine.lift_except (isAssignable c abstraction _)) fun accepted _ => ?_
  split
  · exact closing.pure trivial
  · exact engine.throw _

theorem close (c : Catalog) (k : Closing) (abstraction : TypeId) (found : Substitution) :
    closing.Obeys (k.close c abstraction found) :=
  closing.bind (argsFor c k found) fun args _ => checkClosed c k abstraction args

/-! ## Resolution -/

theorem definitionType (c : Catalog) (d : DefId) : engine.Obeys (Engine.definitionType c d) := by
  unfold Engine.definitionType
  split
  · exact engine.pure trivial
  · refine engine.bind (engine.mapM fun i => intern _) fun params _ => ?_
    exact engine.bind (intern _) fun _ _ => engine.pure trivial

theorem closeThrough (c : Catalog) (r : Request) (k : Closing) (declared : List Param)
    (requested : List TypeId) (candidate : Candidate) :
    engine.Obeys (r.closeThrough c k declared requested candidate) := by
  refine engine.bind (runUnify c _ _ _ _) fun found _ => ?_
  split
  · exact engine.pure trivial
  · exact engine.mono (engine.run_except (close c k _ _)) fun _ _ => trivial

theorem closedThrough {close : Candidate → Engine (Except Rejection TypeId)}
    (h : ∀ candidate, engine.Obeys (close candidate)) (candidates : List Candidate)
    (closed : List TypeId) : engine.Obeys (r.closedThrough c close candidates closed) := by
  induction candidates generalizing closed with
  | nil => exact engine.pure trivial
  | cons candidate rest ih =>
    refine engine.bind (h candidate) fun found _ => ?_
    split
    · refine report_bind ?_
      dsimp only
      split
      · exact engine.pure trivial
      · exact ih _
    · exact report_bind (ih closed)

theorem resolveClosed (c : Catalog) (r : Request) : engine.Obeys (r.resolveClosed c) :=
  engine.bind (isAssignable c _ _) fun _ _ => report_bind (engine.pure trivial)

theorem resolveOpen (c : Catalog) (r : Request) (i : Implementation) (opened : TypeId) :
    engine.Obeys (r.resolveOpen c i opened) := by
  refine query_bind fun declared => engine.bind (candidates c _ _) fun candidates _ => ?_
  split
  · exact report_bind (engine.pure trivial)
  refine query_bind fun requested => ?_
  refine engine.bind (closedThrough (closeThrough c r _ _ _) _ _) fun closed _ => ?_
  split
  · exact report_bind (engine.pure trivial)
  · exact engine.pure trivial

theorem resolve (c : Catalog) (r : Request) : engine.Obeys (r.resolve c) := by
  refine query_bind fun examined => ?_
  split
  · exact engine.pure trivial
  split
  · exact engine.map (resolveClosed c r) fun _ _ => trivial
  refine engine.bind (definitionType c _) fun opened _ => ?_
  split
  · exact engine.pure trivial
  · exact engine.map (resolveOpen c r _ _) fun _ _ => trivial

theorem closedImplementation (c : Catalog) (abstraction implementation : TypeId) :
    engine.Obeys (Engine.closedImplementation c abstraction implementation) :=
  engine.bind (resolve c _) fun _ _ => engine.pure trivial

theorem servesEveryInstance (c : Catalog) (abstraction implementation : TypeId) :
    engine.Obeys (Engine.servesEveryInstance c abstraction implementation) := by
  refine query_bind fun definition => ?_
  split
  · exact engine.pure trivial
  refine engine.bind (definitionType c _) fun representative _ => ?_
  split
  · exact engine.pure trivial
  refine engine.bind (resolve c _) fun outcome _ => ?_
  split
  · exact engine.pure trivial
  · exact report_bind (engine.pure trivial)

theorem getOrResolve (c : Catalog) (k : Cache) (abstraction implementation : TypeId) :
    engine.Obeys (k.getOrResolve c abstraction implementation) := by
  unfold Cache.getOrResolve
  split
  · exact report_bind (engine.pure trivial)
  refine engine.bind (resolve c _) fun outcome _ => ?_
  split <;> exact engine.pure trivial

end Conduct

end Generics
