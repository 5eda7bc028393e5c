import Generics.Construct
import Generics.Proofs.Conduct

/-!
# Comparing types behaves

The walk through supertypes leaves each type that it entered, and a comparison each pair, on every
path to an answer.  So both give their guard back as it was, and nothing that is built on them misuses
a guard.
-/

namespace Generics

namespace Conduct

variable {c : Catalog} {n : Nat} {d : DefId}

/-! ## Instantiation -/

/-- Walks that remember images. -/
abbrev imaging : Conduct (StateT Engine.Images Engine) := engine.state fun _ _ => True

theorem imageOf {walk : TypeId → StateT Engine.Images Engine TypeId} (σ : Substitution) (t : TypeId)
    (hwalk : ∀ a, imaging.Obeys (walk a)) (node : Option Node) :
    imaging.Obeys (Engine.imageOf σ walk t node) := by
  unfold Engine.imageOf
  split
  · exact imaging.pure trivial
  · refine imaging.bind (imaging.mapM hwalk) fun images _ => ?_
    split
    · exact imaging.pure trivial
    · exact engine.lift_state (intern _)
  · exact imaging.pure trivial

theorem instantiateTo (c : Catalog) (σ : Substitution) (n : Nat) (t : TypeId) :
    imaging.Obeys (Engine.instantiateTo c σ n t) := by
  induction n generalizing t with
  | zero => exact imaging.pure trivial
  | succ n ih =>
    refine imaging.bind (P := fun _ => True) (engine.modifyGet fun _ _ _ => ⟨trivial, trivial⟩)
      fun images _ => ?_
    split
    · exact imaging.pure trivial
    · refine imaging.bind (engine.lift_state (query c _)) fun node _ => ?_
      refine imaging.bind (imageOf σ t ih node) fun _ _ => ?_
      refine imaging.bind (P := fun _ => True) (engine.modifyGet fun _ _ _ => ⟨trivial, trivial⟩)
        fun _ _ => ?_
      exact imaging.pure trivial

theorem instantiate (c : Catalog) (t : TypeId) (σ : Substitution) :
    engine.Obeys (Engine.instantiate c t σ) := by
  unfold Engine.instantiate
  split
  · exact engine.pure trivial
  · refine query_bind fun bound => ?_
    exact engine.bind (instantiateTo c σ _ t ∅ ∅ trivial) fun _ _ => engine.pure trivial

/-! ## Supertypes -/

/-- The walk gives its guard back as it was, whatever it was visiting when it began. -/
theorem climb (c : Catalog) (n : Nat) (w : Climb) (t : TypeId) :
    engine.Ensures (Engine.climb c n w t) fun w' => w.guard.Keeps w'.guard := by
  induction n generalizing w t with
  | zero => exact engine.pure (.refl _)
  | succ n ih =>
    unfold Engine.climb
    split
    · exact engine.pure (.refl _)
    · split
      · rename_i guard henter
        refine query_bind fun declared => ?_
        refine engine.bind (engine.foldlM (I := fun w' => guard.Keeps w'.guard) (fun w' s hw => ?_)
          (.refl guard)) fun w' hw => ?_
        · refine engine.bind (instantiate c s _) fun s _ => ?_
          exact engine.mono (ih w' s) fun _ h => hw.trans h
        · exact engine.bind (leave henter hw) fun _ hleft => engine.pure hleft
      · rename_i hne henter
        exact engine.pure (Guard.of_enter_ne_entered henter hne).1

theorem supertypes (c : Catalog) (t : TypeId) : engine.Obeys (Engine.supertypes c t) := by
  refine engine.bind (climb c _ _ t) fun w hw => ?_
  have hrest : engine.Obeys (Engine.retire w.guard >>= fun _ => pure w.found) :=
    engine.bind (retire hw.visiting) fun _ _ => engine.pure trivial
  split
  · exact report_bind hrest
  · exact hrest

theorem candidates (c : Catalog) (implementation abstraction : TypeId) :
    engine.Obeys (Engine.candidates c implementation abstraction) := by
  refine query_bind fun node => ?_
  cases node with
  | none => exact engine.pure trivial
  | some requested =>
    refine engine.bind (supertypes c implementation) fun above _ => ?_
    exact query_bind fun _ => report_bind (engine.pure trivial)

/-! ## Assignability -/

abbrev comparing : Conduct Comparison := guarded (TypeId × TypeId)

namespace Lifts

variable {D : Conduct Comparison} {accepts : TypeId → TypeId → Comparison Bool}

theorem compatible (hD : D.Lifts) (h : ∀ target source, D.Obeys (accepts target source))
    (variance : Variance) (target source : TypeId) :
    D.Obeys (Comparison.compatible c accepts variance target source) := by
  unfold Comparison.compatible
  split
  · exact D.pure trivial
  · split
    · exact D.pure trivial
    all_goals
      refine D.bind (hD.lift (query c _)) fun _ _ => ?_
      split
      · exact h _ _
      · exact D.pure trivial

theorem acceptsAbove (hD : D.Lifts) (h : ∀ target source, D.Obeys (accepts target source))
    (target source : TypeId) : D.Obeys (Comparison.acceptsAbove c accepts target source) := by
  refine D.bind (hD.lift (supertypes c source)) fun above _ => ?_
  split
  · exact D.pure trivial
  · refine D.bind (hD.lift (query c _)) fun variant _ => ?_
    split
    · exact D.pure trivial
    · refine D.anyM fun s => ?_
      refine D.bind (hD.lift (query c _)) fun sources _ => ?_
      split
      · exact D.pure trivial
      · exact D.allM fun _ => hD.compatible h _ _ _

end Lifts

/-- A comparison gives its guard back as it was, whatever it was visiting when it began. -/
theorem acceptsTo (c : Catalog) (n : Nat) (target source : TypeId) :
    comparing.Obeys (Comparison.acceptsTo c n target source) := by
  induction n generalizing target source with
  | zero => exact comparing.pure trivial
  | succ n ih =>
    rw [Comparison.acceptsTo]
    split
    · exact comparing.pure trivial
    refine of_run fun g => ?_
    rw [StateT.run_bind]
    change engine.Ensures (pure (g.enter (target, source)) >>= _) _
    rw [pure_bind]
    rcases henter : g.enter (target, source) with ⟨e, g'⟩
    by_cases he : e = .entered
    · subst he
      exact leave_entered henter (lifts_guarded.acceptsAbove ih target source)
    · have hkeeps := (Guard.of_enter_ne_entered henter he).1
      cases e with
      | entered => exact absurd rfl he
      | cycle => exact engine.pure ⟨trivial, hkeeps⟩
      | tooDeep => exact engine.pure ⟨trivial, hkeeps⟩
      | tooLong => exact engine.pure ⟨trivial, hkeeps⟩

theorem isAssignable (c : Catalog) (target source : TypeId) :
    engine.Obeys (Engine.isAssignable c target source) :=
  runFresh _ (acceptsTo c _ target source)

/-! ## Construction -/

theorem violation? (c : Catalog) (σ : Substitution) (r : Requirement) :
    comparing.Obeys (Comparison.violation? c σ r) := by
  cases r with
  | special p argument demanded =>
    exact comparing.bind (engine.lift_state (query c _)) fun _ _ => comparing.pure trivial
  | constraint p argument constraint =>
    refine comparing.bind (engine.lift_state (instantiate c constraint σ)) fun constraint _ => ?_
    exact comparing.bind (acceptsTo c _ constraint argument) fun _ _ => comparing.pure trivial

theorem construct (c : Catalog) (d : DefId) (args : List TypeId) :
    engine.Obeys (Engine.construct c d args) := by
  unfold Engine.construct
  split
  · exact engine.pure trivial
  split
  · exact engine.pure trivial
  refine engine.bind (runFresh _ (comparing.findSomeM? (violation? c _))) fun first _ => ?_
  split
  · exact engine.pure trivial
  · exact engine.bind (intern _) fun _ _ => report_bind (engine.pure trivial)

end Conduct

end Generics
