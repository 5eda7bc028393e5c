import Generics.Proofs.Appending

/-!
# Recorded runs

A unifier and its guard leave no trace of the questions that were asked on the way.  A recorder runs like
a unifier and keeps a record of them; without the record, its runs are those of the unifier.
-/

namespace Generics

/-- The questions put to a guard so far, and its answers. -/
abbrev Record := List (Param × Entry)

/-- A unifier that records what it asks its guard, whether or not it fails. -/
abbrev Recorder := ExceptT UnifyError (StateT Record (StateT (Guard Param) Engine))

namespace Recorder

variable {α β : Type}

/-- A unifier that asks its guard nothing. -/
def unasked (m : Unifier α) : Recorder α := ExceptT.mk (monadLift m.run)

/-- Ask the guard to visit a parameter, and record the answer. -/
def enter (p : Param) : Recorder Entry := do
  let e ← unasked (Unifier.enter p)
  modify fun record => record ++ [(p, e)]
  pure e

/-- Visit `p`, which the guard has let in, and leave it whether or not that fails. -/
def visiting (p : Param) (m : Recorder α) : Recorder α :=
  ExceptT.mk do
    let a ← m.run
    monadLift (do set (← Engine.leave (← get) p) : StateT (Guard Param) Engine Unit)
    pure a

variable (c : Catalog) (u : Unknowns)

/-- Expand the constraints of `p`, when `expand` does so for a parameter that they bind. -/
def expandEach (expand : Substitution → Param → Recorder Substitution) (σ : Substitution)
    (p : Param) : Recorder Substitution := do
  match σ.get? p, (← unasked (Unifier.query c (·.param? p))) with
  | some bound, some decl =>
    decl.constraints.foldlM
      (fun σ k => do
        let k ← unasked (monadLift (Engine.instantiate c k u.closure))
        if ← unasked (Unifier.query c (·.mentionsAny k u.free)) then
          let τ ← unasked (Unifier.infer c u p k bound σ)
          (τ.domain.drop σ.size).foldlM expand τ
        else pure σ)
      σ
  | _, _ => pure σ

/-- Expand the constraints of `p`, down to the given depth. -/
def expandTo : Nat → Substitution → Param → Recorder Substitution
  | 0, _, _ => throw .limitExceeded
  | n + 1, σ, p => do
    match ← enter p with
    | .entered => visiting p (expandEach c u (expandTo n) σ p)
    | .cycle => pure σ
    | .tooDeep | .tooLong => throw .limitExceeded

/-- Bind the free parameters so that the patterns become the concrete types. -/
def unify (patterns concretes : List TypeId) : Recorder Substitution := do
  if patterns.length ≠ concretes.length then
    throw (.arityMismatch patterns.length concretes.length)
  else
    match ← unasked (Unifier.query c (·.matchAll u.free .empty patterns concretes)) with
    | .error e => throw e
    | .ok matched =>
      let σ ← matched.domain.foldlM (expandTo c u (u.free.length + 1)) matched
      unasked (monadLift (Engine.report c fun _ => .unified σ.size u.free.length))
      pure σ

/-! ## Runs without their record -/

/-- Without its record, `m` runs like `m'`. -/
def Erases (m : Recorder α) (m' : Unifier α) : Prop :=
  ∀ record, Prod.fst <$> m.run.run record = m'.run

variable {m : Recorder α} {m' : Unifier α} {f : α → Recorder β} {f' : α → Unifier β} {p : Param}
  {c u}

namespace Erases

theorem pure (a : α) : Erases (Pure.pure a) (Pure.pure a) := fun _ => rfl

theorem throw (e : UnifyError) :
    Erases (MonadExcept.throw e : Recorder α) (MonadExcept.throw e) := fun _ => rfl

theorem unasked (m : Unifier α) : Erases (unasked m) m := fun record => by
  change Prod.fst <$> (monadLift m.run : StateT Record _ _).run record = m.run
  rw [StateT.run_monadLift, monadLift_self, map_bind]
  simp

theorem bind (hm : Erases m m') (hf : ∀ a, Erases (f a) (f' a)) : Erases (m >>= f) (m' >>= f') := by
  intro record
  rw [ExceptT.run_bind, StateT.run_bind, map_bind, ExceptT.run_bind, ← hm record, bind_map_left]
  refine bind_congr fun r => ?_
  obtain ⟨r, record'⟩ := r
  cases r with
  | ok a => exact hf a record'
  | error e => rfl

theorem foldlM {step : β → α → Recorder β} {step' : β → α → Unifier β}
    (hstep : ∀ b a, Erases (step b a) (step' b a)) (l : List α) (b : β) :
    Erases (l.foldlM step b) (l.foldlM step' b) := by
  induction l generalizing b with
  | nil => exact pure b
  | cons a l ih =>
    rw [List.foldlM_cons, List.foldlM_cons]
    exact (hstep b a).bind ih

theorem enter (p : Param) : Erases (enter p) (Unifier.enter p) := fun _ => rfl

theorem visiting (p : Param) (hm : Erases m m') :
    Erases (visiting p m) (Unifier.visiting p m') := by
  intro record
  change Prod.fst <$> (Recorder.visiting p m).run.run record = (do
    let a ← m'.run
    set (← (Engine.leave (← get) p : Engine (Guard Param)))
    Pure.pure a)
  rw [← hm record, bind_map_left]
  rfl

theorem expandEach {expand : Substitution → Param → Recorder Substitution}
    {expand' : Substitution → Param → Unifier Substitution}
    (hexpand : ∀ σ p, Erases (expand σ p) (expand' σ p)) (σ : Substitution) (p : Param) :
    Erases (expandEach c u expand σ p) (Unifier.expandEach c u expand' σ p) := by
  refine (unasked _).bind fun decl => ?_
  cases σ.get? p with
  | none => exact pure σ
  | some bound =>
    cases decl with
    | none => exact pure σ
    | some decl =>
      refine foldlM (fun σ k => ?_) _ σ
      refine (unasked _).bind fun k => (unasked _).bind fun mentions => ?_
      split
      · exact (unasked _).bind fun τ => foldlM hexpand _ τ
      · exact pure σ

theorem expandTo (c : Catalog) (u : Unknowns) (n : Nat) (σ : Substitution) (p : Param) :
    Erases (expandTo c u n σ p) (Unifier.expandTo c u n σ p) := by
  induction n generalizing σ p with
  | zero => exact throw _
  | succ n ih =>
    refine (enter p).bind fun e => ?_
    cases e with
    | entered => exact visiting p (expandEach ih σ p)
    | cycle => exact pure σ
    | tooDeep => exact throw _
    | tooLong => exact throw _

/-- Unification does not depend on its being recorded. -/
theorem unify (c : Catalog) (u : Unknowns) (patterns concretes : List TypeId) :
    Erases (unify c u patterns concretes) (Unifier.unify c u patterns concretes) := by
  unfold Recorder.unify Unifier.unify
  split
  · exact throw _
  refine (unasked _).bind fun matched => ?_
  split
  · exact throw _
  · refine (foldlM (expandTo c u _) _ _).bind fun σ => ?_
    exact (unasked _).bind fun _ => pure σ

end Erases

/-! ## How recorded runs end -/

variable {record : Record} {g g' : Guard Param} {e : Entry} {P P' : α → Record → Guard Param → Prop}
  {Q : β → Record → Guard Param → Prop} {E E' : UnifyError → Record → Guard Param → Prop}

/-- From `record` and `g`, and from any session, `m` ends with an answer as `P` says or with an error as
`E` says. -/
def Ends (m : Recorder α) (record : Record) (g : Guard Param)
    (P : α → Record → Guard Param → Prop) (E : UnifyError → Record → Guard Param → Prop) : Prop :=
  ∀ s, ∃ r record' g' s', (m.run.run record).run g s = (((r, record'), g'), s') ∧
    Conduct.Outcome (E · record' g') (P · record' g') r

namespace Ends

theorem pure {a : α} (h : P a record g) : Ends (Pure.pure a) record g P E := fun s =>
  ⟨.ok a, record, g, s, rfl, h⟩

theorem throw {e : UnifyError} (h : E e record g) :
    Ends (MonadExcept.throw e : Recorder α) record g P E := fun s => ⟨.error e, record, g, s, rfl, h⟩

theorem bind (hm : Ends m record g P E)
    (hf : ∀ a record' g', P a record' g' → Ends (f a) record' g' Q E) :
    Ends (m >>= f) record g Q E := by
  intro s
  obtain ⟨r, record', g', s', hrun, hends⟩ := hm s
  rw [ExceptT.run_bind, StateT.run_bind, StateT.run_bind, Engine.bind_apply, hrun]
  cases r with
  | ok a => exact hf a record' g' hends s'
  | error e => exact ⟨.error e, record', g', s', rfl, hends⟩

theorem mono (hm : Ends m record g P E) (hP : ∀ a record' g', P a record' g' → P' a record' g')
    (hE : ∀ e record' g', E e record' g' → E' e record' g') : Ends m record g P' E' := by
  intro s
  obtain ⟨r, record', g', s', hrun, hends⟩ := hm s
  refine ⟨r, record', g', s', hrun, ?_⟩
  cases r with
  | ok a => exact hP a record' g' hends
  | error e => exact hE e record' g' hends

/-- A walk along a list, of which the invariant knows the rest. -/
theorem foldlM {step : β → α → Recorder β} {I : List α → β → Record → Guard Param → Prop}
    (hstep : ∀ a l b record g, I (a :: l) b record g → Ends (step b a) record g (I l) E) {l : List α}
    {b : β} (h : I l b record g) : Ends (l.foldlM step b) record g (I []) E := by
  induction l generalizing b record g with
  | nil => exact pure h
  | cons a l ih =>
    rw [List.foldlM_cons]
    exact (hstep a l b record g h).bind fun _ _ _ => ih

/-- A computation that leaves the guard alone is not recorded. -/
theorem unasked {m : Unifier α} (hguard : ∀ s, (m.run.run g s).1.2 = g)
    (h : ∀ s, Conduct.Outcome (E · record g) (P · record g) (m.run.run g s).1.1) :
    Ends (unasked m) record g P E := by
  intro s
  refine ⟨(m.run.run g s).1.1, record, g, (m.run.run g s).2, ?_, h s⟩
  change (((_, record), (m.run.run g s).1.2), _) = _
  rw [hguard s]
  rfl

theorem lift_bind {m : Engine α} (h : ∀ s, Ends (f (m s).1) record g Q E) :
    Ends (Recorder.unasked (monadLift m) >>= f) record g Q E :=
  bind (P := fun a record' g' => record' = record ∧ g' = g ∧ ∃ s, a = (m s).1)
    (unasked (fun _ => rfl) fun s => ⟨rfl, rfl, s, rfl⟩)
    fun _ _ _ ⟨hrecord, hg, s, ha⟩ => ha ▸ hrecord ▸ hg ▸ h s

/-- The answer to a question is recorded. -/
theorem enter_bind {f : Entry → Recorder β} (henter : g.enter p = (e, g'))
    (h : Ends (f e) (record ++ [(p, e)]) g' Q E) : Ends (Recorder.enter p >>= f) record g Q E := by
  refine bind (P := fun e' record' g'' => e' = e ∧ record' = record ++ [(p, e)] ∧ g'' = g')
    (fun s => ⟨.ok e, _, _, s, ?_, rfl, rfl, rfl⟩) fun _ _ _ ⟨he, hrecord, hg⟩ => ?_
  · change (((Except.ok (g.enter p).1, record ++ [(p, (g.enter p).1)]), (g.enter p).2), s) = _
    rw [henter]
  · exact he ▸ hrecord ▸ hg ▸ h

/-- A parameter that is left after `m` has to be left from every guard in which `m` ends. -/
theorem visiting (hm : Ends m record g
      (fun a record' g' => ∃ left, g'.leave p = .ok left ∧ P a record' left)
      fun e record' g' => ∃ left, g'.leave p = .ok left ∧ E e record' left) :
    Ends (visiting p m) record g P E := by
  intro s
  obtain ⟨r, record', g', s', hrun, hends⟩ := hm s
  obtain ⟨left, hleave, hleft⟩ : ∃ left, g'.leave p = .ok left ∧
      Conduct.Outcome (E · record' left) (P · record' left) r := by
    cases r <;> exact hends
  refine ⟨r, record', left, s', ?_, hleft⟩
  change (do
    let (a, g') ← (m.run.run record).run g
    let left ← Engine.leave g' p
    Pure.pure (a, left) : Engine _) s = _
  rw [Engine.bind_apply, hrun]
  change (Engine.leave g' p >>= _) s' = _
  rw [Engine.bind_apply, Engine.leave_apply_of_ok hleave]
  rfl

end Ends

end Recorder

end Generics
