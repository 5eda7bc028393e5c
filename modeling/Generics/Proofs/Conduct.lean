import Generics.Proofs.Watching

/-!
# Computations that behave

Whatever store an engine computation meets, and however it ends, what it answers and what it adds
depend on the types of its session only, and it misuses no guard.  This file has the rules by which a
computation is seen to behave, for computations of the engine and for those that carry a state or may
fail.  A computation that carries a guard must give it back visiting what it visited before.
-/

namespace Generics

/-- A way to say that a computation behaves and ends in an answer as `P` says. -/
structure Conduct (M : Type → Type) [Monad M] where
  Ensures {α : Type} : M α → (α → Prop) → Prop
  protected pure {α : Type} {a : α} {P : α → Prop} (h : P a) : Ensures (Pure.pure a) P
  protected bind {α β : Type} {m : M α} {f : α → M β} {P : α → Prop} {Q : β → Prop}
    (hm : Ensures m P) (hf : ∀ a, P a → Ensures (f a) Q) : Ensures (m >>= f) Q

namespace Conduct

variable {M : Type → Type} [Monad M] (D : Conduct M) {α β σ ε κ : Type} {l : List α}

/-- The computation behaves, whatever its answer is. -/
abbrev Obeys (m : M α) : Prop := D.Ensures m fun _ => True

theorem mono [LawfulMonad M] {m : M α} {P P' : α → Prop} (hm : D.Ensures m P)
    (h : ∀ a, P a → P' a) : D.Ensures m P' := by
  rw [← bind_pure m]
  exact D.bind hm fun a hP => D.pure (h a hP)

theorem map [LawfulMonad M] {m : M α} {f : α → β} {P : α → Prop} {Q : β → Prop}
    (hm : D.Ensures m P) (h : ∀ a, P a → Q (f a)) : D.Ensures (f <$> m) Q := by
  rw [map_eq_pure_bind]
  exact D.bind hm fun a hP => D.pure (h a hP)

/-! ### Lists -/

theorem foldlM {f : β → α → M β} {I : β → Prop} (hf : ∀ b a, I b → D.Ensures (f b a) I) {b : β}
    (hb : I b) : D.Ensures (l.foldlM f b) I := by
  induction l generalizing b with
  | nil => exact D.pure hb
  | cons a l ih => exact D.bind (hf b a hb) fun _ hb => ih hb

theorem mapM [LawfulMonad M] {f : α → M β} (hf : ∀ a, D.Obeys (f a)) : D.Obeys (l.mapM f) := by
  induction l with
  | nil =>
    rw [List.mapM_nil]
    exact D.pure trivial
  | cons a l ih =>
    rw [List.mapM_cons]
    exact D.bind (hf a) fun _ _ => D.bind ih fun _ _ => D.pure trivial

theorem anyM [LawfulMonad M] {f : α → M Bool} (hf : ∀ a, D.Obeys (f a)) : D.Obeys (l.anyM f) := by
  induction l with
  | nil => exact D.pure trivial
  | cons a l ih =>
    rw [List.anyM_cons]
    refine D.bind (hf a) fun b _ => ?_
    cases b with
    | true => exact D.pure trivial
    | false => exact ih

theorem allM [LawfulMonad M] {f : α → M Bool} (hf : ∀ a, D.Obeys (f a)) : D.Obeys (l.allM f) := by
  induction l with
  | nil => exact D.pure trivial
  | cons a l ih =>
    rw [List.allM_cons]
    refine D.bind (hf a) fun b _ => ?_
    cases b with
    | true => exact ih
    | false => exact D.pure trivial

theorem findSomeM? [LawfulMonad M] {f : α → M (Option β)} (hf : ∀ a, D.Obeys (f a)) :
    D.Obeys (l.findSomeM? f) := by
  induction l with
  | nil => exact D.pure trivial
  | cons a l ih =>
    rw [List.findSomeM?_cons]
    refine D.bind (hf a) fun b _ => ?_
    cases b with
    | some b => exact D.pure trivial
    | none => exact ih

/-! ### State and failure -/

/-- Computations that carry a state and change it as `R` says: where it was such a change of `st₀`
before, it is one afterwards. -/
def state (R : σ → σ → Prop) : Conduct (StateT σ M) where
  Ensures m P := ∀ st₀ st, R st₀ st → D.Ensures (m.run st) fun r => P r.1 ∧ R st₀ r.2
  pure h _ _ hst := D.pure ⟨h, hst⟩
  bind hm hf st₀ st hst := D.bind (hm st₀ st hst) fun _ h => hf _ h.1 st₀ _ h.2

/-- Computations that may fail. -/
def except (ε : Type) : Conduct (ExceptT ε M) where
  Ensures m P := D.Ensures m.run fun r => ∀ a, r = .ok a → P a
  pure h := D.pure fun _ heq => Except.ok.inj heq ▸ h
  bind hm hf := D.bind hm fun r h =>
    match r with
    | .ok a => hf a (h a rfl)
    | .error _ => D.pure nofun

variable {R : σ → σ → Prop} {m : M α} {P : α → Prop} {Q : β → Prop}

theorem lift_state [LawfulMonad M] (hm : D.Ensures m P) :
    (D.state R).Ensures (monadLift m : StateT σ M α) P := by
  intro st₀ st hst
  rw [StateT.run_monadLift, monadLift_self]
  exact D.bind hm fun a hP => D.pure ⟨hP, hst⟩

theorem modifyGet {f : σ → α × σ} (h : ∀ st₀ st, R st₀ st → P (f st).1 ∧ R st₀ (f st).2) :
    (D.state R).Ensures (MonadStateOf.modifyGet f : StateT σ M α) P := fun st₀ st hst =>
  D.pure (h st₀ st hst)

theorem lift_except [LawfulMonad M] (hm : D.Ensures m P) :
    (D.except ε).Ensures (monadLift m : ExceptT ε M α) P :=
  D.map hm fun _ hP _ heq => Except.ok.inj heq ▸ hP

theorem except_mk {m : M (Except ε α)} (hm : D.Ensures m fun r => ∀ a, r = .ok a → P a) :
    (D.except ε).Ensures (ExceptT.mk m) P :=
  hm

theorem run_except {m : ExceptT ε M α} (hm : (D.except ε).Ensures m P) :
    D.Ensures m.run fun r => ∀ a, r = .ok a → P a :=
  hm

theorem throw (e : ε) : (D.except ε).Ensures (MonadExceptOf.throw e : ExceptT ε M α) P :=
  D.pure nofun

/-! ### The engine -/

/-- Computations of the engine: they run in one way from all sessions with the same types, they only
add types, and no fault of a guard is noted. -/
def engine : Conduct Engine where
  Ensures m P := ∀ ts, ∃ a us cut, Engine.Runs m ts a us cut ∧ ts.Grows us ∧
    (∀ s : Session, s.types = ts → (m s).2.faults = s.faults) ∧ P a
  pure h ts := ⟨_, ts, false, .pure _ ts, .refl ts, fun _ _ => rfl, h⟩
  bind {α β m f P Q} hm hf ts := by
    obtain ⟨a, us, cut, hrun, hgrow, hfaults, hP⟩ := hm ts
    obtain ⟨b, vs, cut', hrun', hgrow', hfaults', hQ⟩ := hf a hP us
    refine ⟨b, vs, cut || cut', hrun.bind hrun', hgrow.trans hgrow', fun s hs => ?_, hQ⟩
    obtain ⟨ha, hus, -⟩ := hrun s hs
    rw [Engine.bind_apply, ha, hfaults' _ hus, hfaults s hs]

section

variable {m : Engine α} {f : α → Engine β}

/-- The session after a computation that behaves. -/
theorem faults_eq {P : α → Prop} (hm : engine.Ensures m P) (s : Session) :
    P (m s).1 ∧ (m s).2.faults = s.faults := by
  obtain ⟨a, us, cut, hrun, -, hfaults, hP⟩ := hm s.types
  obtain ⟨rfl, -, -⟩ := hrun s rfl
  exact ⟨hP, hfaults s rfl⟩

theorem obeys_discard {P : α → Prop} (hm : engine.Ensures m P) :
    engine.Obeys (Functor.discard m) :=
  engine.map hm fun _ _ => trivial

theorem query (c : Catalog) (g : View → α) : engine.Obeys (Engine.query c g) := fun ts =>
  ⟨_, ts, false, .query c g ts, .refl ts, fun _ _ => rfl, trivial⟩

theorem query_bind {c : Catalog} {g : View → α} (h : ∀ a, engine.Ensures (f a) Q) :
    engine.Ensures (Engine.query c g >>= f) Q :=
  engine.bind (query c g) fun a _ => h a

theorem intern (n : Node) : engine.Obeys (Engine.intern n) := fun ts =>
  ⟨_, _, false, fun s hs => ⟨by rw [Engine.intern_apply, hs], by rw [Engine.intern_apply, hs],
    (Bool.or_false _).symm⟩, ts.grows_intern n, fun _ _ => rfl, trivial⟩

theorem report (c : Catalog) (event : View → Event) : engine.Obeys (Engine.report c event) :=
  fun ts => ⟨(), ts, false, fun _ hs => ⟨rfl, hs, (Bool.or_false _).symm⟩, .refl ts, fun _ _ => rfl,
    trivial⟩

theorem report_bind {c : Catalog} {event : View → Event} {f : Unit → Engine β}
    (h : engine.Ensures (f ()) Q) : engine.Ensures (Engine.report c event >>= f) Q :=
  engine.bind (report c event) fun _ _ => h

/-- A guard that is visiting nothing may be given up. -/
theorem retire {g : Guard κ} (hg : g.visiting = []) : engine.Obeys (Engine.retire g) := by
  have hretire : g.retire = .ok () := by simp [Guard.retire, hg]
  refine fun ts => ⟨(), ts, g.exceeded, fun s hs => ⟨rfl, ?_, Engine.retire_limited g s⟩, .refl ts,
    fun _ _ => ?_, trivial⟩
  · rw [Engine.retire_types, hs]
  · rw [Engine.retire, hretire]
    rfl

end

/-! ### Guards -/

/-- Computations that give their guard back visiting what it visited before. -/
abbrev guarded (κ : Type) : Conduct (StateT (Guard κ) Engine) := engine.state Guard.Keeps

/-- A conduct of computations under a guard that asks nothing of the engine but to behave. -/
structure Lifts (D : Conduct (StateT (Guard κ) Engine)) : Prop where
  lift {α : Type} {m : Engine α} (hm : engine.Obeys m) :
    D.Obeys (monadLift m : StateT (Guard κ) Engine α)

theorem lifts_state (R : Guard κ → Guard κ → Prop) : (engine.state R).Lifts :=
  ⟨fun hm => engine.lift_state hm⟩

theorem lifts_guarded : (guarded κ).Lifts := lifts_state Guard.Keeps

section

variable {m : StateT (Guard κ) Engine α} {g g' : Guard κ}

theorem run (hm : (guarded κ).Ensures m P) (g : Guard κ) :
    engine.Ensures (m.run g) fun r => P r.1 ∧ g.Keeps r.2 :=
  hm g g (.refl g)

theorem of_run (hm : ∀ g, engine.Ensures (m.run g) fun r => P r.1 ∧ g.Keeps r.2) :
    (guarded κ).Ensures m P := fun _ g hg =>
  engine.mono (hm g) fun _ h => ⟨h.1, hg.trans h.2⟩

/-- A computation under a guard of its own. -/
theorem runFresh (limits : Limits) (hm : (guarded κ).Ensures m P) :
    engine.Ensures (do
      let (a, guard) ← StateT.run m { limits }
      Engine.retire guard
      Pure.pure a) P :=
  engine.bind (run hm { limits }) fun _ h =>
    engine.bind (retire h.2.visiting) fun _ _ => engine.pure h.1

variable [DecidableEq κ] {key : κ}

/-- A key that has just been entered can be left after a computation that keeps the guard. -/
theorem leave (henter : g.enter key = (.entered, g')) {g'' : Guard κ} (hkeeps : g'.Keeps g'') :
    engine.Ensures (Engine.leave g'' key) g.Keeps := by
  obtain ⟨left, hleave, hleft, -⟩ := Guard.exists_leave_eq_ok henter hkeeps
  rw [Engine.leave, hleave]
  exact engine.pure hleft

/-- A computation that runs while a key is visited, and leaves it. -/
theorem leave_entered (henter : g.enter key = (.entered, g')) (hm : (guarded κ).Ensures m P) :
    engine.Ensures (StateT.run (do
      let a ← m
      set (← (Engine.leave (← get) key : Engine (Guard κ)))
      Pure.pure a) g') fun r => P r.1 ∧ g.Keeps r.2 := by
  rw [StateT.run_bind]
  refine engine.bind (run hm g') fun r h => ?_
  change engine.Ensures (Engine.leave r.2 key >>= fun g => Pure.pure (r.1, g)) _
  exact engine.bind (leave henter h.2) fun _ hleft => engine.pure ⟨h.1, hleft⟩

end

end Conduct

end Generics
