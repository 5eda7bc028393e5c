import Generics.Proofs.Conduct.Resolving

/-!
# One guard for a series of walks

A guard that has served a walk is visiting nothing and is back at its first level: all it has kept is its
count of steps, and this is read nowhere but where it is compared with the limit.  So as long as a series
of walks under one guard stays within the limit, each of them ends as it does under a guard of its own.
-/

namespace Generics

namespace Guard

variable {κ : Type} {g g' g'' : Guard κ}

/-! ## Lighter guards -/

/-- `g'` is where `g` is, and it has taken no more steps. -/
structure Lighter (g' g : Guard κ) : Prop where
  limits : g'.limits = g.limits
  visiting : g'.visiting = g.visiting
  depth : g'.depth = g.depth
  iterations : g'.iterations ≤ g.iterations

/-- The guard `g'` has counted on from `g`. -/
structure Advances (g g' : Guard κ) : Prop where
  limits : g'.limits = g.limits
  iterations : g.iterations ≤ g'.iterations
  count : g'.iterations ≤ maxCount

theorem Advances.refl (h : g.iterations ≤ maxCount) : g.Advances g := ⟨rfl, Nat.le_refl _, h⟩

theorem Advances.trans (h : g.Advances g') (h' : g'.Advances g'') : g.Advances g'' :=
  ⟨h'.limits.trans h.limits, Nat.le_trans h.iterations h'.iterations, h'.count⟩

/-- A new guard is lighter than one that has been given back. -/
theorem lighter_start {limits : Limits} (h : Keeps { limits } g) : Lighter { limits } g :=
  ⟨h.limits.symm, h.visiting.symm, h.depth.symm, Nat.zero_le _⟩

variable [DecidableEq κ]

theorem advances_enter (h : g.iterations ≤ maxCount) (key : κ) : g.Advances (g.enter key).2 := by
  have hle : g.iterations ≤ g.counted.iterations := Nat.le_min.2 ⟨Nat.le_succ _, h⟩
  have hcount : g.counted.iterations ≤ maxCount := Nat.min_le_right ..
  rcases enter_cases g key with ⟨-, heq⟩ | ⟨-, -, heq⟩ | ⟨-, -, -, heq⟩ | ⟨-, -, -, heq⟩ <;> rw [heq]
  all_goals exact ⟨rfl, hle, hcount⟩

/-- While there are steps left, only the keys and the depth decide on the answer. -/
theorem enter_of_steps (h : g.counted.iterations ≤ g.limits.maxIterations.toNat) (key : κ) :
    g.enter key =
      if key ∈ g.visiting then (.cycle, g.counted)
      else if g.limits.maxDepth.toNat ≤ g.depth then (.tooDeep, { g.counted with exceeded := true })
      else (.entered, { g.counted with visiting := key :: g.visiting, depth := g.depth + 1 }) :=
  if_neg (Nat.not_lt_of_le h)

/-- While a guard has steps left, a lighter one answers as it does. -/
theorem Lighter.enter (h : g'.Lighter g) (key : κ)
    (hsteps : (g.enter key).2.iterations ≤ g.limits.maxIterations.toNat) :
    (g'.enter key).1 = (g.enter key).1 ∧ (g'.enter key).2.Lighter (g.enter key).2 := by
  have hcounted : g'.counted.iterations ≤ g.counted.iterations :=
    Nat.le_min.2 ⟨Nat.le_trans (Nat.min_le_left ..) (Nat.succ_le_succ h.iterations),
      Nat.min_le_right ..⟩
  have hsteps : g.counted.iterations ≤ g.limits.maxIterations.toNat := by
    rwa [(of_enter (Prod.eta (g.enter key)).symm).1] at hsteps
  have hsteps' : g'.counted.iterations ≤ g'.limits.maxIterations.toNat := by
    rw [h.limits]
    exact Nat.le_trans hcounted hsteps
  rw [enter_of_steps hsteps, enter_of_steps hsteps', h.limits, h.visiting, h.depth]
  split
  · exact ⟨rfl, h.limits, h.visiting, h.depth, hcounted⟩
  · split
    · exact ⟨rfl, h.limits, h.visiting, h.depth, hcounted⟩
    · exact ⟨rfl, h.limits, rfl, rfl, hcounted⟩

theorem advances_leave (h : g.iterations ≤ maxCount) (key : κ) (s : Session) :
    g.Advances (Engine.leave g key s).1 := by
  unfold Engine.leave
  cases hleave : g.leave key with
  | error => exact .refl h
  | ok g' =>
    have hiterations := leave_iterations hleave
    exact ⟨leave_limits hleave, Nat.le_of_eq hiterations.symm, hiterations ▸ h⟩

/-- A key is left alike, and its absence is noted alike. -/
theorem Lighter.leave (h : g'.Lighter g) (key : κ) (s : Session) :
    (Engine.leave g' key s).2 = (Engine.leave g key s).2 ∧
      (Engine.leave g' key s).1.Lighter (Engine.leave g key s).1 := by
  unfold Engine.leave Guard.leave
  rw [h.visiting, h.depth]
  split
  · exact ⟨rfl, h.limits, rfl, rfl, h.iterations⟩
  · exact ⟨rfl, h⟩

end Guard

/-! ## Walks under lighter guards -/

namespace Conduct

variable {κ : Type}

/-- Computations that take steps of their guard, and that run as they do under any guard which is lighter,
unless they pass the limit of steps. -/
def sharing (κ : Type) : Conduct (StateT (Guard κ) Engine) where
  Ensures m P := ∀ (g : Guard κ) s, g.iterations ≤ Guard.maxCount →
    ∃ a h s', m.run g s = ((a, h), s') ∧ g.Advances h ∧ P a ∧
      ∀ g' : Guard κ, g'.Lighter g → h.iterations ≤ g.limits.maxIterations.toNat →
        ∃ h', m.run g' s = ((a, h'), s') ∧ h'.Lighter h
  pure h g s hcount := ⟨_, g, s, rfl, .refl hcount, h, fun g' hg' _ => ⟨g', rfl, hg'⟩⟩
  bind {α β m f P Q} hm hf g s hcount := by
    obtain ⟨a, h, s', hrun, hadvances, hP, hlighter⟩ := hm g s hcount
    obtain ⟨b, k, s'', hrun', hadvances', hQ, hlighter'⟩ := hf a hP h s' hadvances.count
    refine ⟨b, k, s'', ?_, hadvances.trans hadvances', hQ, fun g' hg' hsteps => ?_⟩
    · rw [StateT.run_bind, Engine.bind_apply, hrun]
      exact hrun'
    · obtain ⟨h', heq, hh'⟩ := hlighter g' hg' (Nat.le_trans hadvances'.iterations hsteps)
      obtain ⟨k', heq', hk'⟩ := hlighter' h' hh' (hadvances.limits ▸ hsteps)
      refine ⟨k', ?_, hk'⟩
      rw [StateT.run_bind, Engine.bind_apply, heq]
      exact heq'

theorem lifts_sharing : (sharing κ).Lifts where
  lift {_ m} _ g s hcount := ⟨(m s).1, g, (m s).2, rfl, .refl hcount, trivial,
    fun g' hg' _ => ⟨g', rfl, hg'⟩⟩

theorem enter_sharing [DecidableEq κ] (key : κ) :
    (sharing κ).Obeys (MonadStateOf.modifyGet fun g : Guard κ => g.enter key) := by
  intro g s hcount
  refine ⟨(g.enter key).1, (g.enter key).2, s, rfl, Guard.advances_enter hcount key, trivial,
    fun g' hg' hsteps => ⟨(g'.enter key).2, ?_, (hg'.enter key hsteps).2⟩⟩
  rw [← (hg'.enter key hsteps).1]
  rfl

theorem leave_sharing [DecidableEq κ] (key : κ) :
    (sharing κ).Obeys (do set (← (Engine.leave (← get) key : Engine (Guard κ)))) := by
  intro g s hcount
  refine ⟨(), (Engine.leave g key s).1, (Engine.leave g key s).2, rfl,
    Guard.advances_leave hcount key s, trivial,
    fun g' hg' _ => ⟨(Engine.leave g' key s).1, ?_, (hg'.leave key s).2⟩⟩
  rw [← (hg'.leave key s).1]
  rfl

/-- To leave a key after a computation. -/
theorem bind_leave_sharing [DecidableEq κ] {α : Type} {m : StateT (Guard κ) Engine α} {P : α → Prop}
    (hm : (sharing κ).Ensures m P) (key : κ) :
    (sharing κ).Ensures (do
      let a ← m
      set (← (Engine.leave (← get) key : Engine (Guard κ)))
      Pure.pure a) P := by
  refine (sharing κ).bind hm fun a hP => ?_
  change (sharing κ).Ensures ((do set (← (Engine.leave (← get) key : Engine (Guard κ)))) >>=
    fun _ => Pure.pure a) P
  exact (sharing κ).bind (leave_sharing key) fun _ _ => (sharing κ).pure hP

theorem acceptsTo_sharing (c : Catalog) (n : Nat) (target source : TypeId) :
    (sharing (TypeId × TypeId)).Obeys (Comparison.acceptsTo c n target source) := by
  induction n generalizing target source with
  | zero => exact (sharing _).pure trivial
  | succ n ih =>
    rw [Comparison.acceptsTo]
    split
    · exact (sharing _).pure trivial
    refine (sharing _).bind (enter_sharing (target, source)) fun e _ => ?_
    cases e with
    | entered =>
      exact bind_leave_sharing (lifts_sharing.acceptsAbove ih target source) (target, source)
    | cycle => exact (sharing _).pure trivial
    | tooDeep => exact (sharing _).pure trivial
    | tooLong => exact (sharing _).pure trivial

theorem expandTo_sharing (c : Catalog) (u : Unknowns) (n : Nat) (σ : Substitution) (p : Param) :
    ((sharing Param).except UnifyError).Obeys (Unifier.expandTo c u n σ p) := by
  induction n generalizing σ p with
  | zero => exact (sharing Param).throw _
  | succ n ih =>
    refine ((sharing Param).except UnifyError).bind ((sharing Param).lift_except (enter_sharing p))
      fun e _ => ?_
    cases e with
    | entered =>
      have heach : ((sharing Param).except UnifyError).Obeys
          (Unifier.expandEach c u (Unifier.expandTo c u n) σ p) :=
        lifts_sharing.lenient.expandEach ih σ p
      exact (sharing Param).except_mk (bind_leave_sharing ((sharing Param).run_except heach) p)
    | cycle => exact ((sharing Param).except UnifyError).pure trivial
    | tooDeep => exact (sharing Param).throw _
    | tooLong => exact (sharing Param).throw _

theorem unify_sharing (c : Catalog) (u : Unknowns) (patterns concretes : List TypeId) :
    ((sharing Param).except UnifyError).Obeys (Unifier.unify c u patterns concretes) :=
  lifts_sharing.lenient.unify (expandTo_sharing c u) patterns concretes

end Conduct

/-! ## Guards of one's own -/

namespace Guard

variable {α β κ : Type} {limits : Limits} {l : List α}

/-- A computation under a guard of its own. -/
def alone (limits : Limits) (m : StateT (Guard κ) Engine α) : Engine α := do
  let (a, guard) ← StateT.run m { limits }
  Engine.retire guard
  pure a

theorem alone_apply (limits : Limits) (m : StateT (Guard κ) Engine α) (s : Session) :
    alone limits m s = ((m.run { limits } s).1.1,
      (Engine.retire (m.run { limits } s).1.2 (m.run { limits } s).2).2) :=
  rfl

/-- How often a computation under a guard of its own asks it. -/
def entries (limits : Limits) (m : StateT (Guard κ) Engine α) (s : Session) : Nat :=
  (m.run { limits } s).1.2.iterations

/-- What `m` does under one guard, which may have served others before, `m'` does with guards of its
own, unless `m` passes the limit of steps. -/
def Separates (limits : Limits) (m : StateT (Guard κ) Engine α) (m' : Engine α) : Prop :=
  ∀ (ts : Types) (g : Guard κ), Keeps { limits } g → g.iterations ≤ maxCount →
    ∃ a h us cut, Engine.Runs (m.run g) ts (a, h) us cut ∧ g.Keeps h ∧ g.Advances h ∧
      (h.iterations ≤ limits.maxIterations.toNat → ∃ cut', Engine.Runs m' ts a us cut')

namespace Separates

variable {m : StateT (Guard κ) Engine α} {m' : Engine α}

theorem pure (limits : Limits) (a : α) :
    Separates limits (Pure.pure a : StateT (Guard κ) Engine α) (Pure.pure a) := fun ts g _ hcount =>
  ⟨a, g, ts, false, Engine.Runs.pure (a, g) ts, .refl g, .refl hcount, fun _ =>
    ⟨false, Engine.Runs.pure a ts⟩⟩

theorem bind {f : α → StateT (Guard κ) Engine β} {f' : α → Engine β} (hm : Separates limits m m')
    (hf : ∀ a, Separates limits (f a) (f' a)) : Separates limits (m >>= f) (m' >>= f') := by
  intro ts g hkeeps hcount
  obtain ⟨a, h, us, cut, hrun, hgh, hadvances, hfresh⟩ := hm ts g hkeeps hcount
  obtain ⟨b, k, vs, cut', hrun', hhk, hadvances', hfresh'⟩ :=
    hf a us h (hkeeps.trans hgh) hadvances.count
  refine ⟨b, k, vs, cut || cut', ?_, hgh.trans hhk, hadvances.trans hadvances', fun hsteps => ?_⟩
  · rw [StateT.run_bind]
    exact hrun.bind hrun'
  · obtain ⟨cut₁, hrun₁⟩ := hfresh (Nat.le_trans hadvances'.iterations hsteps)
    obtain ⟨cut₂, hrun₂⟩ := hfresh' hsteps
    exact ⟨cut₁ || cut₂, hrun₁.bind hrun₂⟩

theorem lift (limits : Limits) (hm : Conduct.engine.Obeys m') :
    Separates limits (monadLift m' : StateT (Guard κ) Engine α) m' := by
  intro ts g _ hcount
  obtain ⟨a, us, cut, hrun, -⟩ := hm ts
  refine ⟨a, g, us, cut || false, ?_, .refl g, .refl hcount, fun _ => ⟨cut, hrun⟩⟩
  rw [StateT.run_monadLift]
  exact hrun.bind (Engine.Runs.pure (a, g) us)

/-- A walk that keeps its guard may have one of its own instead. -/
theorem of_obeys (limits : Limits) (hkept : (Conduct.guarded κ).Obeys m)
    (hshared : (Conduct.sharing κ).Obeys m) : Separates limits m (alone limits m) := by
  intro ts g hkeeps hcount
  obtain ⟨⟨a, h⟩, us, cut, hrun, -, -, -, hgh⟩ := Conduct.run hkept g ts
  obtain ⟨a', h', s', heq, hadvances, -, hlighter⟩ := hshared g { types := ts } hcount
  obtain ⟨hanswer, htypes, -⟩ := hrun { types := ts } rfl
  rw [heq] at hanswer htypes
  obtain ⟨rfl, rfl⟩ := Prod.mk.inj hanswer
  refine ⟨a', h', us, cut, hrun, hgh, hadvances, fun hsteps => ?_⟩
  -- under a new guard the walk ends in the session `s'` too, before it gives the guard up
  obtain ⟨k, heq', -⟩ := hlighter { limits } (lighter_start hkeeps) (hkeeps.limits ▸ hsteps)
  obtain ⟨b, vs, cut', hrun', -⟩ := Conduct.runFresh limits hkept ts
  obtain ⟨hanswer', htypes', -⟩ := hrun' { types := ts } rfl
  change (alone limits m { types := ts }).1 = b at hanswer'
  change (alone limits m { types := ts }).2.types = vs at htypes'
  rw [alone_apply, heq'] at hanswer' htypes'
  obtain rfl := hanswer'
  obtain rfl : us = vs := htypes.symm.trans ((Engine.retire_types k s').symm.trans htypes')
  exact ⟨cut', hrun'⟩

theorem mapM {f : α → StateT (Guard κ) Engine β} {f' : α → Engine β}
    (hf : ∀ a, Separates limits (f a) (f' a)) : Separates limits (l.mapM f) (l.mapM f') := by
  induction l with
  | nil =>
    rw [List.mapM_nil, List.mapM_nil]
    exact pure limits []
  | cons a l ih =>
    rw [List.mapM_cons, List.mapM_cons]
    exact (hf a).bind fun b => ih.bind fun bs => pure limits (b :: bs)

theorem findSomeM? {f : α → StateT (Guard κ) Engine (Option β)} {f' : α → Engine (Option β)}
    (hf : ∀ a, Separates limits (f a) (f' a)) :
    Separates limits (l.findSomeM? f) (l.findSomeM? f') := by
  induction l with
  | nil => exact pure limits none
  | cons a l ih =>
    rw [List.findSomeM?_cons, List.findSomeM?_cons]
    refine (hf a).bind fun b => ?_
    cases b with
    | some b => exact pure limits (some b)
    | none => exact ih

/-- Where one guard has steps left in the end, guards of one's own give the same answer and types. -/
theorem alone_eq (hm : Separates limits m m') {s : Session}
    (hsteps : entries limits m s ≤ limits.maxIterations.toNat) :
    (alone limits m s).1 = (m' s).1 ∧ (alone limits m s).2.types = (m' s).2.types := by
  obtain ⟨a, h, us, cut, hrun, -, -, hfresh⟩ := hm s.types { limits } (.refl _) (Nat.zero_le _)
  obtain ⟨hanswer, htypes, -⟩ := hrun s rfl
  rw [entries, hanswer] at hsteps
  obtain ⟨cut', hrun'⟩ := hfresh hsteps
  obtain ⟨hanswer', htypes', -⟩ := hrun' s rfl
  rw [alone_apply, Engine.retire_types, hanswer, htypes]
  exact ⟨hanswer'.symm, htypes'.symm⟩

end Separates

end Guard

theorem separates_accepts (c : Catalog) (target source : TypeId) :
    Guard.Separates .assignability (Comparison.accepts c target source)
      (Engine.isAssignable c target source) :=
  .of_obeys _ (Conduct.acceptsTo c _ target source) (Conduct.acceptsTo_sharing c _ target source)

theorem separates_unify (c : Catalog) (limits : Limits) (u : Unknowns)
    (patterns concretes : List TypeId) :
    Guard.Separates limits (Unifier.unify c u patterns concretes).run
      (Unifier.runFresh limits (Unifier.unify c u patterns concretes)) :=
  .of_obeys _
    ((Conduct.guarded Param).mono ((Conduct.guarded Param).run_except
      (Conduct.unify c u patterns concretes)) fun _ _ => trivial)
    ((Conduct.sharing Param).mono ((Conduct.sharing Param).run_except
      (Conduct.unify_sharing c u patterns concretes)) fun _ _ => trivial)

end Generics
