/-!
# Recursion guards

A guard watches a recursive walk.  It knows the keys being visited, so that a walk can tell when it
comes back to one, and it refuses to go deeper or to take more steps than its limits allow.  Every
key that was entered must be left again: leaving another key, or giving up a guard that is still
visiting one, is a fault of the walk.
-/

namespace Generics

/-- How deep a walk may go and how many steps it may take. -/
structure Limits where
  maxDepth : UInt32
  maxIterations : UInt32
  deriving DecidableEq, Repr

namespace Limits

/-- The limits of constraint expansion during unification. -/
def unification : Limits := ⟨50, 100000⟩

/-- The limits of supertype enumeration. -/
def hierarchy : Limits := ⟨64, 100000⟩

/-- The limits of assignability through variant arguments. -/
def assignability : Limits := ⟨100, 100000⟩

end Limits

/-- The answer to a walk that wants to visit a key. -/
inductive Entry
  /-- The walk may visit the key. -/
  | entered
  /-- The key is being visited already. -/
  | cycle
  /-- The walk is as deep as it may be. -/
  | tooDeep
  /-- The walk has taken all its steps. -/
  | tooLong
  deriving DecidableEq, Repr

/-- A misuse of a guard. -/
inductive GuardFault
  /-- A key was left that was not being visited. -/
  | absentKey
  /-- The guard was given up while it was visiting keys. -/
  | stillVisiting (keys : Nat)
  deriving DecidableEq, Repr

def GuardFault.message : GuardFault → String
  | absentKey =>
    "RecursionGuard::leave() called with a key that is not in the visiting set. " ++
      "This indicates a double-leave or a leave without a matching enter()."
  | stillVisiting keys =>
    s!"RecursionGuard dropped with {keys} active entries still in the visiting set. " ++
      "This indicates leaked enter() calls without matching leave() calls."

/-- The state of a guarded walk. -/
structure Guard (κ : Type) where
  limits : Limits
  visiting : List κ := []
  depth : Nat := 0
  iterations : Nat := 0
  exceeded : Bool := false

namespace Guard

variable {κ : Type} {g g' g'' : Guard κ} {n : Nat}

/-- The count of steps stops here: it is kept in 32 bits. -/
def maxCount : Nat := 4294967295

/-- Ask to visit `key`.  Each question counts as a step, whatever the answer. -/
def enter [DecidableEq κ] (g : Guard κ) (key : κ) : Entry × Guard κ :=
  let g := { g with iterations := min (g.iterations + 1) maxCount }
  if g.limits.maxIterations.toNat < g.iterations then (.tooLong, { g with exceeded := true })
  else if key ∈ g.visiting then (.cycle, g)
  else if g.limits.maxDepth.toNat ≤ g.depth then (.tooDeep, { g with exceeded := true })
  else (.entered, { g with visiting := key :: g.visiting, depth := g.depth + 1 })

/-- Stop visiting `key`. -/
def leave [DecidableEq κ] (g : Guard κ) (key : κ) : Except GuardFault (Guard κ) :=
  if key ∈ g.visiting then .ok { g with visiting := g.visiting.erase key, depth := g.depth - 1 }
  else .error .absentKey

/-- Give the guard up. -/
def retire (g : Guard κ) : Except GuardFault Unit :=
  if g.visiting.isEmpty then .ok () else .error (.stillVisiting g.visiting.length)

/-! ## Keeping a guard -/

/-- `g'` is visiting what `g` is, and it has not forgotten a refusal. -/
structure Keeps (g g' : Guard κ) : Prop where
  visiting : g'.visiting = g.visiting
  depth : g'.depth = g.depth
  limits : g'.limits = g.limits
  exceeded : g'.exceeded = false → g.exceeded = false

theorem Keeps.refl (g : Guard κ) : g.Keeps g := ⟨rfl, rfl, rfl, id⟩

theorem Keeps.trans (h : g.Keeps g') (h' : g'.Keeps g'') : g.Keeps g'' :=
  ⟨h'.visiting.trans h.visiting, h'.depth.trans h.depth, h'.limits.trans h.limits, fun he =>
    h.exceeded (h'.exceeded he)⟩

/-- The guard stops a walk before `n` further levels are used up. -/
structure Fits (g : Guard κ) (n : Nat) : Prop where
  fuel : n + g.depth = g.limits.maxDepth.toNat + 1
  room : g.depth ≤ g.limits.maxDepth.toNat

theorem Fits.of_keeps (h : g.Fits n) (hkeeps : g.Keeps g') : g'.Fits n := by
  constructor
  · rw [hkeeps.depth, hkeeps.limits]
    exact h.fuel
  · rw [hkeeps.depth, hkeeps.limits]
    exact h.room

theorem fits_start (limits : Limits) :
    Fits ({ limits } : Guard κ) (limits.maxDepth.toNat + 1) :=
  ⟨rfl, Nat.zero_le _⟩

theorem not_fits_zero (h : g.Fits 0) : False := by
  have := h.fuel
  have := h.room
  omega

/-! ## What an answer tells -/

variable [DecidableEq κ] {key : κ}

/-- The guard has counted a question. -/
def counted (g : Guard κ) : Guard κ := { g with iterations := min (g.iterations + 1) maxCount }

/-- The four answers, each with the tests that lead to it. -/
theorem enter_cases (g : Guard κ) (key : κ) :
    (g.limits.maxIterations.toNat < g.counted.iterations ∧
      g.enter key = (.tooLong, { g.counted with exceeded := true })) ∨
    (g.counted.iterations ≤ g.limits.maxIterations.toNat ∧ key ∈ g.visiting ∧
      g.enter key = (.cycle, g.counted)) ∨
    (g.counted.iterations ≤ g.limits.maxIterations.toNat ∧ key ∉ g.visiting ∧
      g.limits.maxDepth.toNat ≤ g.depth ∧
      g.enter key = (.tooDeep, { g.counted with exceeded := true })) ∨
    (g.counted.iterations ≤ g.limits.maxIterations.toNat ∧ key ∉ g.visiting ∧
      g.depth < g.limits.maxDepth.toNat ∧
      g.enter key = (.entered, { g.counted with visiting := key :: g.visiting, depth := g.depth + 1 })) := by
  simp only [enter, counted]
  split
  · exact .inl ⟨‹_›, rfl⟩
  · rename_i hsteps
    split
    · exact .inr (.inl ⟨Nat.le_of_not_lt hsteps, ‹_›, rfl⟩)
    · rename_i hnew
      split
      · exact .inr (.inr (.inl ⟨Nat.le_of_not_lt hsteps, hnew, ‹_›, rfl⟩))
      · rename_i hroom
        exact .inr (.inr (.inr ⟨Nat.le_of_not_lt hsteps, hnew, Nat.lt_of_not_le hroom, rfl⟩))

/-- Whatever the answer is, the question is counted, and no other key is visited than before. -/
theorem of_enter {e : Entry} (h : g.enter key = (e, g')) :
    g'.iterations = min (g.iterations + 1) maxCount ∧ g'.depth ≤ g.depth + 1 ∧
      g'.visiting ⊆ key :: g.visiting := by
  have hsubset : g.visiting ⊆ key :: g.visiting := List.subset_cons_self ..
  rcases enter_cases g key with ⟨-, heq⟩ | ⟨-, -, heq⟩ | ⟨-, -, -, heq⟩ | ⟨-, -, -, heq⟩ <;>
    obtain ⟨rfl, rfl⟩ := Prod.mk.inj (h.symm.trans heq)
  · exact ⟨rfl, Nat.le_succ _, hsubset⟩
  · exact ⟨rfl, Nat.le_succ _, hsubset⟩
  · exact ⟨rfl, Nat.le_succ _, hsubset⟩
  · exact ⟨rfl, Nat.le_refl _, List.Subset.refl _⟩

/-- A key that is entered is the one visited last, one level below. -/
theorem eq_of_enter (h : g.enter key = (.entered, g')) :
    key ∉ g.visiting ∧ g.depth < g.limits.maxDepth.toNat ∧
      g' = { g.counted with visiting := key :: g.visiting, depth := g.depth + 1 } := by
  rcases enter_cases g key with ⟨-, heq⟩ | ⟨-, -, heq⟩ | ⟨-, -, -, heq⟩ | ⟨-, hnew, hroom, heq⟩
  · cases h.symm.trans heq
  · cases h.symm.trans heq
  · cases h.symm.trans heq
  · exact ⟨hnew, hroom, (Prod.mk.inj (h.symm.trans heq)).2⟩

/-- A new key is entered while there are steps and levels left. -/
theorem enter_eq_entered (hsteps : g.iterations < g.limits.maxIterations.toNat)
    (hnew : key ∉ g.visiting) (hroom : g.depth < g.limits.maxDepth.toNat) : g.enter key =
      (.entered, { g.counted with visiting := key :: g.visiting, depth := g.depth + 1 }) := by
  rcases enter_cases g key with ⟨hlong, -⟩ | ⟨-, hmem, -⟩ | ⟨-, -, hdeep, -⟩ | ⟨-, -, -, heq⟩
  · exact absurd (Nat.lt_of_lt_of_le hlong (Nat.min_le_left ..)) (Nat.not_lt_of_le hsteps)
  · exact absurd hmem hnew
  · exact absurd hroom (Nat.not_lt_of_le hdeep)
  · exact heq

/-- A key that is entered was not being visited, and the walk goes one level deeper. -/
theorem of_enter_eq_entered (h : g.enter key = (.entered, g')) :
    key ∉ g.visiting ∧ g'.visiting = key :: g.visiting ∧ g'.exceeded = g.exceeded ∧
      (∀ n, g.Fits (n + 1) → g'.Fits n) := by
  obtain ⟨hnew, hroom, rfl⟩ := eq_of_enter h
  refine ⟨hnew, rfl, rfl, fun n hfits => ⟨?_, hroom⟩⟩
  rw [counted, ← hfits.fuel]
  exact (Nat.succ_add_eq_add_succ ..).symm

/-- A key that is not entered is being visited, unless the guard has reached a limit. -/
theorem of_enter_ne_entered {e : Entry} (h : g.enter key = (e, g')) (he : e ≠ .entered) :
    g.Keeps g' ∧ (e = .cycle ∧ key ∈ g.visiting ∨ e ≠ .cycle ∧ g'.exceeded = true) := by
  rcases enter_cases g key with ⟨-, heq⟩ | ⟨-, hmem, heq⟩ | ⟨-, -, -, heq⟩ | ⟨-, -, -, heq⟩ <;>
    obtain ⟨rfl, rfl⟩ := Prod.mk.inj (h.symm.trans heq)
  · exact ⟨⟨rfl, rfl, rfl, nofun⟩, .inr ⟨nofun, rfl⟩⟩
  · exact ⟨⟨rfl, rfl, rfl, id⟩, .inl ⟨rfl, hmem⟩⟩
  · exact ⟨⟨rfl, rfl, rfl, nofun⟩, .inr ⟨nofun, rfl⟩⟩
  · exact absurd rfl he

/-! ## Leaving what was entered -/

theorem mem_visiting_of_enter (h : g.enter key = (.entered, g')) : key ∈ g'.visiting := by
  obtain ⟨-, -, rfl⟩ := eq_of_enter h
  exact List.mem_cons_self

/-- Leaving the key that was just entered only leaves the step behind. -/
theorem leave_of_enter (h : g.enter key = (.entered, g')) :
    g'.leave key = .ok { g with iterations := min (g.iterations + 1) maxCount } := by
  rw [leave, if_pos (mem_visiting_of_enter h)]
  obtain ⟨-, -, rfl⟩ := eq_of_enter h
  simp [counted]

/-- A walk that has kept the guard since it entered a key may leave the key. -/
theorem exists_leave_eq_ok (henter : g.enter key = (.entered, g')) (hkeeps : g'.Keeps g'') :
    ∃ left, g''.leave key = .ok left ∧ g.Keeps left ∧ left.exceeded = g''.exceeded := by
  obtain ⟨-, -, rfl⟩ := eq_of_enter henter
  have hvisiting : g''.visiting = key :: g.visiting := hkeeps.visiting
  refine ⟨_, if_pos (hvisiting ▸ List.mem_cons_self), ⟨?_, ?_, hkeeps.limits, hkeeps.exceeded⟩, rfl⟩
  · change g''.visiting.erase key = g.visiting
    rw [hvisiting, List.erase_cons_head]
  · change g''.depth - 1 = g.depth
    rw [hkeeps.depth]
    rfl

theorem leave_iterations (h : g.leave key = .ok g') : g'.iterations = g.iterations := by
  unfold leave at h
  split at h <;> cases h
  rfl

theorem leave_limits (h : g.leave key = .ok g') : g'.limits = g.limits := by
  unfold leave at h
  split at h <;> cases h
  rfl

end Guard

end Generics
