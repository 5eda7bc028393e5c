import Generics.Guard
import Mathlib.Data.List.Nodup

/-!
# Histories of guards

A guard is asked to enter keys and to leave them, in any order and however often, and a fault in leaving is
survived.  At every moment its state is what the history of questions and answers says: the keys visited
are those that were entered and not left since, the depth is their number, each question to enter has
counted as a step, and a refusal is remembered.  So the history decides on the next answer too.
-/

namespace Generics

namespace Guard

/-- What may be asked of a guard. -/
inductive Action (κ : Type)
  | enter (key : κ)
  | leave (key : κ)
  deriving DecidableEq

/-- What a guard answers. -/
inductive Reply
  | entry (e : Entry)
  | left
  | fault (f : GuardFault)
  deriving DecidableEq

/-- The questions to a guard, each with its answer. -/
abbrev History (κ : Type) := List (Action κ × Reply)

variable {κ : Type}

def Action.isEnter : Action κ → Bool
  | enter _ => true
  | leave _ => false

/-! ## Runs -/

section

variable [DecidableEq κ] {g : Guard κ} {key : κ}

/-- Leave `key` and survive a fault: the key is taken out first, and what has been done up to the fault
stays done. -/
def tryLeave (g : Guard κ) (key : κ) : Option GuardFault × Guard κ :=
  let taken := { g with visiting := g.visiting.erase key }
  if key ∈ g.visiting then (none, { taken with depth := taken.depth - 1 })
  else (some .absentKey, taken)

def perform (g : Guard κ) : Action κ → Reply × Guard κ
  | .enter key => (.entry (g.enter key).1, (g.enter key).2)
  | .leave key => ((g.tryLeave key).1.elim .left .fault, (g.tryLeave key).2)

/-- Ask one question after the other: the history, and the guard in the end. -/
def run (g : Guard κ) : List (Action κ) → History κ × Guard κ
  | [] => ([], g)
  | a :: as =>
    let (reply, g) := g.perform a
    let (history, g) := g.run as
    ((a, reply) :: history, g)

/-- A fault comes before any change: nothing is taken out where the key is absent. -/
theorem perform_leave (g : Guard κ) (key : κ) :
    g.perform (.leave key) = match g.leave key with
      | .ok left => (.left, left)
      | .error f => (.fault f, g) := by
  simp only [perform, tryLeave, leave]
  split
  · rfl
  · rename_i habsent
    rw [List.erase_of_not_mem habsent]
    rfl

theorem leave_eq_error_iff : (∃ f, g.leave key = .error f) ↔ key ∉ g.visiting := by
  unfold leave
  split
  · simp [*]
  · simp [*]

theorem run_append (g : Guard κ) (as bs : List (Action κ)) :
    g.run (as ++ bs) = ((g.run as).1 ++ ((g.run as).2.run bs).1, ((g.run as).2.run bs).2) := by
  induction as generalizing g with
  | nil => rfl
  | cons a as ih => simp only [List.cons_append, run, ih]

theorem run_singleton (g : Guard κ) (a : Action κ) :
    g.run [a] = ([(a, (g.perform a).1)], (g.perform a).2) :=
  rfl

/-- The guard with the limits `limits` after the questions `as`. -/
def after (limits : Limits) (as : List (Action κ)) : Guard κ := (run { limits } as).2

/-- The questions `as` to a guard with the limits `limits`, and their answers. -/
def historyOf (limits : Limits) (as : List (Action κ)) : History κ := (run { limits } as).1

/-- The history holds the questions as they were asked. -/
theorem map_fst_run (g : Guard κ) (as : List (Action κ)) : (g.run as).1.map Prod.fst = as := by
  induction as generalizing g with
  | nil => rfl
  | cons a as ih => simp only [run, List.map_cons, ih]

end

/-! ## What the history says -/

/-- `key` was entered and has not been left since. -/
def Pending (history : History κ) (key : κ) : Prop :=
  ∃ before after, history = before ++ (.enter key, .entry .entered) :: after ∧
    (.leave key, .left) ∉ after

/-- Some key was refused because the walk was too deep or too long. -/
def Refused (history : History κ) : Prop :=
  ∃ key e, (.enter key, .entry e) ∈ history ∧ (e = .tooDeep ∨ e = .tooLong)

/-- How often a key was to be entered. -/
def asked (history : History κ) : Nat := history.countP fun x => x.1.isEnter

/-- The state of the guard is what the history says. -/
structure Accounts (limits : Limits) (history : History κ) (g : Guard κ) : Prop where
  limits_eq : g.limits = limits
  visiting : ∀ key, key ∈ g.visiting ↔ Pending history key
  nodup : g.visiting.Nodup
  depth : g.depth = g.visiting.length
  room : g.depth ≤ limits.maxDepth.toNat
  iterations : g.iterations = min (asked history) maxCount
  exceeded : g.exceeded = true ↔ Refused history

variable {limits : Limits} {history : History κ} {g : Guard κ} {key : κ} {x : Action κ × Reply} {e : Entry}

theorem not_pending_nil (key : κ) : ¬Pending [] key := by
  rintro ⟨before, after, heq, -⟩
  simp at heq

/-- Only the answers about a key decide whether it is pending, and the last of them does. -/
theorem pending_append_singleton : Pending (history ++ [x]) key ↔
    x = (.enter key, .entry .entered) ∨ Pending history key ∧ x ≠ (.leave key, .left) := by
  constructor
  · rintro ⟨before, after, heq, hafter⟩
    rcases after.eq_nil_or_concat' with rfl | ⟨after, y, rfl⟩
    · exact .inl (List.singleton_inj.1 (List.append_inj' heq rfl).2)
    · rw [← List.cons_append, ← List.append_assoc] at heq
      obtain ⟨hhistory, hx⟩ := List.append_inj' heq rfl
      rw [List.mem_append, List.mem_singleton, not_or] at hafter
      rw [List.singleton_inj.1 hx]
      exact .inr ⟨⟨before, after, hhistory, hafter.1⟩, Ne.symm hafter.2⟩
  · rintro (rfl | ⟨⟨before, after, rfl, hafter⟩, hx⟩)
    · exact ⟨history, [], rfl, List.not_mem_nil⟩
    · refine ⟨before, after ++ [x], by simp, ?_⟩
      rw [List.mem_append, List.mem_singleton, not_or]
      exact ⟨hafter, Ne.symm hx⟩

theorem refused_append_enter : Refused (history ++ [(.enter key, .entry e)]) ↔
    Refused history ∨ e = .tooDeep ∨ e = .tooLong := by
  simp [Refused, or_and_right, exists_or]

theorem refused_append_leave {r : Reply} :
    Refused (history ++ [(.leave key, r)]) ↔ Refused history := by
  simp [Refused]

theorem asked_append_enter {r : Reply} : asked (history ++ [(.enter key, r)]) = asked history + 1 := by
  simp [asked, Action.isEnter]

theorem asked_append_leave {r : Reply} : asked (history ++ [(.leave key, r)]) = asked history := by
  simp [asked, Action.isEnter]

theorem accounts_start (limits : Limits) : Accounts limits [] ({ limits } : Guard κ) where
  limits_eq := rfl
  visiting key := by simp [not_pending_nil]
  nodup := List.nodup_nil
  depth := rfl
  room := Nat.zero_le _
  iterations := rfl
  exceeded := by simp [Refused]

namespace Accounts

theorem iterations_counted (h : Accounts limits history g) (key : κ) (r : Reply) :
    g.counted.iterations = min (asked (history ++ [(.enter key, r)])) maxCount := by
  simp only [counted, h.iterations, asked_append_enter]
  omega

/-- A key that is not let in changes the count, and the flag if a limit was reached. -/
theorem refuse {b : Bool} (h : Accounts limits history g) (he : e ≠ .entered)
    (hb : b = true ↔ g.exceeded = true ∨ e = .tooDeep ∨ e = .tooLong) :
    Accounts limits (history ++ [(.enter key, .entry e)]) { g.counted with exceeded := b } where
  limits_eq := h.limits_eq
  visiting other := by
    rw [pending_append_singleton, ← h.visiting]
    simp [he, counted]
  nodup := h.nodup
  depth := h.depth
  room := h.room
  iterations := h.iterations_counted key (.entry e)
  exceeded := by rw [hb, h.exceeded, refused_append_enter]

variable [DecidableEq κ]

theorem enter (h : Accounts limits history g) (key : κ) :
    Accounts limits (history ++ [(.enter key, .entry (g.enter key).1)]) (g.enter key).2 := by
  rcases enter_cases g key with ⟨-, heq⟩ | ⟨-, -, heq⟩ | ⟨-, -, -, heq⟩ | ⟨-, hnew, hroom, heq⟩ <;>
    rw [heq]
  · exact h.refuse nofun (by simp)
  · exact h.refuse nofun (by simp)
  · exact h.refuse nofun (by simp)
  · refine ⟨h.limits_eq, fun other => ?_, List.nodup_cons.2 ⟨hnew, h.nodup⟩, ?_, ?_,
      h.iterations_counted key (.entry .entered), ?_⟩
    · rw [pending_append_singleton, ← h.visiting]
      simp [eq_comm]
    · simp [h.depth]
    · exact h.limits_eq ▸ hroom
    · rw [refused_append_enter, ← h.exceeded]
      simp [counted]

/-- A key that is left is not pending any more; a fault tells nothing of any key. -/
theorem leave (h : Accounts limits history g) (key : κ) :
    Accounts limits (history ++ [(.leave key, (g.perform (.leave key)).1)])
      (g.perform (.leave key)).2 := by
  rw [perform_leave, Guard.leave]
  by_cases hmem : key ∈ g.visiting
  · rw [if_pos hmem]
    refine ⟨h.limits_eq, fun other => ?_, h.nodup.erase key, ?_, Nat.le_trans (Nat.sub_le ..) h.room,
      ?_, h.exceeded.trans refused_append_leave.symm⟩
    · rw [pending_append_singleton, ← h.visiting, h.nodup.mem_erase_iff]
      simp [and_comm, eq_comm]
    · rw [List.length_erase_of_mem hmem, h.depth]
    · rw [asked_append_leave, h.iterations]
  · rw [if_neg hmem]
    refine ⟨h.limits_eq, fun other => ?_, h.nodup, h.depth, h.room, ?_,
      h.exceeded.trans refused_append_leave.symm⟩
    · rw [pending_append_singleton, ← h.visiting]
      simp
    · rw [asked_append_leave, h.iterations]

/-- One question. -/
theorem perform (h : Accounts limits history g) (a : Action κ) :
    Accounts limits (history ++ [(a, (g.perform a).1)]) (g.perform a).2 := by
  cases a with
  | enter key => exact h.enter key
  | leave key => exact h.leave key

/-- All questions, by induction on them. -/
theorem run (h : Accounts limits history g) (as : List (Action κ)) :
    Accounts limits (history ++ (g.run as).1) (g.run as).2 := by
  induction as generalizing history g with
  | nil => simpa [Guard.run] using h
  | cons a as ih => simpa [Guard.run] using ih (h.perform a)

/-- The next answer: the count of steps decides first, then the keys visited, then the depth.  A count
that stops at the largest number never passes that number. -/
theorem enter_eq (h : Accounts limits history g) (key : κ) : (g.enter key).1 =
    if limits.maxIterations.toNat < asked history + 1 ∧
      limits.maxIterations.toNat < UInt32.size - 1 then .tooLong
    else if key ∈ g.visiting then .cycle
    else if g.depth = limits.maxDepth.toNat then .tooDeep
    else .entered := by
  have hlong : g.limits.maxIterations.toNat < g.counted.iterations ↔
      limits.maxIterations.toNat < asked history + 1 ∧
        limits.maxIterations.toNat < UInt32.size - 1 := by
    simp only [counted, h.iterations, h.limits_eq, maxCount, UInt32.size]
    omega
  have hroom := h.room
  rw [← h.limits_eq] at hroom hlong ⊢
  rcases enter_cases g key with ⟨hsteps, heq⟩ | ⟨hsteps, hmem, heq⟩ | ⟨hsteps, hnew, hdeep, heq⟩ |
    ⟨hsteps, hnew, hless, heq⟩ <;> rw [heq]
  · rw [if_pos (hlong.1 hsteps)]
  all_goals rw [if_neg fun h => Nat.not_lt_of_le hsteps (hlong.2 h)]
  · rw [if_pos hmem]
  · rw [if_neg hnew, if_pos (Nat.le_antisymm hroom hdeep)]
  · rw [if_neg hnew, if_neg (Nat.ne_of_lt hless)]

end Accounts

variable [DecidableEq κ]

theorem accounts_after (limits : Limits) (as : List (Action κ)) :
    Accounts limits (historyOf limits as) (after limits as) :=
  (accounts_start limits).run as

theorem asked_historyOf (limits : Limits) (as : List (Action κ)) :
    asked (historyOf limits as) = as.countP Action.isEnter := by
  calc asked (historyOf limits as)
    _ = ((historyOf limits as).map Prod.fst).countP Action.isEnter := by
      rw [List.countP_map]
      rfl
    _ = as.countP Action.isEnter := by rw [historyOf, map_fst_run]

/-- A guard is what its history says.  After any questions `as`, with all faults survived, it visits the
keys that were entered and not left since; its depth is their number and within its limit.  What was
answered stays in the history, and the next key to enter is answered by the count of such questions, the
keys visited and the depth, in this order.  To leave fails for the absent keys, and then the guard is as
before.  A limit has been exceeded if a key was refused for it, and giving the guard up is a fault if it
visits a key. -/
theorem state_by_history (limits : Limits) (as : List (Action κ)) :
    (∀ key, key ∈ (after limits as).visiting ↔ Pending (historyOf limits as) key) ∧
    (after limits as).visiting.Nodup ∧
    (after limits as).depth = (after limits as).visiting.length ∧
    (after limits as).depth ≤ limits.maxDepth.toNat ∧
    (∀ bs, historyOf limits as <+: historyOf limits (as ++ bs)) ∧
    (∀ key, historyOf limits (as ++ [.enter key]) = historyOf limits as ++ [(.enter key, .entry
      (if limits.maxIterations.toNat < as.countP Action.isEnter + 1 ∧
          limits.maxIterations.toNat < UInt32.size - 1 then .tooLong
        else if key ∈ (after limits as).visiting then .cycle
        else if (after limits as).depth = limits.maxDepth.toNat then .tooDeep
        else .entered))]) ∧
    (∀ key, (∃ f, (after limits as).leave key = .error f) ↔ key ∉ (after limits as).visiting) ∧
    (∀ key, run { limits } (as ++ [.leave key]) =
      match (after limits as).leave key with
      | .ok left => (historyOf limits as ++ [(.leave key, .left)], left)
      | .error f => (historyOf limits as ++ [(.leave key, .fault f)], after limits as)) ∧
    ((after limits as).exceeded = true ↔ Refused (historyOf limits as)) ∧
    (after limits as).retire =
      if (after limits as).visiting = [] then .ok ()
      else .error (.stillVisiting (after limits as).depth) := by
  have h := accounts_after limits as
  refine ⟨h.visiting, h.nodup, h.depth, h.room, fun bs => ?continued, fun key => ?enter,
    fun key => leave_eq_error_iff, fun key => ?leave, h.exceeded, ?retire⟩
  case continued =>
    rw [historyOf, historyOf, run_append]
    exact List.prefix_append ..
  case enter =>
    rw [← asked_historyOf limits as, ← h.enter_eq key, historyOf, run_append, run_singleton]
    rfl
  case leave =>
    rw [run_append, ← after, ← historyOf, run_singleton, perform_leave]
    cases (after limits as).leave key <;> rfl
  case retire =>
    rw [retire, h.depth]
    simp only [List.isEmpty_iff]

/-- An absent key is left, and a key is refused: neither changes what is visited. -/
example : (run { limits := ⟨2, 100⟩ } [.enter 1, .leave 3, .enter 2, .enter 3, .enter 1, .leave 2]).1.map
    Prod.snd = [.entry .entered, .fault .absentKey, .entry .entered, .entry .tooDeep, .entry .cycle,
      .left] := by
  decide

end Guard

end Generics
