import Std.Data.TreeMap

/-!
# Intern tables

An intern table gives each distinct value one number, in order of first occurrence.  The array
`values` reads a number back, the search tree `index` finds the number of a value, and the type says
that they are inverse to each other.  Numbers are never reused: a table only grows.
-/

namespace Generics

/-- Distinct values numbered from 0 in order of first occurrence. -/
structure InternTable (α : Type) [Ord α] [Std.TransOrd α] [Std.LawfulEqOrd α] where
  index : Std.TreeMap α Nat
  values : Array α
  index_eq_some_iff : ∀ (a : α) (i : Nat), index[a]? = some i ↔ values[i]? = some a

namespace InternTable

variable {α : Type} [Ord α] [Std.TransOrd α] [Std.LawfulEqOrd α]

/-- The table without values. -/
def empty : InternTable α := ⟨∅, #[], by simp⟩

/-- How many values the table holds. -/
def size (t : InternTable α) : Nat := t.values.size

/-- The value with number `i`. -/
def get? (t : InternTable α) (i : Nat) : Option α := t.values[i]?

/-- The number of the value `a`. -/
def find? (t : InternTable α) (a : α) : Option Nat := t.index[a]?

theorem find?_eq_some_iff (t : InternTable α) (a : α) (i : Nat) :
    t.find? a = some i ↔ t.get? i = some a :=
  t.index_eq_some_iff a i

theorem get?_eq_none_iff (t : InternTable α) (i : Nat) : t.get? i = none ↔ t.size ≤ i :=
  Array.getElem?_eq_none_iff

theorem get?_ne_some_of_find? {t : InternTable α} {a : α} (h : t.find? a = none) (i : Nat) :
    t.get? i ≠ some a := by
  rw [ne_eq, ← t.find?_eq_some_iff, h]
  exact nofun

/-- Append a value that the table does not hold. -/
def push (t : InternTable α) (a : α) (h : t.find? a = none) : InternTable α where
  index := t.index.insert a t.values.size
  values := t.values.push a
  index_eq_some_iff b i := by
    have hb : ∀ j, t.values[j]? ≠ some a := get?_ne_some_of_find? h
    simp only [Std.TreeMap.getElem?_insert, Array.getElem?_push, Std.LawfulEqCmp.compare_eq_iff_eq]
    by_cases hab : a = b
    · subst hab
      by_cases hi : i = t.values.size <;> grind
    · have := t.index_eq_some_iff b i
      have hlt : ∀ x, t.values[i]? = some x → i < t.values.size := fun x hx =>
        (Array.getElem?_eq_some_iff.1 hx).1
      by_cases hi : i = t.values.size <;> grind

/-- The number of `a`, which is appended when it is new. -/
def intern (t : InternTable α) (a : α) : Nat × InternTable α :=
  match h : t.find? a with
  | some i => (i, t)
  | none => (t.size, t.push a h)

/-! ## What interning does to the table -/

theorem get?_push (t : InternTable α) (a : α) (h : t.find? a = none) (i : Nat) :
    (t.push a h).get? i = if i = t.size then some a else t.get? i :=
  Array.getElem?_push

theorem intern_of_find?_eq_some {t : InternTable α} {a : α} {i : Nat} (h : t.find? a = some i) :
    t.intern a = (i, t) := by
  unfold intern
  split <;> simp_all

theorem intern_of_find?_eq_none {t : InternTable α} {a : α} (h : t.find? a = none) :
    t.intern a = (t.size, t.push a h) := by
  unfold intern
  split <;> simp_all

theorem get?_intern_self (t : InternTable α) (a : α) :
    (t.intern a).2.get? (t.intern a).1 = some a := by
  cases h : t.find? a with
  | none => rw [intern_of_find?_eq_none h, get?_push, if_pos rfl]
  | some i =>
    rw [intern_of_find?_eq_some h]
    exact (t.find?_eq_some_iff a i).1 h

theorem get?_intern_of_lt {t : InternTable α} (a : α) {i : Nat} (h : i < t.size) :
    (t.intern a).2.get? i = t.get? i := by
  cases ha : t.find? a with
  | none => rw [intern_of_find?_eq_none ha, get?_push, if_neg (Nat.ne_of_lt h)]
  | some j => rw [intern_of_find?_eq_some ha]

/-- What is read after interning was there before, or it is the new value. -/
theorem get?_intern_cases (t : InternTable α) {a b : α} {i : Nat}
    (h : (t.intern a).2.get? i = some b) : t.get? i = some b ∨ t.size ≤ i ∧ b = a := by
  cases ha : t.find? a with
  | some j =>
    rw [intern_of_find?_eq_some ha] at h
    exact .inl h
  | none =>
    rw [intern_of_find?_eq_none ha, get?_push] at h
    split at h
    · rename_i hi
      exact .inr ⟨Nat.le_of_eq hi.symm, (Option.some.inj h).symm⟩
    · exact .inl h

theorem lt_size_of_get? {t : InternTable α} {i : Nat} {a : α} (h : t.get? i = some a) :
    i < t.size :=
  (Array.getElem?_eq_some_iff.1 h).1

/-- No value has two numbers. -/
theorem eq_of_get?_eq_some {t : InternTable α} {i j : Nat} {a : α} (hi : t.get? i = some a)
    (hj : t.get? j = some a) : i = j :=
  Option.some.inj <| ((t.find?_eq_some_iff a i).2 hi).symm.trans ((t.find?_eq_some_iff a j).2 hj)

/-! ## An intern table as an ordered set -/

/-- Whether `a` has a number. -/
def contains (t : InternTable α) (a : α) : Bool := (t.find? a).isSome

/-- Add a value; one that is there already keeps its place. -/
def insert (t : InternTable α) (a : α) : InternTable α := (t.intern a).2

/-- The values in order of first occurrence. -/
def toList (t : InternTable α) : List α := t.values.toList

theorem getElem?_toList (t : InternTable α) (i : Nat) : t.toList[i]? = t.get? i :=
  Array.getElem?_toList

theorem contains_iff_mem_toList (t : InternTable α) (a : α) : t.contains a ↔ a ∈ t.toList := by
  rw [contains, Option.isSome_iff_exists, List.mem_iff_getElem?]
  exact exists_congr fun i => by rw [t.find?_eq_some_iff, getElem?_toList]

theorem toList_insert (t : InternTable α) (a : α) :
    (t.insert a).toList = if t.contains a then t.toList else t.toList ++ [a] := by
  cases h : t.find? a with
  | none => simp [insert, intern_of_find?_eq_none h, contains, h, toList, push]
  | some i => simp [insert, intern_of_find?_eq_some h, contains, h]

theorem mem_toList_insert {t : InternTable α} {a b : α} :
    b ∈ (t.insert a).toList ↔ b = a ∨ b ∈ t.toList := by
  rw [toList_insert]
  split
  · rename_i h
    rw [contains_iff_mem_toList] at h
    exact ⟨.inr, fun hb => hb.elim (fun hb => hb ▸ h) id⟩
  · rw [List.mem_append, List.mem_singleton, or_comm]

theorem nodup_toList (t : InternTable α) : t.toList.Nodup :=
  List.pairwise_iff_getElem.2 fun i j hi hj hij h =>
    Nat.ne_of_lt hij <| t.eq_of_get?_eq_some
      ((t.getElem?_toList i).symm.trans (List.getElem?_eq_getElem hi))
      ((t.getElem?_toList j).symm.trans (h ▸ List.getElem?_eq_getElem hj))

end InternTable

end Generics
