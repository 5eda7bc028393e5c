import Generics.Names
import Generics.Proofs.HashConsing
import Mathlib.Data.Finset.Card
import Mathlib.Data.List.Dedup

/-!
# Interned names

However many names are interned, the handles and the distinct names stay inverse to each other: a new name
is given the next handle, a known one the handle that it has, and no handle ever stands for another name.
The empty name is as good as interned first.
-/

namespace Generics

namespace Names

/-- Intern names one after the other: their handles, and the table in the end. -/
def internAll (ns : Names) : List String → List Atom × Names
  | [] => ([], ns)
  | text :: texts =>
    let (a, ns) := ns.intern text
    let (as, ns) := ns.internAll texts
    (a :: as, ns)

variable {texts : List String} {a : Atom} {i : Nat}

theorem internAll_eq (ns : Names) (texts : List String) :
    ns.internAll texts =
      ((ns.texts.internAll texts).1.map Atom.mk, ⟨(ns.texts.internAll texts).2⟩) := by
  induction texts generalizing ns with
  | nil => rfl
  | cons text texts ih => simp only [internAll, ih, InternTable.internAll_cons, List.map_cons, intern]

/-- The table that a series of calls ends with. -/
theorem internAll_initial_snd (texts : List String) :
    (initial.internAll texts).2 = ⟨(InternTable.empty.internAll ("" :: texts)).2⟩ := by
  rw [internAll_eq]
  rfl

theorem internAll_initial_fst (texts : List String) :
    (initial.internAll texts).1 =
      ((InternTable.empty.internAll ("" :: texts)).1.map Atom.mk).tail := by
  rw [internAll_eq]
  rfl

/-- The handle of a call is the number that the name gets after the empty one. -/
theorem getElem?_internAll_initial (h : (initial.internAll texts).1[i]? = some a) :
    (InternTable.empty.internAll ("" :: texts)).1[i + 1]? = some a.val := by
  rw [internAll_initial_fst, List.getElem?_tail, List.getElem?_map, Option.map_eq_some_iff] at h
  obtain ⟨k, hk, rfl⟩ := h
  exact hk

theorem mem_internAll_initial (h : a ∈ (initial.internAll texts).1) :
    a.val ∈ (InternTable.empty.internAll ("" :: texts)).1 := by
  obtain ⟨i, hi⟩ := List.mem_iff_getElem?.1 h
  exact List.mem_of_getElem? (getElem?_internAll_initial hi)

theorem toList_internAll_initial (texts : List String) :
    (initial.internAll texts).2.texts.toList = ("" :: texts).eraseDups := by
  rw [internAll_initial_snd]
  exact InternTable.toList_internAll_empty _

theorem internAll_initial_eq_map (texts : List String) :
    (initial.internAll texts).1 = texts.map fun s => ⟨("" :: texts).eraseDups.idxOf s⟩ := by
  rw [internAll_initial_fst, InternTable.internAll_empty_fst, List.map_cons, List.map_cons,
    List.tail_cons, List.map_map]
  rfl

/-- Beside the empty name the table holds what was interned. -/
theorem size_internAll_initial (texts : List String) :
    (initial.internAll texts).2.size = (texts.toFinset.erase "").card + 1 := by
  have hset : (initial.internAll texts).2.texts.toList.toFinset = insert "" (texts.toFinset.erase "") := by
    rw [toList_internAll_initial]
    ext s
    by_cases hs : s = "" <;> simp [hs]
  calc (initial.internAll texts).2.size
    _ = (initial.internAll texts).2.texts.toList.length := Array.length_toList.symm
    _ = (initial.internAll texts).2.texts.toList.toFinset.card :=
      (List.toFinset_card_of_nodup (InternTable.nodup_toList _)).symm
    _ = (insert "" (texts.toFinset.erase "")).card := by rw [hset]
    _ = (texts.toFinset.erase "").card + 1 :=
      Finset.card_insert_of_notMem (Finset.notMem_erase "" _)

/-- Names and handles are in a stable one-to-one correspondence, after any series of calls. -/
theorem internAll_initial_exact (texts : List String) :
    (initial.internAll texts).2.get? .empty = some "" ∧
    -- the handles are 0, 1, 2, ..., in order of first occurrence behind the empty name
    (initial.internAll texts).2.texts.toList = ("" :: texts).eraseDups ∧
    (initial.internAll texts).1 = texts.map (fun s => ⟨("" :: texts).eraseDups.idxOf s⟩) ∧
    (texts.length < UInt32.size → ∀ a ∈ (initial.internAll texts).1, a.val < UInt32.size) ∧
    -- a handle is read back when it is handed out and after all later calls
    (∀ (i j : Nat) (s : String) (a : Atom), texts[i]? = some s →
      (initial.internAll texts).1[i]? = some a → i < j →
      (initial.internAll (texts.take j)).2.get? a = some s) ∧
    (∀ (i j : Nat) (s s' : String) (a b : Atom), texts[i]? = some s → texts[j]? = some s' →
      (initial.internAll texts).1[i]? = some a → (initial.internAll texts).1[j]? = some b →
      (a = b ↔ s = s')) ∧
    (∀ a, (initial.internAll texts).2.get? a = none ↔ (initial.internAll texts).2.size ≤ a.val) ∧
    (initial.internAll texts).2.size = (texts.toFinset.erase "").card + 1 := by
  refine ⟨?empty, toList_internAll_initial texts, internAll_initial_eq_map texts, ?bound, ?read, ?equal,
    fun a => InternTable.get?_eq_none_iff _ a.val, size_internAll_initial texts⟩
  case empty =>
    rw [internAll_eq]
    exact InternTable.get?_internAll (InternTable.get?_intern_self .empty "")
  case bound =>
    intro hlen a ha
    obtain ⟨s, -, hs⟩ := exists_of_mem_right (InternTable.forall₂_internAll .empty ("" :: texts))
      (mem_internAll_initial ha)
    calc a.val
      _ < (InternTable.empty.internAll ("" :: texts)).2.size := InternTable.lt_size_of_get? hs
      _ ≤ texts.length + 1 := InternTable.size_internAll_le _
      _ ≤ UInt32.size := hlen
  case read =>
    intro i j s a hs ha hij
    have hs' : ("" :: texts)[i + 1]? = some s := hs
    have hread := InternTable.get?_internAll_take hs' (getElem?_internAll_initial ha) (Nat.succ_lt_succ hij)
    rw [internAll_initial_snd]
    exact hread
  case equal =>
    intro i j s s' a b hs hs' ha hb
    have hs : ("" :: texts)[i + 1]? = some s := hs
    have hs' : ("" :: texts)[j + 1]? = some s' := hs'
    calc a = b
      _ ↔ a.val = b.val := ⟨congrArg _, congrArg Atom.mk⟩
      _ ↔ s = s' := InternTable.internAll_eq_iff hs hs' (getElem?_internAll_initial ha)
        (getElem?_internAll_initial hb)

/-- The same handle for the same name, and 0 for the empty one. -/
theorem internAll_initial_exact_repeating :
    let texts := ["Repository", "", "Customer", "Repository"]
    (initial.internAll texts).1 = [⟨1⟩, ⟨0⟩, ⟨2⟩, ⟨1⟩] ∧
      (texts.length < UInt32.size ∧ ∀ a ∈ (initial.internAll texts).1, a.val < UInt32.size) ∧
      (initial.internAll texts).2.size = 3 := by
  intro texts
  obtain ⟨-, -, hatoms, hbound, -, -, -, hsize⟩ := internAll_initial_exact texts
  exact ⟨hatoms.trans (by decide +kernel), ⟨by decide, hbound (by decide)⟩,
    hsize.trans (by decide +kernel)⟩

end Names

end Generics
