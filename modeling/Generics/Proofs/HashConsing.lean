import Generics.Proofs.Unfolding
import Mathlib.Data.List.Nodup

/-!
# Hash-consing

Interning a sequence of values into an empty table numbers them in order of first occurrence, and
what a number stands for never changes.  For types this makes the comparison of two handles a
comparison of two trees: a node that is interned after its arguments unfolds to a finite tree, and no
tree has two handles.
-/

namespace Generics

namespace InternTable

variable {α : Type} [Ord α] [Std.TransOrd α] [Std.LawfulEqOrd α]

/-- Intern values one after the other: their numbers, and the table in the end. -/
def internAll (t : InternTable α) : List α → List Nat × InternTable α
  | [] => ([], t)
  | a :: as =>
    let (i, t) := t.intern a
    let (is, t) := t.internAll as
    (i :: is, t)

variable {t : InternTable α} {a : α} {as : List α} {i : Nat}

@[simp]
theorem internAll_nil (t : InternTable α) : t.internAll [] = ([], t) := rfl

@[simp]
theorem internAll_cons (t : InternTable α) (a : α) (as : List α) :
    t.internAll (a :: as) =
      ((t.intern a).1 :: ((t.intern a).2.internAll as).1, ((t.intern a).2.internAll as).2) :=
  rfl

/-- The first numbers are those of the first values. -/
theorem take_internAll (t : InternTable α) (as : List α) (n : Nat) :
    (t.internAll (as.take n)).1 = (t.internAll as).1.take n := by
  induction as generalizing t n with
  | nil => simp
  | cons a as ih => cases n with
    | zero => simp
    | succ n => simp [ih]

theorem get?_internAll (h : t.get? i = some a) : (t.internAll as).2.get? i = some a := by
  induction as generalizing t with
  | nil => exact h
  | cons b as ih => exact ih ((get?_intern_of_lt b (lt_size_of_get? h)).trans h)

/-- Each value is read back from its number. -/
theorem forall₂_internAll (t : InternTable α) (as : List α) :
    List.Forall₂ (fun a i => (t.internAll as).2.get? i = some a) as (t.internAll as).1 := by
  induction as generalizing t with
  | nil => exact .nil
  | cons a as ih =>
    rw [internAll_cons]
    exact .cons (get?_internAll (t.get?_intern_self a)) (ih _)

/-- Interning appends the new values in order of first occurrence. -/
theorem toList_internAll [DecidableEq α] (t : InternTable α) (as : List α) :
    (t.internAll as).2.toList = t.toList ++ (as.removeAll t.toList).eraseDups := by
  induction as generalizing t with
  | nil => simp
  | cons a as ih =>
    rw [internAll_cons, ih, show (t.intern a).2 = t.insert a from rfl, toList_insert,
      append_eraseDups_cons]
    simp only [contains_iff_mem_toList]
    split <;> rfl

theorem toList_internAll_empty [DecidableEq α] (as : List α) :
    ((empty : InternTable α).internAll as).2.toList = as.eraseDups := by
  rw [toList_internAll, show (empty : InternTable α).toList = [] from rfl, List.removeAll_nil,
    List.nil_append]

theorem idxOf_toList [DecidableEq α] (h : t.get? i = some a) : t.toList.idxOf a = i := by
  rw [← getElem?_toList, List.getElem?_eq_some_iff] at h
  obtain ⟨hi, rfl⟩ := h
  exact t.nodup_toList.idxOf_getElem i hi

/-- The number of a value is its place among the distinct values. -/
theorem internAll_empty_fst [DecidableEq α] (as : List α) :
    ((empty : InternTable α).internAll as).1 = as.map as.eraseDups.idxOf := by
  have h : List.Forall₂ (fun a i => as.eraseDups.idxOf a = i) as (empty.internAll as).1 :=
    (forall₂_internAll empty as).imp fun a i h => by rw [← toList_internAll_empty, idxOf_toList h]
  rw [← List.forall₂_map_left_iff (R := Eq), List.forall₂_eq_eq_eq] at h
  exact h.symm

/-- A number reads back its value after any calls that include its own. -/
theorem get?_internAll_take {j k : Nat} (ha : as[i]? = some a) (hk : (t.internAll as).1[i]? = some k)
    (hij : i < j) : (t.internAll (as.take j)).2.get? k = some a := by
  have ha' : (as.take j)[i]? = some a := by rwa [List.getElem?_take_of_lt hij]
  have hk' : (t.internAll (as.take j)).1[i]? = some k := by
    rwa [take_internAll, List.getElem?_take_of_lt hij]
  obtain ⟨l, hl, h⟩ := exists_getElem?_of_forall₂ (t.forall₂_internAll (as.take j)) ha'
  rwa [Option.some.inj (hk'.symm.trans hl)]

/-- Two numbers are equal exactly if their values are. -/
theorem internAll_eq_iff {b : α} {j k l : Nat} (ha : as[i]? = some a) (hb : as[j]? = some b)
    (hk : (t.internAll as).1[i]? = some k) (hl : (t.internAll as).1[j]? = some l) : k = l ↔ a = b := by
  obtain ⟨k', hk', hread⟩ := exists_getElem?_of_forall₂ (t.forall₂_internAll as) ha
  obtain ⟨l', hl', hread'⟩ := exists_getElem?_of_forall₂ (t.forall₂_internAll as) hb
  obtain rfl := Option.some.inj (hk.symm.trans hk')
  obtain rfl := Option.some.inj (hl.symm.trans hl')
  constructor
  · rintro rfl
    exact Option.some.inj (hread.symm.trans hread')
  · rintro rfl
    exact eq_of_get?_eq_some hread hread'

theorem size_internAll_le [DecidableEq α] (as : List α) :
    ((empty : InternTable α).internAll as).2.size ≤ as.length := by
  have hsub : (empty.internAll as).2.toList ⊆ as := by
    rw [toList_internAll_empty]
    exact fun a => List.mem_eraseDups.1
  calc (empty.internAll as).2.size
    _ = (empty.internAll as).2.toList.length := Array.length_toList.symm
    _ ≤ as.length := ((nodup_toList _).subperm hsub).length_le

end InternTable

namespace Types

/-- Intern nodes one after the other: their handles, and the types in the end. -/
def internAll (ts : Types) : List Node → List TypeId × Types
  | [] => ([], ts)
  | n :: ns =>
    let (t, ts) := ts.intern n
    let (tt, ts) := ts.internAll ns
    (t :: tt, ts)

variable {ts : Types} {t u : TypeId} {n m : Node} {ns : List Node} {i j : Nat}

/-- The table of the nodes sees the normal forms. -/
theorem internAll_eq (ts : Types) (ns : List Node) :
    ts.internAll ns =
      ((ts.nodes.internAll (ns.map Node.normal)).1.map TypeId.mk,
        ⟨(ts.nodes.internAll (ns.map Node.normal)).2⟩) := by
  induction ns generalizing ts with
  | nil => rfl
  | cons n ns ih => simp only [internAll, ih, List.map_cons, InternTable.internAll_cons, intern]

/-- Every handle reads back the normal form of its node. -/
theorem forall₂_internAll (ts : Types) (ns : List Node) :
    List.Forall₂ (fun n t => (ts.internAll ns).2.get? t = some n.normal) ns (ts.internAll ns).1 := by
  simp only [internAll_eq, List.forall₂_map_right_iff]
  exact List.forall₂_map_left_iff.1 (InternTable.forall₂_internAll ts.nodes _)

/-- A handle reads back its node after any calls that include its own. -/
theorem get?_internAll_take (hn : ns[i]? = some n) (ht : (ts.internAll ns).1[i]? = some t)
    (hij : i < j) : (ts.internAll (ns.take j)).2.get? t = some n.normal := by
  rw [internAll_eq, List.getElem?_map, Option.map_eq_some_iff] at ht
  obtain ⟨k, hk, rfl⟩ := ht
  rw [internAll_eq, List.map_take]
  exact InternTable.get?_internAll_take (by rw [List.getElem?_map, hn]; rfl) hk hij

theorem toList_internAll_empty (ns : List Node) :
    (empty.internAll ns).2.nodes.toList = (ns.map Node.normal).eraseDups := by
  rw [internAll_eq]
  exact InternTable.toList_internAll_empty _

theorem internAll_empty_fst (ns : List Node) :
    (empty.internAll ns).1 =
      ns.map fun n => ⟨(ns.map Node.normal).eraseDups.idxOf n.normal⟩ := by
  rw [internAll_eq]
  refine (congrArg (List.map TypeId.mk) (InternTable.internAll_empty_fst _)).trans ?_
  rw [List.map_map, List.map_map]
  rfl

/-- Two handles are equal exactly if the normal forms of their nodes are. -/
theorem internAll_eq_iff (hn : ns[i]? = some n) (hm : ns[j]? = some m)
    (ht : (ts.internAll ns).1[i]? = some t) (hu : (ts.internAll ns).1[j]? = some u) :
    t = u ↔ n.normal = m.normal := by
  rw [internAll_eq, List.getElem?_map, Option.map_eq_some_iff] at ht hu
  obtain ⟨k, hk, rfl⟩ := ht
  obtain ⟨l, hl, rfl⟩ := hu
  rw [TypeId.mk.injEq]
  exact InternTable.internAll_eq_iff (by rw [List.getElem?_map, hn]; rfl)
    (by rw [List.getElem?_map, hm]; rfl) hk hl

theorem exists_get? (h : t.val < ts.size) : ∃ n, ts.get? t = some n :=
  Option.ne_none_iff_exists'.1 fun hnone => Nat.not_le_of_lt h ((ts.get?_eq_none_iff t).1 hnone)

theorem size_internAll_le (ns : List Node) : (empty.internAll ns).2.size ≤ ns.length := by
  rw [internAll_eq, ← List.length_map Node.normal]
  exact InternTable.size_internAll_le _

/-! ## Trees -/

/-- Every known type unfolds to a finite tree. -/
def Unfolded (ts : Types) : Prop := ∀ t, t.val < ts.size → ∃ T, ts.Unfolds t T

/-- A node whose arguments are known keeps every type finite. -/
theorem Unfolded.intern (h : ts.Unfolded) (hargs : ∀ a ∈ n.args, a.val < ts.size) :
    (ts.intern n).2.Unfolded := by
  intro t ht
  obtain ⟨m, hm⟩ := exists_get? ht
  rcases get?_intern_cases hm with hold | ⟨-, rfl⟩
  · obtain ⟨T, hT⟩ := h t (lt_size_of_get? hold)
    exact ⟨T, hT.grow (ts.grows_intern n)⟩
  · rw [← Node.args_normal] at hargs
    cases hnode : n.normal with
    | named d => exact ⟨_, .named (hnode ▸ hm)⟩
    | param p => exact ⟨_, .param (hnode ▸ hm)⟩
    | app d args =>
      rw [hnode] at hargs
      obtain ⟨Ts, hTs⟩ := forall₂_of_forall_exists fun a ha => h a (hargs a ha)
      exact ⟨_, .app (hnode ▸ hm) (forall₂_unfolds_grow hTs (ts.grows_intern n))⟩

theorem internAll_concat (ts : Types) (ns : List Node) (n : Node) :
    (ts.internAll (ns ++ [n])).2 = ((ts.internAll ns).2.intern n).2 := by
  induction ns generalizing ts with
  | nil => rfl
  | cons m ns ih => exact ih _

/-- Every argument that a call passes is known from the calls before it. -/
def ArgsKnown (ns : List Node) : Prop :=
  ∀ i n, ns[i]? = some n → ∀ a ∈ n.args, a.val < (empty.internAll (ns.take i)).2.size

instance (ns : List Node) : Decidable (ArgsKnown ns) :=
  decidable_of_iff (∀ i < ns.length, ∀ n ∈ ns[i]?, ∀ a ∈ n.args,
      a.val < (empty.internAll (ns.take i)).2.size)
    ⟨fun h i n hn => h i (List.getElem?_eq_some_iff.1 hn).1 n hn, fun h i _ n hn => h i n hn⟩

/-- By induction on the calls made so far. -/
theorem unfolded_internAll_take (h : ArgsKnown ns) (i : Nat) :
    (empty.internAll (ns.take i)).2.Unfolded := by
  induction i with
  | zero => exact fun t ht => absurd ht (Nat.not_lt_zero _)
  | succ i ih =>
    rw [List.take_add_one]
    cases hn : ns[i]? with
    | none => simpa using ih
    | some n =>
      rw [Option.toList_some, internAll_concat]
      exact ih.intern (h i n hn)

/-- Hash-consing is exact: handles count the distinct normal forms in order of first occurrence,
they keep what they stand for, and with known arguments they are as good as trees. -/
theorem internAll_exact (ns : List Node) :
    -- the known handles are 0, 1, 2, ..., in order of first occurrence
    (empty.internAll ns).2.nodes.toList = (ns.map Node.normal).eraseDups ∧
    (empty.internAll ns).1 = ns.map (fun n => ⟨(ns.map Node.normal).eraseDups.idxOf n.normal⟩) ∧
    (ns.length < UInt32.size → ∀ t ∈ (empty.internAll ns).1, t.val < UInt32.size) ∧
    -- a handle is read back when it is handed out and after all later calls
    (∀ (i j : Nat) (n : Node) (t : TypeId), ns[i]? = some n →
      (empty.internAll ns).1[i]? = some t → i < j →
      (empty.internAll (ns.take j)).2.get? t = some n.normal) ∧
    (∀ (i j : Nat) (n m : Node) (t u : TypeId), ns[i]? = some n → ns[j]? = some m →
      (empty.internAll ns).1[i]? = some t → (empty.internAll ns).1[j]? = some u →
      (t = u ↔ n.normal = m.normal)) ∧
    (∀ t, (empty.internAll ns).2.get? t = none ↔ (empty.internAll ns).2.size ≤ t.val) ∧
    (ArgsKnown ns → ∀ t u, t.val < (empty.internAll ns).2.size →
      u.val < (empty.internAll ns).2.size → ∃ T U, (empty.internAll ns).2.Unfolds t T ∧
        (empty.internAll ns).2.Unfolds u U ∧ (t = u ↔ T = U)) := by
  refine ⟨toList_internAll_empty ns, internAll_empty_fst ns, ?bound, ?read, ?equal, ?unknown, ?trees⟩
  case bound =>
    intro hlen t ht
    obtain ⟨n, -, hn⟩ := exists_of_mem_right (empty.forall₂_internAll ns) ht
    calc t.val
      _ < (empty.internAll ns).2.size := lt_size_of_get? hn
      _ ≤ ns.length := size_internAll_le ns
      _ < UInt32.size := hlen
  case read => exact fun i j n t hn ht hij => get?_internAll_take hn ht hij
  case equal => exact fun i j n m t u hn hm ht hu => internAll_eq_iff hn hm ht hu
  case unknown => exact get?_eq_none_iff _
  case trees =>
    intro hargs t u ht hu
    have hunfolded := unfolded_internAll_take hargs ns.length
    rw [List.take_length] at hunfolded
    obtain ⟨T, hT⟩ := hunfolded t ht
    obtain ⟨U, hU⟩ := hunfolded u hu
    refine ⟨T, U, hT, hU, ?_, ?_⟩
    · rintro rfl
      exact hT.unique hU
    · rintro rfl
      exact hT.inj hU

/-- `C`, then `C` applied to nothing, `L<C>`, a parameter, `L<C>` again and `P<L<C>, C>`. -/
def repeating : List Node :=
  [.named ⟨1⟩, .app ⟨1⟩ [], .app ⟨2⟩ [⟨0⟩], .param ⟨⟨2⟩, 0⟩, .app ⟨2⟩ [⟨0⟩], .app ⟨3⟩ [⟨1⟩, ⟨0⟩]]

theorem internAll_exact_repeating :
    (empty.internAll repeating).1 = [⟨0⟩, ⟨0⟩, ⟨1⟩, ⟨2⟩, ⟨1⟩, ⟨3⟩] ∧
    (repeating.length < UInt32.size ∧ ∀ t ∈ (empty.internAll repeating).1, t.val < UInt32.size) ∧
    (ArgsKnown repeating ∧ ∃ T U, (empty.internAll repeating).2.Unfolds ⟨1⟩ T ∧
      (empty.internAll repeating).2.Unfolds ⟨3⟩ U ∧ ((⟨1⟩ : TypeId) = ⟨3⟩ ↔ T = U)) := by
  have hargs : ArgsKnown repeating := by decide +kernel
  obtain ⟨-, hids, hbound, -, -, -, htrees⟩ := internAll_exact repeating
  refine ⟨hids.trans (by decide +kernel), ⟨by decide, hbound (by decide)⟩, hargs, ?_⟩
  exact htrees hargs ⟨1⟩ ⟨3⟩ (by decide +kernel) (by decide +kernel)

end Types

end Generics
