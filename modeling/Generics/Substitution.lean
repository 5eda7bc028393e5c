import Generics.Ident

/-!
# Substitutions

A substitution maps finitely many parameters to types and remembers the order in which they were
mapped.
-/

namespace Generics

/-- A finite map from parameters to types, in order of insertion. -/
structure Substitution where
  entries : List (Param × TypeId) := []
  deriving DecidableEq, Inhabited, Repr

namespace Substitution

def empty : Substitution := {}

/-- The type that `p` is mapped to. -/
def get? (σ : Substitution) (p : Param) : Option TypeId := σ.entries.lookup p

def size (σ : Substitution) : Nat := σ.entries.length

def isEmpty (σ : Substitution) : Bool := σ.entries.isEmpty

/-- The parameters that are mapped, in order of insertion. -/
def domain (σ : Substitution) : List Param := σ.entries.map (·.1)

def contains (σ : Substitution) (p : Param) : Bool := (σ.get? p).isSome

/-- Map `p` to `t`: in its old place when it was mapped before, and else at the end. -/
def insertEntry (p : Param) (t : TypeId) : List (Param × TypeId) → List (Param × TypeId)
  | [] => [(p, t)]
  | (q, u) :: rest => if q = p then (p, t) :: rest else (q, u) :: insertEntry p t rest

@[inherit_doc insertEntry]
def insert (σ : Substitution) (p : Param) (t : TypeId) : Substitution :=
  ⟨insertEntry p t σ.entries⟩

/-- Map the parameters of `d` to the arguments at their positions. -/
def ofArgs (d : DefId) (args : List TypeId) : Substitution :=
  ⟨args.mapIdx fun i t => (⟨d, i⟩, t)⟩

/-! ## Reading after writing -/

theorem contains_iff_mem_domain (σ : Substitution) (p : Param) : σ.contains p ↔ p ∈ σ.domain := by
  obtain ⟨entries⟩ := σ
  unfold contains get? domain
  induction entries with
  | nil => simp
  | cons e rest ih => by_cases h : p = e.1 <;> simp_all

theorem get?_insert (σ : Substitution) (p q : Param) (t : TypeId) :
    (σ.insert p t).get? q = if q = p then some t else σ.get? q := by
  obtain ⟨entries⟩ := σ
  unfold insert get?
  induction entries with
  | nil => grind [insertEntry]
  | cons e rest ih => grind [insertEntry]

theorem insert_of_not_contains {σ : Substitution} {p : Param} (h : ¬σ.contains p) (t : TypeId) :
    σ.insert p t = ⟨σ.entries ++ [(p, t)]⟩ := by
  rw [contains_iff_mem_domain] at h
  obtain ⟨entries⟩ := σ
  unfold insert
  unfold domain at h
  congr 1
  induction entries with
  | nil => rfl
  | cons e rest ih => simp_all [insertEntry, eq_comm]

theorem lookup_mapIdx {key : Nat → Param} (hkey : ∀ {i j}, key i = key j → i = j)
    (args : List TypeId) (i : Nat) :
    (args.mapIdx fun j t => (key j, t)).lookup (key i) = args[i]? := by
  induction args generalizing key i with
  | nil => rfl
  | cons a args ih =>
    rw [List.mapIdx_cons]
    cases i with
    | zero => exact List.lookup_cons_self
    | succ i =>
      have hne : (key (i + 1) == key 0) = false :=
        beq_false_of_ne fun h => Nat.succ_ne_zero i (hkey h)
      rw [List.lookup_cons, hne]
      exact ih (fun h => Nat.succ.inj (hkey h)) i

theorem get?_ofArgs (d : DefId) (args : List TypeId) (i : Nat) :
    (ofArgs d args).get? ⟨d, i⟩ = args[i]? :=
  lookup_mapIdx (fun h => congrArg Param.index h) args i

end Substitution

end Generics
