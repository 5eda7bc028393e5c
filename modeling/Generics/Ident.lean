/-!
# Handles

Types, definitions and names are referred to by numbers.  Each sort of number has a type of its
own, so that a type cannot be taken for a definition, and each has a label, the text by which
messages refer to it.
-/

namespace Generics

/-- A handle to an interned type. -/
@[ext]
structure TypeId where
  val : Nat
  deriving DecidableEq, Inhabited, Repr

/-- A handle to a registered definition. -/
@[ext]
structure DefId where
  val : Nat
  deriving DecidableEq, Inhabited, Repr

/-- A handle to an interned name. -/
structure Atom where
  val : Nat
  deriving DecidableEq, Inhabited, Repr

/-- The parameter at position `index` of the definition `owner`. -/
@[ext]
structure Param where
  owner : DefId
  index : Nat
  deriving DecidableEq, Inhabited, Repr

/-! ## Order

Sets of types are ordered by their numbers. -/

/-- Comparing values of an injective function tells values apart. -/
theorem lawfulEqCmp_compareOn {α β : Type} [Ord β] [Std.LawfulEqOrd β] {f : α → β}
    (hf : ∀ {a b}, f a = f b → a = b) : Std.LawfulEqCmp (compareOn f) where
  compare_self := Std.ReflOrd.compare_self (α := β)
  eq_of_compare h := hf (Std.LawfulEqOrd.eq_of_compare h)

instance : Ord TypeId := ⟨compareOn TypeId.val⟩

instance : Std.TransOrd TypeId := inferInstanceAs (Std.TransCmp (compareOn TypeId.val))

instance : Std.LawfulEqOrd TypeId := lawfulEqCmp_compareOn (congrArg TypeId.mk)

instance : Ord (TypeId × TypeId) := lexOrd

/-! ## Labels -/

def TypeId.label (t : TypeId) : String := s!"TypeId({t.val})"

/-- The label of a type that may be missing. -/
def TypeId.labelOption : Option TypeId → String
  | some t => s!"Some({t.label})"
  | none => "None"

def DefId.label (d : DefId) : String := s!"DefId({d.val})"

def Param.label (p : Param) : String :=
  s!"ParamRef \x7b owner: {p.owner.label}, index: {p.index} \x7d"

/-- The text of a name handle itself, whatever name it stands for. -/
def Atom.label (a : Atom) : String := s!"#{a.val}"

/-! ## Special handles -/

/-- The name that every table of names holds first: the empty one. -/
def Atom.empty : Atom := ⟨0⟩

/-- Definitions are numbered from 1: the number 0 never stands for one. -/
def DefId.isValid (d : DefId) : Bool := 1 ≤ d.val

end Generics
