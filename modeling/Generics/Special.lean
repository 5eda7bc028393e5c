/-!
# Special constraints

A parameter may demand more of its argument than a type can say: that it be a reference type, that
it be a value type, that it have a default constructor.  A set of such demands is a byte.  The bits
above the three named ones are kept as they are and count together as one further demand.
-/

namespace Generics

/-- A set of special constraints, one bit each. -/
structure Special where
  bits : UInt8
  deriving DecidableEq, Inhabited, Repr

/-- One special constraint. -/
inductive Demand
  /-- The argument is a reference type. -/
  | reference
  /-- The argument is a value type. -/
  | value
  /-- The argument has a default constructor. -/
  | constructible
  /-- The bits of a set that have no name. -/
  | unnamed (bits : UInt8)
  deriving DecidableEq, Repr

namespace Special

def none : Special := ⟨0⟩

def reference : Special := ⟨1⟩

def value : Special := ⟨2⟩

def constructible : Special := ⟨4⟩

def union (s t : Special) : Special := ⟨s.bits ||| t.bits⟩

instance : Union Special := ⟨union⟩

/-- Whether every bit of `t` is one of `s`. -/
def includes (s t : Special) : Bool := s.bits &&& t.bits == t.bits

def isEmpty (s : Special) : Bool := s.bits == 0

/-- The bits of `s` that have no name. -/
def unnamedBits (s : Special) : UInt8 := s.bits &&& 0xF8

end Special

namespace Demand

/-- The set that holds one demand. -/
def toSpecial : Demand → Special
  | reference => .reference
  | value => .value
  | constructible => .constructible
  | unnamed bits => ⟨bits⟩

/-- How messages spell a demand. -/
def label : Demand → String
  | reference => "REFERENCE_TYPE"
  | value => "VALUE_TYPE"
  | constructible => "DEFAULT_CONSTRUCTOR"
  | unnamed bits => "0x" ++ String.ofList (Nat.toDigits 16 bits.toNat)

end Demand

namespace Special

/-- The demands of a set in the order of their bits, the unnamed bits last and as one. -/
def demands (s : Special) : List Demand :=
  [Demand.reference, .value, .constructible].filter (s.includes ·.toSpecial) ++
    if s.unnamedBits == 0 then [] else [.unnamed s.unnamedBits]

/-- The set of the given demands. -/
def ofDemands (ds : List Demand) : Special :=
  ds.foldl (fun s d => s ∪ d.toSpecial) none

/-- The demands joined by bars, or the number 0 for the empty set. -/
def label (s : Special) : String :=
  let body := if s.isEmpty then "0x0" else " | ".intercalate (s.demands.map Demand.label)
  s!"SpecialConstraints({body})"

end Special

end Generics
