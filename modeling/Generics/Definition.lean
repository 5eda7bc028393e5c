import Generics.Ident
import Generics.Special

/-!
# Definitions

A definition declares a class, an interface or a struct: its parameters with their constraints, its
base class and its interfaces.  Constraints and supertypes are handles to types over the
definition's own parameters, so a definition may mention itself.
-/

namespace Generics

/-- What a definition declares. -/
inductive Kind
  | classType
  | interfaceType
  | structType
  deriving DecidableEq, Inhabited, Repr

/-- How the instances of an interface vary with one argument. -/
inductive Variance
  | invariant
  | covariant
  | contravariant
  deriving DecidableEq, Inhabited, Repr

/-- The declaration of one parameter. -/
structure ParamDecl where
  name : Atom
  constraints : List TypeId := []
  special : Special := .none
  variance : Variance := .invariant
  deriving DecidableEq, Inhabited, Repr

/-- A class, an interface or a struct. -/
structure Definition where
  kind : Kind
  name : Atom
  params : List ParamDecl := []
  /-- The base class. -/
  base : Option TypeId := none
  /-- The interfaces that a class or struct implements and an interface inherits. -/
  interfaces : List TypeId := []
  isAbstract : Bool := false
  /-- Whether a constructor without arguments exists. -/
  hasConstructor : Bool := kind != .interfaceType
  deriving DecidableEq, Inhabited, Repr

namespace Definition

/-- The number of parameters. -/
def arity (d : Definition) : Nat := d.params.length

def isGeneric (d : Definition) : Bool := !d.params.isEmpty

/-- The declared supertypes: the base class, then the interfaces. -/
def supertypes (d : Definition) : List TypeId := d.base.toList ++ d.interfaces

/-- Whether some parameter varies. -/
def isVariant (d : Definition) : Bool := d.params.any (·.variance != .invariant)

end Definition

/-- Registered definitions, numbered from 1. -/
structure Definitions where
  entries : Array Definition := #[]

namespace Definitions

def size (ds : Definitions) : Nat := ds.entries.size

/-- The definition with the handle `d`. -/
def get? (ds : Definitions) (d : DefId) : Option Definition :=
  match d.val with
  | 0 => none
  | i + 1 => ds.entries[i]?

/-- The handle that the next definition gets. -/
def next (ds : Definitions) : DefId := ⟨ds.entries.size + 1⟩

def register (ds : Definitions) (info : Definition) : DefId × Definitions :=
  (ds.next, ⟨ds.entries.push info⟩)

/-- Change one definition; an unknown handle changes nothing. -/
def update (ds : Definitions) (d : DefId) (f : Definition → Definition) : Definitions :=
  match d.val with
  | 0 => ds
  | i + 1 => ⟨ds.entries.modify i f⟩

/-- Change the declaration of one parameter; an unknown parameter changes nothing. -/
def updateParam (ds : Definitions) (p : Param) (f : ParamDecl → ParamDecl) : Definitions :=
  ds.update p.owner fun info => { info with params := info.params.modify p.index f }

/-- The declaration of the parameter `p`. -/
def param? (ds : Definitions) (p : Param) : Option ParamDecl :=
  (ds.get? p.owner).bind (·.params[p.index]?)

/-! ## Reading after writing -/

theorem get?_update (ds : Definitions) (d e : DefId) (f : Definition → Definition) :
    (ds.update d f).get? e = if d = e then (ds.get? e).map f else ds.get? e := by
  obtain ⟨_ | i⟩ := d <;> obtain ⟨_ | j⟩ := e <;>
    simp [get?, update, Array.getElem?_modify]

end Definitions

end Generics
