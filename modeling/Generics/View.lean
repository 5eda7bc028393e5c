import Generics.Definition
import Generics.Types

/-!
# Views

A view is read access to types, definitions and names.  Walks that only read are functions of a
view, whatever stands behind it: the store, or a store some of whose types are replaced.  A type's
arguments may form any graph; `bound` is the length that no walk along arguments exceeds unless it
meets a type twice.
-/

namespace Generics

/-- Read access to types, definitions and names. -/
structure View where
  node? : TypeId → Option Node
  definition? : DefId → Option Definition
  name? : Atom → Option String
  bound : Nat

namespace View

variable (v : View)

/-- The declaration of the parameter `p`. -/
def param? (p : Param) : Option ParamDecl :=
  (v.definition? p.owner).bind (·.params[p.index]?)

/-- The definition that `t` is an instance of. -/
def definitionOf (t : TypeId) : Option DefId := (v.node? t).bind Node.definition?

/-- The arguments of `t`; a type that is no application has none. -/
def argsOf (t : TypeId) : List TypeId := ((v.node? t).map Node.args).getD []

def isParam (t : TypeId) : Bool :=
  match v.node? t with
  | some (.param _) => true
  | _ => false

/-- Whether `t` is an application, open or closed. -/
def isApplication (t : TypeId) : Bool :=
  match v.node? t with
  | some (.app _ _) => true
  | _ => false

/-- Whether `t` is an application of `d`. -/
def isApplicationOf (d : DefId) (t : TypeId) : Bool :=
  match v.node? t with
  | some (.app e _) => e == d
  | _ => false

/-- Whether `t` is a definition applied to its own parameters in order. -/
def isOpenDefinition (t : TypeId) : Bool :=
  match v.node? t with
  | some (.app d args) => args.zipIdx.all fun (a, i) => v.node? a == some (.param ⟨d, i⟩)
  | _ => false

end View

end Generics
