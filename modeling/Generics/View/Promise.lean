import Generics.View

/-!
# Which special constraints a type meets

An instance of a definition meets a demand by what its definition is.  A parameter meets one only if
its declaration promises it: directly, or, for reference and value types, through a constraint that
is an instance of a suitable definition or another parameter that promises it.
-/

namespace Generics

/-- Whether instances of the definition meet the demand. -/
def Definition.provides (info : Definition) : Demand → Bool
  | .reference => info.kind != .structType
  | .value => info.kind == .structType
  | .constructible | .unnamed _ =>
    match info.kind with
    | .classType => info.hasConstructor && !info.isAbstract
    | .interfaceType => false
    | .structType => true

/-- Whether a parameter with a constraint of this kind meets the demand: below a class all types are
reference types, while structs implement interfaces. -/
def Kind.grants (k : Kind) : Demand → Bool
  | .reference => k == .classType
  | .value => k == .structType
  | .constructible | .unnamed _ => false

/-- Whether the demand is declared with the parameter itself.  Value types have a default
constructor. -/
def ParamDecl.declares (decl : ParamDecl) (d : Demand) : Bool :=
  decl.special.includes d.toSpecial || (d == .constructible && decl.special.includes .value)

/-- Whether a parameter inherits the demand from the parameters it is constrained by. -/
def Demand.isInherited : Demand → Bool
  | .reference | .value => true
  | .constructible | .unnamed _ => false

namespace View

variable (v : View)

/-- Whether the instances of a node's definition meet the demand. -/
def provides (d : Demand) (n : Node) : Bool :=
  (n.definition?.bind v.definition?).any (·.provides d)

/-- Whether a constraint with this node makes a parameter meet the demand. -/
def grants (d : Demand) (n : Node) : Bool :=
  (n.definition?.bind v.definition?).any (·.kind.grants d)

/-- Search for a promise of `d` among `p` and the parameters it is constrained by: nothing is left
once one is found, and otherwise the parameters searched. -/
def promiseFrom (d : Demand) : Nat → List Param → Param → Option (List Param)
  | 0, searched, _ => some searched
  | n + 1, searched, p =>
    if p ∈ searched then some searched
    else
      match v.param? p with
      | none => some (p :: searched)
      | some decl =>
        if decl.declares d then none
        else
          decl.constraints.foldlM
            (fun searched k =>
              match v.node? k with
              | some (.param q) => if d.isInherited then promiseFrom d n searched q else some searched
              | some node => if v.grants d node then none else some searched
              | none => some searched)
            (p :: searched)

/-- Whether `t` meets the demand. -/
def meets (d : Demand) (t : TypeId) : Bool :=
  match v.node? t with
  | some (.param p) => (v.promiseFrom d v.bound [] p).isNone
  | some node => v.provides d node
  | none => false

def isReferenceType (t : TypeId) : Bool := v.meets .reference t

def isValueType (t : TypeId) : Bool := v.meets .value t

def isConstructible (t : TypeId) : Bool := v.meets .constructible t

/-- The demands of `s` that `t` does not meet. -/
def missing (t : TypeId) (s : Special) : Special :=
  .ofDemands (s.demands.filter fun d => !v.meets d t)

end View

end Generics
