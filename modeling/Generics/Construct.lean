import Generics.Assignable

/-!
# Construction

A definition is applied to arguments only if the arguments meet every constraint of its parameters.
Constraints are specialised to the whole argument list first.  The requirements are checked in order
of declaration, and the first that fails is the reason of a refusal.
-/

namespace Generics

/-- Why arguments cannot be passed to a definition. -/
inductive ConstructError
  | unknownDefinition (d : DefId)
  | arityMismatch (expected found : Nat)
  | constraintViolation (p : Param) (argument constraint : TypeId)
  | specialViolation (p : Param) (argument : TypeId) (missing : Special)
  deriving DecidableEq, Repr

def ConstructError.message : ConstructError → String
  | unknownDefinition d => s!"definition {d.label} is not registered"
  | arityMismatch expected found => s!"expected {expected} type arguments, found {found}"
  | constraintViolation p argument constraint =>
    s!"argument {argument.label} does not satisfy constraint {constraint.label} on {p.label}"
  | specialViolation p argument missing =>
    s!"argument {argument.label} does not satisfy {missing.label} on {p.label}"

/-- What a parameter demands of its argument. -/
inductive Requirement
  | special (p : Param) (argument : TypeId) (demanded : Special)
  | constraint (p : Param) (argument constraint : TypeId)
  deriving DecidableEq, Repr

/-- What the parameter `p` demands of its argument: special constraints first. -/
def ParamDecl.requirements (decl : ParamDecl) (p : Param) (argument : TypeId) : List Requirement :=
  .special p argument decl.special :: decl.constraints.map (.constraint p argument)

/-- What the parameters of a definition demand of its arguments, in order of declaration. -/
def Definition.requirements (info : Definition) (d : DefId) (args : List TypeId) :
    List Requirement :=
  (info.params.zip args).zipIdx.flatMap fun ((decl, argument), i) =>
    decl.requirements ⟨d, i⟩ argument

namespace Comparison

/-- The violation of a requirement, if it is violated under `σ`. -/
def violation? (c : Catalog) (σ : Substitution) : Requirement → Comparison (Option ConstructError)
  | .special p argument demanded => do
    let missing ← Engine.query c (·.missing argument demanded)
    pure (if missing.isEmpty then none else some (.specialViolation p argument missing))
  | .constraint p argument constraint => do
    let constraint ← Engine.instantiate c constraint σ
    let accepted ← accepts c constraint argument
    pure (if accepted then none else some (.constraintViolation p argument constraint))

end Comparison

namespace Engine

/-- Apply `d` to `args`, if they meet its constraints. -/
def construct (c : Catalog) (d : DefId) (args : List TypeId) :
    Engine (Except ConstructError TypeId) :=
  match c.definitions.get? d with
  | none => pure (.error (.unknownDefinition d))
  | some info =>
    if info.arity ≠ args.length then pure (.error (.arityMismatch info.arity args.length))
    else do
      let first ← Comparison.runFresh <|
        (info.requirements d args).findSomeM? (Comparison.violation? c (.ofArgs d args))
      match first with
      | some violation => pure (.error violation)
      | none =>
        let t ← intern (.app d args)
        report c fun _ => .constructed d t
        pure (.ok t)

end Engine

end Generics
