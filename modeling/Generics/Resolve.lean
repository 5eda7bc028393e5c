import Generics.Closing
import Generics.Options
import Generics.View.Text
import Generics.View.Wellformed

/-!
# Resolution

To resolve a request is to find the closed form of an implementation that serves an abstraction.  An
implementation that mentions no parameter serves it or does not.  Any other is closed through the
supertypes of its open definition that are instances of the abstraction's definition: each of them is
unified with the abstraction and may lead to a closed type.  A request is refused with an error only
if it is malformed.
-/

namespace Generics

/-- The outcome of a well-formed request. -/
inductive Resolution
  | invalid
  /-- The implementation serves the abstraction in this closed form. -/
  | valid (closed : TypeId)
  deriving DecidableEq, Repr

namespace Resolution

def isValid : Resolution → Bool
  | valid _ => true
  | invalid => false

def closed? : Resolution → Option TypeId
  | valid t => some t
  | invalid => none

/-- The outcome of the closed types that candidates led to: there must be exactly one. -/
def ofClosed : List TypeId → Resolution
  | [t] => valid t
  | _ => invalid

end Resolution

/-- A request for the closed form of an implementation that serves an abstraction. -/
structure Request where
  abstraction : TypeId
  implementation : TypeId
  options : Options := {}

/-- A well-formed implementation. -/
structure Implementation where
  definition : DefId
  args : List TypeId
  /-- The parameters it mentions, all of its own definition. -/
  free : List Param

namespace View

variable (v : View)

/-- The implementation of a request, or what is wrong with the request. -/
def examine (abstraction implementation : TypeId) : Except ResolveError Implementation := do
  v.check abstraction
  v.check implementation
  if v.isParam abstraction then throw (.abstractionIsParameter abstraction)
  match v.node? implementation with
  | none => throw (.unknownType implementation)
  | some node =>
    match node.definition? with
    | none => throw (.implementationIsParameter implementation)
    | some d =>
      let free := v.params implementation
      match free.find? (·.owner != d) with
      | some p => throw (.foreignParameter implementation p)
      | none => pure ⟨d, node.args, free⟩

end View

namespace Request

variable (c : Catalog) (r : Request)

/-- Answer a request for an implementation without parameters. -/
def resolveClosed : Engine Resolution := do
  let valid ← Engine.isAssignable c r.abstraction r.implementation
  Engine.report c fun v => .compared (v.format r.abstraction) (v.format r.implementation) valid
  pure (if valid then .valid r.implementation else .invalid)

/-- Close the implementation through one candidate, which may bind the parameters `declared`. -/
def closeThrough (closing : Closing) (declared : List Param) (requested : List TypeId)
    (candidate : Candidate) : Engine (Except Rejection TypeId) := do
  let found ← Unifier.runFresh r.options.limits <|
    Unifier.unify c { free := declared, closure := .empty } candidate.args requested
  match found with
  | .error e => pure (.error (.unify e))
  | .ok found => (closing.close c r.abstraction found).run

/-- The closed types that candidates lead to, without repetition, after those in `closed`; under the
policy of the first match at most one is added. -/
def closedThrough (close : Candidate → Engine (Except Rejection TypeId)) :
    List Candidate → List TypeId → Engine (List TypeId)
  | [], closed => pure closed
  | candidate :: rest, closed => do
    match ← close candidate with
    | .ok t =>
      Engine.report c fun v => .accepted (v.format candidate.type) (v.format t)
      let closed := if t ∈ closed then closed else closed ++ [t]
      if r.options.ambiguity = .firstMatch then pure closed
      else closedThrough close rest closed
    | .error e =>
      Engine.report c fun v => .rejected (v.format candidate.type) e.message
      closedThrough close rest closed

/-- Answer a request for an implementation that leaves parameters free, through the supertypes of
its open definition `opened`. -/
def resolveOpen (i : Implementation) (opened : TypeId) : Engine Resolution := do
  let declared ← Engine.query c (·.paramsOf i.definition opened)
  let candidates ← Engine.candidates c opened r.abstraction
  if candidates.isEmpty then
    Engine.report c fun v => .unrelated (v.format r.abstraction) (v.format r.implementation)
    pure .invalid
  else
    let requested ← Engine.query c (·.argsOf r.abstraction)
    let closing :=
      { definition := i.definition, args := i.args, free := i.free, limits := r.options.limits }
    let closed ← r.closedThrough c (r.closeThrough c closing declared requested) candidates []
    if 1 < closed.length then
      Engine.report c fun v =>
        .ambiguous (v.format r.abstraction) (v.format r.implementation) closed.length
    pure (.ofClosed closed)

/-- Answer a request. -/
def resolve : Engine (Except ResolveError Resolution) := do
  match ← Engine.query c (·.examine r.abstraction r.implementation) with
  | .error e => pure (.error e)
  | .ok i =>
    if i.free.isEmpty then .ok <$> r.resolveClosed c
    else
      match ← Engine.definitionType c i.definition with
      | none => pure (.error (.unknownDefinition i.definition))
      | some opened => .ok <$> r.resolveOpen c i opened

end Request

/-- The closed form of `implementation` that serves `abstraction`, if there is one. -/
def Engine.closedImplementation (c : Catalog) (abstraction implementation : TypeId) :
    Engine (Except ResolveError (Option TypeId)) := do
  let outcome ← Request.resolve c { abstraction, implementation }
  pure (outcome.map (·.closed?))

/-! ## Serving every instance -/

/-- The definition of an abstraction, or what is wrong with the abstraction. -/
def View.abstractionDefinition (v : View) (abstraction : TypeId) : Except ResolveError DefId := do
  v.check abstraction
  match v.definitionOf abstraction with
  | none => throw (.abstractionIsParameter abstraction)
  | some d => pure d

/-- Whether `implementation` serves every instance of the abstraction's definition.  The parameters
of that definition stand for arbitrary arguments: they promise exactly what it declares. -/
def Engine.servesEveryInstance (c : Catalog) (abstraction implementation : TypeId) :
    Engine (Except ResolveError Bool) := do
  match ← query c (·.abstractionDefinition abstraction) with
  | .error e => pure (.error e)
  | .ok d =>
    match ← definitionType c d with
    | none => pure (.error (.unknownDefinition d))
    | some representative =>
      match ← Request.resolve c { abstraction := representative, implementation } with
      | .error e => pure (.error e)
      | .ok outcome =>
        report c fun _ => .probed representative implementation outcome.isValid
        pure (.ok outcome.isValid)

end Generics
