import Generics.Ident

/-!
# Malformed requests

A request is malformed when it mentions what the store does not know.  That a well-formed request
has no answer is no error.
-/

namespace Generics

/-- What is wrong with a request. -/
inductive ResolveError
  | unknownType (t : TypeId)
  | unknownDefinition (d : DefId)
  | unknownParameter (p : Param)
  | arityMismatch (t : TypeId) (expected found : Nat)
  | cyclicType (t : TypeId)
  | foreignParameter (t : TypeId) (p : Param)
  | abstractionIsParameter (t : TypeId)
  | implementationIsParameter (t : TypeId)
  deriving DecidableEq, Repr

def ResolveError.message : ResolveError → String
  | unknownType t => s!"type {t.label} is not known to the type store"
  | unknownDefinition d => s!"definition {d.label} is not known to the type store"
  | unknownParameter p => s!"parameter {p.label} is not declared by its owner"
  | arityMismatch t expected found =>
    s!"type {t.label} passes {found} arguments to a definition with {expected} parameters"
  | cyclicType t => s!"type {t.label} contains itself"
  | foreignParameter t p =>
    s!"implementation {t.label} mentions {p.label}, which belongs to another definition"
  | abstractionIsParameter t => s!"the requested abstraction {t.label} is a bare generic parameter"
  | implementationIsParameter t => s!"the implementation {t.label} is a bare generic parameter"

end Generics
