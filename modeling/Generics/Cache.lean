import Generics.Resolve
import Std.Data.TreeMap

/-!
# Remembering answers

The answer to a request does not change once the definitions involved are complete, so a cache
remembers the answers that it has given.  Malformed requests are not remembered: the store may still
be completed.
-/

namespace Generics

/-- The answers given so far, under fixed options. -/
structure Cache where
  options : Options := {}
  answers : Std.TreeMap (TypeId × TypeId) (Option TypeId) := ∅
  /-- How many requests were answered from memory. -/
  hits : Nat := 0

namespace Cache

/-- How many answers the cache remembers. -/
def size (k : Cache) : Nat := k.answers.size

def isEmpty (k : Cache) : Bool := k.answers.isEmpty

/-- Forget every answer, because definitions have changed. -/
def clear (k : Cache) : Cache := { k with answers := ∅, hits := 0 }

/-- The closed form of `implementation` that serves `abstraction`, from memory if possible. -/
def getOrResolve (k : Cache) (c : Catalog) (abstraction implementation : TypeId) :
    Engine (Except ResolveError (Option TypeId) × Cache) :=
  match k.answers[(abstraction, implementation)]? with
  | some answer => do
    Engine.report c fun _ => .recalled abstraction implementation
    pure (.ok answer, { k with hits := k.hits + 1 })
  | none => do
    match ← Request.resolve c { abstraction, implementation, options := k.options } with
    | .error e => pure (.error e, k)
    | .ok outcome =>
      let answers := k.answers.insert (abstraction, implementation) outcome.closed?
      pure (.ok outcome.closed?, { k with answers })

end Cache

end Generics
