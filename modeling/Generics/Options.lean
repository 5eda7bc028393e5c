import Generics.Guard

/-!
# Options

How a resolution treats ambiguity, and the limits of its unifications.
-/

namespace Generics

/-- What to do when candidates lead to different closed types. -/
inductive Ambiguity
  /-- The resolution fails. -/
  | reject
  /-- The first candidate that leads to a closed type wins. -/
  | firstMatch
  deriving DecidableEq, Repr

/-- How to resolve a request. -/
structure Options where
  ambiguity : Ambiguity := .reject
  limits : Limits := .unification
  deriving DecidableEq, Repr

end Generics
