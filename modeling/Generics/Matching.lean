import Generics.Substitution
import Generics.View
import Std.Data.TreeSet

/-!
# Matching

To match a pattern with a concrete type is to find types for the free parameters that turn the
pattern into the concrete type.  Each occurrence of a free parameter binds it, and all occurrences
must agree.  Both types are graphs with much sharing, so each pair is matched once.
-/

namespace Generics

/-- Why arguments cannot be unified. -/
inductive UnifyError
  | arityMismatch (pattern concrete : Nat)
  | structureMismatch (pattern concrete : TypeId)
  | ambiguousBinding (p : Param) (first second : TypeId)
  | unsatisfiedConstraint (p : Param) (constraint concrete : TypeId)
  | limitExceeded
  deriving DecidableEq, Repr

def UnifyError.message : UnifyError → String
  | arityMismatch pattern concrete =>
    s!"pattern has {pattern} type arguments but the requested type has {concrete}"
  | structureMismatch pattern concrete =>
    s!"{pattern.label} does not structurally match {concrete.label}"
  | ambiguousBinding p first second =>
    s!"{p.label} is bound to both {first.label} and {second.label}"
  | unsatisfiedConstraint p constraint concrete =>
    s!"{concrete.label} has no supertype matching constraint {constraint.label} on {p.label}"
  | limitExceeded => "constraint expansion exceeded its recursion limits"

/-- The bindings found so far, and the pairs matched so far. -/
structure Matching where
  bindings : Substitution
  matched : Std.TreeSet (TypeId × TypeId)

/-- Bind `p` to `t`, unless it is bound to another type. -/
def Matching.bind (m : Matching) (p : Param) (t : TypeId) : Except UnifyError Matching :=
  match m.bindings.get? p with
  | none => .ok { m with bindings := m.bindings.insert p t }
  | some first => if first = t then .ok m else .error (.ambiguousBinding p first t)

namespace View

variable (v : View) (free : List Param)

/-- Match a pattern that holds no free parameter at its root and is no application. -/
def matchRigid (m : Matching) (pattern concrete : TypeId) : Except UnifyError Matching :=
  if pattern = concrete then .ok m else .error (.structureMismatch pattern concrete)

/-- Match one pair of types, down to the given depth. -/
def matchTo : Nat → Matching → TypeId → TypeId → Except UnifyError Matching
  | 0, m, _, _ => .ok m
  | n + 1, m, pattern, concrete =>
    if m.matched.contains (pattern, concrete) then .ok m
    else
      let m := { m with matched := m.matched.insert (pattern, concrete) }
      match v.node? pattern with
      | some (.param p) =>
        if p ∈ free then m.bind p concrete else matchRigid m pattern concrete
      | some (.app d args) =>
        match v.node? concrete with
        | some (.app e concretes) =>
          if e = d ∧ concretes.length = args.length then
            (args.zip concretes).foldlM (fun m (a, b) => matchTo n m a b) m
          else .error (.structureMismatch pattern concrete)
        | _ => .error (.structureMismatch pattern concrete)
      | _ => matchRigid m pattern concrete

/-- Match one pair of types, given bindings to agree with.  Pairs come back only after as many steps
as there are pairs of types. -/
def matchType (σ : Substitution) (pattern concrete : TypeId) : Except UnifyError Substitution :=
  (v.matchTo free (v.bound * v.bound) ⟨σ, ∅⟩ pattern concrete).map (·.bindings)

/-- Match patterns with the concrete types at their positions. -/
def matchAll (σ : Substitution) (patterns concretes : List TypeId) :
    Except UnifyError Substitution :=
  (patterns.zip concretes).foldlM (fun σ (pattern, concrete) => v.matchType free σ pattern concrete)
    σ

end View

end Generics
