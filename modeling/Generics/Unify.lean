import Generics.Assignable
import Generics.Matching
import Generics.View.Params

/-!
# Unification

Unification first matches patterns with concrete types.  Then it expands constraints: where a bound
parameter is constrained by a type that mentions free parameters, the constraint is matched with the
supertypes of the bound type.  This binds parameters that occur in constraints only, and a newly
bound parameter is expanded in turn.  A constraint that disagrees with a binding is left for
construction to refuse, since variance may reconcile them.  Constraints may lead back to a parameter
that is being expanded, so a guard watches the expansion.
-/

namespace Generics

/-- What a unifier may bind, and what the implementation has closed already. -/
structure Unknowns where
  free : List Param
  /-- Specialises constraints before they are matched. -/
  closure : Substitution

namespace View

/-- The bindings that a constraint with the given arguments yields, when it is matched with the
first suitable one among the argument lists of supertypes; without one there are none. -/
def inferAmong (v : View) (free : List Param) (σ : Substitution) (args : List TypeId)
    (supers : List (List TypeId)) : Substitution :=
  (supers.findSome? fun concretes => (v.matchAll free σ args concretes).toOption).getD σ

end View

/-- A computation that binds parameters under one guard. -/
abbrev Unifier := ExceptT UnifyError (StateT (Guard Param) Engine)

namespace Unifier

/-- Read the session through a view. -/
def query {α : Type} (c : Catalog) (f : View → α) : Unifier α :=
  monadLift (Engine.query c f)

/-- Ask the guard to visit a parameter. -/
def enter (p : Param) : Unifier Entry := modifyGet (·.enter p)

/-- Visit `p`, which the guard has let in, and leave it whether or not that fails. -/
def visiting {α : Type} (p : Param) (m : Unifier α) : Unifier α :=
  ExceptT.mk do
    let a ← m.run
    set (← Engine.leave (← get) p)
    pure a

variable (c : Catalog) (u : Unknowns)

/-- Bind free parameters of the constraint `k` of `p` from the type `bound` that `p` is bound to. -/
def infer (p : Param) (k bound : TypeId) (σ : Substitution) : Unifier Substitution := do
  match ← query c (·.node? k) with
  | some (.param q) =>
    pure (if q ∈ u.free ∧ !σ.contains q then σ.insert q bound else σ)
  | some (.app d args) =>
    let above ← monadLift (Engine.supertypes c bound)
    let supers ← query c fun v => above.toList.filterMap (v.argsAs? d args.length)
    if supers.isEmpty then throw (.unsatisfiedConstraint p k bound)
    else query c (·.inferAmong u.free σ args supers)
  | _ => pure σ

/-- Expand the constraints of `p`, when `expand` does so for a parameter that they bind. -/
def expandEach (expand : Substitution → Param → Unifier Substitution) (σ : Substitution)
    (p : Param) : Unifier Substitution := do
  match σ.get? p, (← query c (·.param? p)) with
  | some bound, some decl =>
    decl.constraints.foldlM
      (fun σ k => do
        let k ← monadLift (Engine.instantiate c k u.closure)
        if ← query c (·.mentionsAny k u.free) then
          let τ ← infer c u p k bound σ
          (τ.domain.drop σ.size).foldlM expand τ
        else pure σ)
      σ
  | _, _ => pure σ

/-- Expand the constraints of `p`, down to the given depth. -/
def expandTo : Nat → Substitution → Param → Unifier Substitution
  | 0, _, _ => throw .limitExceeded
  | n + 1, σ, p => do
    match ← enter p with
    | .entered => visiting p (expandEach c u (expandTo n) σ p)
    | .cycle => pure σ
    | .tooDeep | .tooLong => throw .limitExceeded

/-- Bind the free parameters so that the patterns become the concrete types. -/
def unify (patterns concretes : List TypeId) : Unifier Substitution := do
  if patterns.length ≠ concretes.length then
    throw (.arityMismatch patterns.length concretes.length)
  else
    match ← query c (·.matchAll u.free .empty patterns concretes) with
    | .error e => throw e
    | .ok matched =>
      let σ ← matched.domain.foldlM (expandTo c u (u.free.length + 1)) matched
      monadLift (Engine.report c fun _ => .unified σ.size u.free.length)
      pure σ

/-- Run a unifier under a guard of its own. -/
def runFresh {α : Type} (limits : Limits) (m : Unifier α) : Engine (Except UnifyError α) := do
  let (a, guard) ← StateT.run (ExceptT.run m) { limits }
  Engine.retire guard
  pure a

end Unifier

end Generics
