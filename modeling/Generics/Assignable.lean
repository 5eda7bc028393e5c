import Generics.Supertypes
import Generics.View.Promise

/-!
# Assignability

A target accepts a source when they are equal, when the target is a supertype of the source, or when
both lead to instances of one interface whose arguments are compatible under its variance.  Variance
leads back to the same question about arguments; a question that comes up while it is being answered
is taken to hold, and a guard bounds the depth.
-/

namespace Generics

namespace View

variable (v : View)

/-- If `t` is an application of an interface with a varying parameter: the interface, the variance
of its parameters, and the arguments. -/
def variantInterface? (t : TypeId) : Option (DefId × List Variance × List TypeId) :=
  match v.node? t with
  | some (.app d args) =>
    match v.definition? d with
    | some info =>
      if info.kind == .interfaceType && info.isVariant then
        some (d, info.params.map (·.variance), args)
      else none
    | none => none
  | _ => none

/-- The arguments of `t`, if it is an application of `d` to `arity` arguments. -/
def argsAs? (d : DefId) (arity : Nat) (t : TypeId) : Option (List TypeId) :=
  match v.node? t with
  | some (.app e args) => if e = d ∧ args.length = arity then some args else none
  | _ => none

end View

/-- A computation that compares types under one guard. -/
abbrev Comparison := StateT (Guard (TypeId × TypeId)) Engine

namespace Comparison

/-- Ask the guard to visit a pair. -/
def enter (pair : TypeId × TypeId) : Comparison Entry := modifyGet (·.enter pair)

/-- Stop visiting a pair. -/
def leave (pair : TypeId × TypeId) : Comparison Unit := do
  set (← Engine.leave (← get) pair)

variable (c : Catalog)

/-- Whether an argument of the target accepts one of the source, when `accepts` compares types. -/
def compatible (accepts : TypeId → TypeId → Comparison Bool) (variance : Variance)
    (target source : TypeId) : Comparison Bool :=
  if target = source then pure true
  else
    match variance with
    | .invariant => pure false
    | .covariant => do
      if ← Engine.query c (·.isReferenceType source) then accepts target source else pure false
    | .contravariant => do
      if ← Engine.query c (·.isReferenceType target) then accepts source target else pure false

/-- Whether `target` accepts a type other than itself, when `accepts` compares arguments. -/
def acceptsAbove (accepts : TypeId → TypeId → Comparison Bool) (target source : TypeId) :
    Comparison Bool := do
  let above ← Engine.supertypes c source
  if above.contains target then pure true
  else
    match ← Engine.query c (·.variantInterface? target) with
    | none => pure false
    | some (d, variances, targets) =>
      above.toList.anyM fun s => do
        match ← Engine.query c (·.argsAs? d targets.length s) with
        | none => pure false
        | some sources =>
          (variances.zip (targets.zip sources)).allM fun (variance, target, source) =>
            compatible c accepts variance target source

/-- Whether `target` accepts `source`, down to the given depth. -/
def acceptsTo : Nat → TypeId → TypeId → Comparison Bool
  | 0, _, _ => pure false
  | n + 1, target, source =>
    if target = source then pure true
    else do
      match ← enter (target, source) with
      | .entered =>
        let accepted ← acceptsAbove c (acceptsTo n) target source
        leave (target, source)
        pure accepted
      | .cycle => pure true
      | .tooDeep | .tooLong => pure false

/-- Whether a value of type `source` can be used where `target` is expected. -/
def accepts (target source : TypeId) : Comparison Bool :=
  acceptsTo c (Limits.assignability.maxDepth.toNat + 1) target source

/-- Run comparisons under a guard of their own. -/
def runFresh {α : Type} (m : Comparison α) : Engine α := do
  let (a, guard) ← StateT.run m { limits := .assignability }
  Engine.retire guard
  pure a

end Comparison

/-- Whether a value of type `source` can be used where `target` is expected. -/
def Engine.isAssignable (c : Catalog) (target source : TypeId) : Engine Bool :=
  Comparison.runFresh (Comparison.accepts c target source)

end Generics
