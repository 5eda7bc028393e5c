import Generics.Construct
import Generics.Unify

/-!
# Closing an implementation

Unification yields types for the parameters of the implementation's definition.  The implementation
itself may carry other arguments: fixed ones, and ones that mention the parameters it leaves free.
To close it, the free parameters are bound by matching the open arguments with the types found, open
positions that were not reached are filled from those bindings, every position must agree with what
the implementation carries there, and the result must be constructible and acceptable.
-/

namespace Generics

/-- Why a candidate does not close the implementation. -/
inductive Rejection
  | unify (e : UnifyError)
  | argumentCount (expected resolved : Nat)
  | fixedMismatch (position : Nat) (fixed : TypeId) (candidate : Option TypeId)
  | construct (e : ConstructError)
  | notAssignable (closed abstraction : TypeId)
  deriving DecidableEq, Repr

def Rejection.message : Rejection → String
  | unify e => e.message
  | argumentCount expected resolved =>
    s!"resolved {resolved} of {expected} open implementation parameters"
  | fixedMismatch position fixed candidate =>
    s!"argument {position} is fixed to {fixed.label} but resolved to {TypeId.labelOption candidate}"
  | construct e => e.message
  | notAssignable closed abstraction =>
    s!"{closed.label} is not assignable to {abstraction.label}"

/-- One argument of the implementation. -/
structure Slot where
  position : Nat
  /-- What the implementation carries here. -/
  fixed : TypeId
  /-- What the closed type shall carry here, when that is known. -/
  candidate : Option TypeId
  deriving DecidableEq, Repr

/-- An implementation to be closed. -/
structure Closing where
  definition : DefId
  args : List TypeId
  /-- The parameters that the arguments mention. -/
  free : List Param
  limits : Limits := .unification

/-- The type for a slot with a fixed argument `fixed`: the one that was found, or else a fixed
argument that mentions no free parameter. -/
def View.candidateFor (v : View) (free : List Param) (fixed : TypeId) :
    Option TypeId → Option TypeId
  | some t => some t
  | none => if v.mentionsAny fixed free then none else some fixed

/-- A slot is settled when its candidate is the fixed argument, or when that was left open. -/
def Slot.isSettled (s : Slot) (v : View) (free : List Param) : Bool :=
  match s.candidate with
  | none => false
  | some t => t == s.fixed || v.mentionsAny s.fixed free

namespace Closing

variable (c : Catalog) (k : Closing)

/-- The slots of the implementation, given types for the parameters of its definition. -/
def slots (v : View) (found : Substitution) : List Slot :=
  k.args.mapIdx fun i fixed => ⟨i, fixed, v.candidateFor k.free fixed (found.get? ⟨k.definition, i⟩)⟩

/-- The arguments that mention free parameters, with the types they must become. -/
def openPairs (v : View) (slots : List Slot) : List (TypeId × TypeId) :=
  (slots.filter fun s => v.mentionsAny s.fixed k.free).filterMap fun s =>
    s.candidate.map fun t => (s.fixed, t)

/-- Bind the free parameters by unifying open arguments with what they must become. -/
def bindFree (slots : List Slot) : Engine (Except UnifyError Substitution) := do
  let pairs ← Engine.query c (k.openPairs · slots)
  let unknowns := { free := k.free, closure := .ofArgs k.definition k.args }
  Unifier.runFresh k.limits <| Unifier.unify c unknowns (pairs.map (·.1)) (pairs.map (·.2))

/-- Whether every free parameter is bound. -/
def checkCount (σ : Substitution) : Except Rejection Unit :=
  let resolved := k.free.countP σ.contains
  if resolved = k.free.length then .ok () else .error (.argumentCount k.free.length resolved)

/-- Fill a slot that has no candidate, if `σ` closes its fixed argument. -/
def fillSlot (σ : Substitution) (s : Slot) : Engine Slot :=
  match s.candidate with
  | some _ => pure s
  | none => do
    let t ← Engine.instantiate c s.fixed σ
    if ← Engine.query c (·.mentionsAny t k.free) then pure s
    else pure { s with candidate := some t }

/-- The candidate of a slot, if the slot is settled. -/
def settle (v : View) (s : Slot) : Except Rejection TypeId :=
  match s.candidate with
  | some t =>
    if s.isSettled v k.free then .ok t else .error (.fixedMismatch s.position s.fixed s.candidate)
  | none => .error (.fixedMismatch s.position s.fixed s.candidate)

/-- The arguments of the closed type, or the first slot that is not settled. -/
def closedArgs (v : View) (slots : List Slot) : Except Rejection (List TypeId) :=
  slots.mapM (k.settle v)

/-- The arguments of the closed type, given types for the parameters of its definition. -/
def argsFor (found : Substitution) : ExceptT Rejection Engine (List TypeId) := do
  let slots ← monadLift (Engine.query c (k.slots · found))
  match ← monadLift (k.bindFree c slots) with
  | .error e => throw (.unify e)
  | .ok σ =>
    ExceptT.mk (pure (k.checkCount σ))
    let slots ← monadLift (slots.mapM (k.fillSlot c σ))
    ExceptT.mk (Engine.query c (k.closedArgs · slots))

/-- Construct the closed type and compare it with the abstraction. -/
def checkClosed (abstraction : TypeId) (args : List TypeId) : ExceptT Rejection Engine TypeId := do
  match ← monadLift (Engine.construct c k.definition args) with
  | .error e => throw (.construct e)
  | .ok closed =>
    if ← monadLift (Engine.isAssignable c abstraction closed) then pure closed
    else throw (.notAssignable closed abstraction)

/-- Close the implementation for `abstraction`, given types for the parameters of its definition. -/
def close (abstraction : TypeId) (found : Substitution) : ExceptT Rejection Engine TypeId := do
  let args ← k.argsFor c found
  k.checkClosed c abstraction args

end Closing

end Generics
