import Generics.Instantiate

/-!
# Supertypes

The supertypes of a type are the type itself, its base classes and its interfaces, each specialised
to the type's arguments; those of a parameter are reached through its constraints.  Nothing keeps
declarations from forming cycles or from generating new types without end, so the walk enters each
type once and is guarded.
-/

namespace Generics

namespace View

variable (v : View)

/-- The declared supertypes of `t`, and the substitution that specialises them to `t`. -/
def declaredSupertypes (t : TypeId) : Substitution × List TypeId :=
  match v.node? t with
  | some (.param p) => (.empty, ((v.param? p).map (·.constraints)).getD [])
  | some (.named d) => (.empty, ((v.definition? d).map (·.supertypes)).getD [])
  | some (.app d args) => (.ofArgs d args, ((v.definition? d).map (·.supertypes)).getD [])
  | none => (.empty, [])

end View

/-- A walk through the supertypes of a type. -/
structure Climb where
  found : InternTable TypeId
  guard : Guard TypeId

namespace Engine

/-- Add `t` and what lies above it to the types found, depth first. -/
def climb (c : Catalog) : Nat → Climb → TypeId → Engine Climb
  | 0, w, _ => pure w
  | n + 1, w, t =>
    if w.found.contains t then pure w
    else
      match w.guard.enter t with
      | (.entered, guard) => do
        let (σ, declared) ← query c (·.declaredSupertypes t)
        let w ← declared.foldlM
          (fun w s => do
            let s ← instantiate c s σ
            climb c n w s)
          ⟨w.found.insert t, guard⟩
        let guard ← leave w.guard t
        pure { w with guard }
      | (_, guard) => pure ⟨w.found.insert t, guard⟩

/-- The supertypes of `t`, itself included, in order of discovery. -/
def supertypes (c : Catalog) (t : TypeId) : Engine (InternTable TypeId) := do
  let limits := Limits.hierarchy
  let w ← climb c (limits.maxDepth.toNat + 1) ⟨.empty, { limits }⟩ t
  if w.guard.exceeded then report c fun _ => .truncated t w.found.size
  retire w.guard
  pure w.found

end Engine

/-! ## Candidates -/

/-- A supertype of an implementation that may serve an abstraction. -/
structure Candidate where
  type : TypeId
  args : List TypeId
  deriving DecidableEq, Repr

namespace View

variable (v : View)

/-- The types among `above` that may serve `abstraction`, whose node is `requested`: the instances
of the same definition, or the very same type when it has no arguments. -/
def candidatesAmong (above : List TypeId) (abstraction : TypeId) (requested : Node) :
    List Candidate :=
  match requested with
  | .app d _ => (above.filter (v.isApplicationOf d)).map fun t => ⟨t, v.argsOf t⟩
  | .named _ => (above.filter (· == abstraction)).map fun t => ⟨t, []⟩
  | .param _ => []

end View

namespace Engine

/-- The supertypes of `implementation` that may serve `abstraction`, in order of discovery. -/
def candidates (c : Catalog) (implementation abstraction : TypeId) : Engine (List Candidate) := do
  match ← query c (·.node? abstraction) with
  | none => pure []
  | some requested =>
    let above ← supertypes c implementation
    let found ← query c (·.candidatesAmong above.toList abstraction requested)
    report c fun _ => .enumerated implementation abstraction above.size found.length
    pure found

end Engine

end Generics
