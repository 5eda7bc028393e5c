import Generics.Catalog
import Generics.Event
import Generics.Guard

/-!
# Engine computations

The engine reads a catalog, which stays as it is, and works on a session: it interns types, reports
events to whoever listens, and notes the faults of its guards and whether one of them has cut a walk
short.  All it can do to a session is built from the operations of this file.
-/

namespace Generics

/-- What engine computations work on. -/
structure Session where
  types : Types := .empty
  /-- The events so far, when somebody listens. -/
  log : Option (Array Event) := none
  /-- The misuses of guards so far. -/
  faults : List GuardFault := []
  /-- Whether a guard has refused a step because of its limits. -/
  limited : Bool := false

/-- A computation on a session. -/
abbrev Engine := StateM Session

namespace Engine

variable {α κ : Type}

/-- Read the session through a view. -/
def query (c : Catalog) (f : View → α) : Engine α :=
  modifyGet fun s => (f (c.view s.types), s)

/-- The handle of a node, which is added when it is new. -/
def intern (n : Node) : Engine TypeId :=
  modifyGet fun s =>
    let (t, types) := s.types.intern n
    (t, { s with types })

/-- Report an event, if somebody listens. -/
def report (c : Catalog) (event : View → Event) : Engine Unit :=
  modify fun s => { s with log := s.log.map fun events => events.push (event (c.view s.types)) }

/-- Note a misuse of a guard. -/
def fault (f : GuardFault) : Engine Unit :=
  modify fun s => { s with faults := f :: s.faults }

/-- Note whether a guard has refused a step. -/
def noteLimit (refused : Bool) : Engine Unit :=
  modify fun s => { s with limited := s.limited || refused }

/-- Stop visiting `key`; a guard that is not visiting it stays as it is. -/
def leave [DecidableEq κ] (g : Guard κ) (key : κ) : Engine (Guard κ) :=
  match g.leave key with
  | .ok g => pure g
  | .error f => do
    fault f
    pure g

/-- Give a guard up. -/
def retire (g : Guard κ) : Engine Unit := do
  noteLimit g.exceeded
  match g.retire with
  | .ok () => pure ()
  | .error f => fault f

/-- The definition `d` applied to its own parameters. -/
def definitionType (c : Catalog) (d : DefId) : Engine (Option TypeId) :=
  match c.definitions.get? d with
  | none => pure none
  | some info => do
    let params ← (List.range info.arity).mapM fun i => intern (.param ⟨d, i⟩)
    let t ← intern (.app d params)
    pure (some t)

/-- The definition `d` applied to its own parameters; an unknown definition has none. -/
def openType (c : Catalog) (d : DefId) : Engine TypeId := do
  match ← definitionType c d with
  | some t => pure t
  | none => intern (.named d)

/-! ## What the operations do to a session -/

theorem bind_apply {β : Type} (m : Engine α) (f : α → Engine β) (s : Session) :
    (m >>= f) s = f (m s).1 (m s).2 :=
  rfl

theorem map_apply {β : Type} (f : α → β) (m : Engine α) (s : Session) :
    (f <$> m) s = (f (m s).1, (m s).2) :=
  rfl

theorem query_apply (c : Catalog) (f : View → α) (s : Session) :
    query c f s = (f (c.view s.types), s) :=
  rfl

theorem intern_apply (n : Node) (s : Session) :
    intern n s = ((s.types.intern n).1, { s with types := (s.types.intern n).2 }) :=
  rfl

theorem report_types (c : Catalog) (event : View → Event) (s : Session) :
    (report c event s).2.types = s.types :=
  rfl

theorem leave_apply_of_ok [DecidableEq κ] {g g' : Guard κ} {key : κ} (h : g.leave key = .ok g')
    (s : Session) : leave g key s = (g', s) := by
  rw [leave, h]
  rfl

theorem leave_types [DecidableEq κ] (g : Guard κ) (key : κ) (s : Session) :
    (leave g key s).2.types = s.types := by
  unfold leave
  cases g.leave key <;> rfl

theorem retire_types (g : Guard κ) (s : Session) : (retire g s).2.types = s.types := by
  unfold retire
  cases g.retire <;> rfl

theorem retire_limited (g : Guard κ) (s : Session) :
    (retire g s).2.limited = (s.limited || g.exceeded) := by
  unfold retire
  cases g.retire <;> rfl

end Engine

end Generics
