import Generics.Engine
import Generics.View.Text

/-!
# Stores

A store is a catalog together with a session: names, definitions and types in one place.
Definitions are registered first and completed afterwards, because their constraints and supertypes
may mention themselves.
-/

namespace Generics

/-- Names, definitions and types. -/
structure Store where
  catalog : Catalog := {}
  session : Session := {}

namespace Store

/-- Run an engine computation on the store. -/
def run {α : Type} (s : Store) (m : Catalog → Engine α) : α × Store :=
  let (a, session) := m s.catalog s.session
  (a, { s with session })

/-- The handle of a name, which is added when it is new. -/
def internName (s : Store) (text : String) : Atom × Store :=
  let (a, names) := s.catalog.names.intern text
  (a, { s with catalog := { s.catalog with names } })

/-- Store a definition under the next handle. -/
def register (s : Store) (info : Definition) : DefId × Store :=
  let (d, definitions) := s.catalog.definitions.register info
  let s := { s with catalog := { s.catalog with definitions } }
  let ((), s) := s.run fun c => do
    Engine.report c fun _ => .allocated d
    Engine.report c fun _ => .registered d info.kind info.arity
  (d, s)

/-- Declarations of parameters that only have names. -/
def declareParams (s : Store) : List String → List ParamDecl × Store
  | [] => ([], s)
  | text :: rest =>
    let (name, s) := s.internName text
    let (decls, s) := s.declareParams rest
    ({ name } :: decls, s)

/-- Store a definition that has a name and named parameters. -/
def declare (s : Store) (kind : Kind) (name : String) (params : List String) : DefId × Store :=
  let (name, s) := s.internName name
  let (params, s) := s.declareParams params
  s.register { kind, name, params }

/-! ## Completing definitions -/

/-- Change the definition `d`, if it is known. -/
def update? (s : Store) (d : DefId) (f : Definition → Definition) : Option Store :=
  if (s.catalog.definitions.get? d).isSome then
    some { s with catalog :=
      { s.catalog with definitions := s.catalog.definitions.update d f } }
  else none

/-- Change the declaration of the parameter `p`, if it is known. -/
def updateParam? (s : Store) (p : Param) (f : ParamDecl → ParamDecl) : Option Store :=
  if (s.catalog.definitions.param? p).isSome then
    some { s with catalog :=
      { s.catalog with definitions := s.catalog.definitions.updateParam p f } }
  else none

/-- Set the base class of `d`. -/
def setBase? (s : Store) (d : DefId) (base : TypeId) : Option Store :=
  s.update? d fun info => { info with base := some base }

/-- Add an interface to `d`. -/
def addInterface? (s : Store) (d : DefId) (interface : TypeId) : Option Store :=
  s.update? d fun info => { info with interfaces := info.interfaces ++ [interface] }

/-- Replace the constraints of `p`. -/
def constrain? (s : Store) (p : Param) (constraints : List TypeId) : Option Store :=
  s.updateParam? p fun decl => { decl with constraints }

/-- Add special constraints to `p`. -/
def addSpecial? (s : Store) (p : Param) (special : Special) : Option Store :=
  s.updateParam? p fun decl => { decl with special := decl.special ∪ special }

/-- Set the variance of `p`. -/
def setVariance? (s : Store) (p : Param) (variance : Variance) : Option Store :=
  s.updateParam? p fun decl => { decl with variance }

/-! ## Views of a store -/

/-- Give `t` another shape than its interned one, or none. -/
def override (s : Store) (t : TypeId) (node : Option Node) : Store :=
  { s with catalog := { s.catalog with overrides := (t, node) :: s.catalog.overrides } }

/-- Read access to the store. -/
def view (s : Store) : View := s.catalog.view s.session.types

/-- The text of `t` by its interned shape. -/
def format (s : Store) (t : TypeId) : String :=
  (s.catalog.withoutOverrides.view s.session.types).format t

end Store

end Generics
