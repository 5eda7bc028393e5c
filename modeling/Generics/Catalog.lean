import Generics.Names
import Generics.View

/-!
# Catalogs

A catalog is what a resolution reads and never changes: names, definitions, and the types whose
shape the host replaces.  Together with the types interned so far it is a view.
-/

namespace Generics

/-- What a resolution reads and never changes. -/
structure Catalog where
  names : Names := .initial
  definitions : Definitions := {}
  /-- Types that have another shape than the interned one, or none; the first entry of a type
  counts. -/
  overrides : List (TypeId × Option Node) := []

namespace Catalog

/-- The shape of `t` beside the interned types `ts`. -/
def node? (c : Catalog) (ts : Types) (t : TypeId) : Option Node :=
  (c.overrides.lookup t).getD (ts.get? t)

theorem node?_of_overrides_eq_nil {c : Catalog} (h : c.overrides = []) (ts : Types) (t : TypeId) :
    c.node? ts t = ts.get? t := by
  rw [node?, h]
  rfl

/-- Read access to the catalog and the interned types `ts`. -/
def view (c : Catalog) (ts : Types) : View where
  node? := c.node? ts
  definition? := c.definitions.get?
  name? := c.names.get?
  bound := ts.size + c.overrides.length + 1

/-- The catalog with every type in its interned shape. -/
def withoutOverrides (c : Catalog) : Catalog := { c with overrides := [] }

end Catalog

end Generics
