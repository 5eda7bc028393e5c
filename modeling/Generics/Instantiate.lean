import Generics.Engine
import Generics.Substitution
import Std.Data.TreeMap

/-!
# Applying a substitution

To instantiate a type is to replace every mapped parameter in it, all at once; parameters that are
not mapped stay.  Types are graphs with much sharing, so the walk remembers the image of each type
that it has finished, and it interns a node only where an argument has changed.
-/

namespace Generics

namespace Engine

/-- The images of the types that a walk has finished. -/
abbrev Images := Std.TreeMap TypeId TypeId

/-- The image of a node of the type `t`, when `walk` gives the images of its arguments. -/
def imageOf (σ : Substitution) (walk : TypeId → StateT Images Engine TypeId) (t : TypeId) :
    Option Node → StateT Images Engine TypeId
  | some (.param p) => pure ((σ.get? p).getD t)
  | some (.app d args) => do
    let images ← args.mapM walk
    if images = args then pure t else intern (.app d images)
  | _ => pure t

/-- The image of `t`, down to the given depth. -/
def instantiateTo (c : Catalog) (σ : Substitution) : Nat → TypeId → StateT Images Engine TypeId
  | 0, t => pure t
  | n + 1, t => do
    match (← get)[t]? with
    | some image => pure image
    | none =>
      let node ← query c (·.node? t)
      let image ← imageOf σ (instantiateTo c σ n) t node
      modify (·.insert t image)
      pure image

/-- Replace every parameter in `t` that `σ` maps.  Nodes that are interned on the way may lie on a
path as well, hence twice the bound. -/
def instantiate (c : Catalog) (t : TypeId) (σ : Substitution) : Engine TypeId := do
  if σ.isEmpty then pure t
  else
    let bound ← query c (·.bound)
    let (image, _) ← (instantiateTo c σ (2 * bound) t).run ∅
    pure image

end Engine

end Generics
