import Generics.ResolveError
import Generics.View
import Std.Data.TreeSet

/-!
# Well-formed types

A type is well-formed when everything it mentions is known, every application has as many arguments
as its definition has parameters, and no type contains itself.  The check walks through the
arguments depth first and reports the first defect it meets.
-/

namespace Generics

namespace View

variable (v : View)

/-- Whether `d` is known and has as many parameters as `t` passes arguments. -/
def checkArity (t : TypeId) (d : DefId) (args : List TypeId) : Except ResolveError Unit :=
  match v.definition? d with
  | none => .error (.unknownDefinition d)
  | some info =>
    if info.arity = args.length then .ok ()
    else .error (.arityMismatch t info.arity args.length)

/-- Check `t` below the types of `path`, and add what is found to be well-formed to `good`. -/
def checkFrom : Nat → List TypeId → Std.TreeSet TypeId → TypeId →
    Except ResolveError (Std.TreeSet TypeId)
  | 0, _, _, t => .error (.cyclicType t)
  | n + 1, path, good, t =>
    if good.contains t then .ok good
    else if t ∈ path then .error (.cyclicType t)
    else
      match v.node? t with
      | none => .error (.unknownType t)
      | some (.param p) =>
        if (v.param? p).isSome then .ok (good.insert t) else .error (.unknownParameter p)
      | some (.named d) => do
        v.checkArity t d []
        pure (good.insert t)
      | some (.app d args) => do
        v.checkArity t d args
        let good ← args.foldlM (checkFrom n (t :: path)) good
        pure (good.insert t)

/-- Whether `t` is well-formed, and otherwise its first defect. -/
def check (t : TypeId) : Except ResolveError Unit :=
  (v.checkFrom v.bound [] ∅ t).map fun _ => ()

end View

end Generics
