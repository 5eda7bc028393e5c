import Generics.View
import Std.Data.TreeSet

/-!
# The parameters of a type

Which parameters a type mentions, in order of first occurrence, and whether it mentions one of a
given list.  Types are graphs with much sharing, so both walks visit each type once: the first
keeps the types it has entered, the second the types it knows to be clean.
-/

namespace Generics

namespace View

variable (v : View)

/-- The parameters found so far, and the types entered so far. -/
structure Mentions where
  params : List Param
  entered : Std.TreeSet TypeId

/-- Note one more parameter, unless it is there already. -/
def Mentions.add (m : Mentions) (p : Param) : Mentions :=
  if p ∈ m.params then m else { m with params := m.params ++ [p] }

/-- Walk through `t` from left to right and note its parameters. -/
def mentionsFrom : Nat → Mentions → TypeId → Mentions
  | 0, m, _ => m
  | n + 1, m, t =>
    if m.entered.contains t then m
    else
      let m := { m with entered := m.entered.insert t }
      match v.node? t with
      | some (.param p) => m.add p
      | some (.app _ args) => args.foldl (mentionsFrom n) m
      | _ => m

/-- Append to `ps` the parameters that `t` mentions and `ps` lacks. -/
def addParams (ps : List Param) (t : TypeId) : List Param :=
  (v.mentionsFrom v.bound ⟨ps, ∅⟩ t).params

/-- The parameters that `t` mentions, in order of first occurrence. -/
def params (t : TypeId) : List Param := v.addParams [] t

/-- The parameters of `d` that `t` mentions. -/
def paramsOf (d : DefId) (t : TypeId) : List Param := (v.params t).filter (·.owner == d)

/-- Walk through `t` in search of a parameter of `ps`: nothing is left once one is found, and
otherwise the types known to mention none. -/
def cleanFrom (ps : List Param) : Nat → Std.TreeSet TypeId → TypeId → Option (Std.TreeSet TypeId)
  | 0, clean, _ => some clean
  | n + 1, clean, t =>
    if clean.contains t then some clean
    else
      match v.node? t with
      | some (.param p) => if p ∈ ps then none else some (clean.insert t)
      | some (.app _ args) => (args.foldlM (cleanFrom ps n) clean).map (·.insert t)
      | _ => some (clean.insert t)

/-- Whether `t` mentions a parameter of `ps`. -/
def mentionsAny (t : TypeId) (ps : List Param) : Bool :=
  !ps.isEmpty && (v.cleanFrom ps v.bound ∅ t).isNone

/-- Whether `t` mentions parameters of its own definition without being the open definition. -/
def isPartiallyClosed (t : TypeId) : Bool :=
  match v.definitionOf t with
  | some d => !(v.paramsOf d t).isEmpty && !v.isOpenDefinition t
  | none => false

end View

end Generics
