import Generics.View

/-!
# Types as text

A type is written as its definition's name, with the arguments between angle brackets.  What has no
name is written as its number.
-/

namespace Generics

namespace View

variable (v : View)

def definitionName (d : DefId) : String :=
  ((v.definition? d).bind (v.name? ·.name)).getD s!"<def #{d.val}>"

def paramName (p : Param) : String :=
  ((v.param? p).bind (v.name? ·.name)).getD s!"<param {p.owner.val}#{p.index}>"

/-- The text of `t`, down to the given depth. -/
def formatTo : Nat → TypeId → String
  | 0, _ => ""
  | n + 1, t =>
    match v.node? t with
    | some (.named d) => v.definitionName d
    | some (.app d args) => v.definitionName d ++ "<" ++ ", ".intercalate (args.map (formatTo n)) ++ ">"
    | some (.param p) => v.paramName p
    | none => s!"<unknown #{t.val}>"

/-- The text of `t`. -/
def format (t : TypeId) : String := v.formatTo v.bound t

end View

end Generics
