import Generics.Ident
import Generics.InternTable

/-!
# Types

A type is a definition without arguments, a definition applied to arguments, or a parameter.  The
arguments of an application are handles, so a type is a node of a graph, and equal nodes have one
handle: to compare two types is to compare two numbers.  An application to no arguments is the
definition itself and is stored in that form.
-/

namespace Generics

/-- The outermost layer of a type. -/
inductive Node
  /-- A definition without parameters. -/
  | named (d : DefId)
  /-- A definition applied to arguments. -/
  | app (d : DefId) (args : List TypeId)
  /-- A parameter of some definition. -/
  | param (p : Param)
  deriving DecidableEq, Inhabited, Repr

namespace Node

/-- The definition that a node is an instance of. -/
def definition? : Node → Option DefId
  | named d => some d
  | app d _ => some d
  | param _ => none

/-- The arguments of an application; other nodes have none. -/
def args : Node → List TypeId
  | app _ args => args
  | _ => []

/-- An application to no arguments is the definition itself. -/
def normal : Node → Node
  | app d [] => named d
  | n => n

theorem args_normal (n : Node) : n.normal.args = n.args := by
  unfold normal
  split <;> rfl

/-- The numbers that tell a node from all others. -/
def key : Node → List Nat
  | named d => [0, d.val]
  | app d args => 1 :: d.val :: args.map TypeId.val
  | param p => [2, p.owner.val, p.index]

theorem key_injective {n m : Node} (h : n.key = m.key) : n = m := by
  cases n <;> cases m <;>
    simp_all [key, DefId.ext_iff, Param.ext_iff, List.map_inj_right fun _ _ => TypeId.ext]

instance : Ord Node := ⟨compareOn key⟩

instance : Std.TransOrd Node := inferInstanceAs (Std.TransCmp (compareOn key))

instance : Std.LawfulEqOrd Node := lawfulEqCmp_compareOn key_injective

end Node

/-- The types interned so far. -/
structure Types where
  nodes : InternTable Node

namespace Types

def empty : Types := ⟨.empty⟩

instance : Inhabited Types := ⟨empty⟩

def size (ts : Types) : Nat := ts.nodes.size

/-- The node of the type `t`. -/
def get? (ts : Types) (t : TypeId) : Option Node := ts.nodes.get? t.val

/-- The handle of a node, which is added when it is new. -/
def intern (ts : Types) (n : Node) : TypeId × Types :=
  let (i, nodes) := ts.nodes.intern n.normal
  (⟨i⟩, ⟨nodes⟩)

/-! ## Reading after interning -/

theorem get?_intern_self (ts : Types) (n : Node) :
    (ts.intern n).2.get? (ts.intern n).1 = some n.normal :=
  ts.nodes.get?_intern_self n.normal

theorem get?_intern_of_lt {ts : Types} (n : Node) {t : TypeId} (h : t.val < ts.size) :
    (ts.intern n).2.get? t = ts.get? t :=
  ts.nodes.get?_intern_of_lt n.normal h

/-- What is read after interning was there before, or it is the new node. -/
theorem get?_intern_cases {ts : Types} {n m : Node} {t : TypeId}
    (h : (ts.intern n).2.get? t = some m) :
    ts.get? t = some m ∨ ts.size ≤ t.val ∧ m = n.normal :=
  ts.nodes.get?_intern_cases h

/-- Known nodes have one handle each. -/
theorem eq_of_get?_eq_some {ts : Types} {t u : TypeId} {n : Node} (ht : ts.get? t = some n)
    (hu : ts.get? u = some n) : t = u :=
  congrArg TypeId.mk (ts.nodes.eq_of_get?_eq_some ht hu)

theorem get?_eq_none_iff (ts : Types) (t : TypeId) : ts.get? t = none ↔ ts.size ≤ t.val :=
  ts.nodes.get?_eq_none_iff t.val

/-- A node that is known in its normal form is not added again. -/
theorem intern_of_get? {ts : Types} {n : Node} {t : TypeId} (h : ts.get? t = some n.normal) :
    ts.intern n = (t, ts) := by
  rw [intern, InternTable.intern_of_find?_eq_some ((ts.nodes.find?_eq_some_iff _ _).2 h)]

end Types

end Generics
