import Generics.Ident
import Generics.InternTable

/-!
# Names

Definitions and parameters carry their names as handles into one table of distinct strings, which
holds the empty string from the start.
-/

namespace Generics

/-- A table of distinct names. -/
structure Names where
  texts : InternTable String

namespace Names

/-- The handle of a name, which is added when it is new. -/
def intern (ns : Names) (text : String) : Atom × Names :=
  let (i, texts) := ns.texts.intern text
  (⟨i⟩, ⟨texts⟩)

/-- The table that holds the empty name only. -/
def initial : Names := (Names.mk .empty).intern "" |>.2

instance : Inhabited Names := ⟨initial⟩

/-- The name with the handle `a`. -/
def get? (ns : Names) (a : Atom) : Option String := ns.texts.get? a.val

/-- How many names there are, the empty one included. -/
def size (ns : Names) : Nat := ns.texts.size

/-! ## Reading after interning -/

theorem get?_intern_self (ns : Names) (text : String) :
    (ns.intern text).2.get? (ns.intern text).1 = some text :=
  ns.texts.get?_intern_self text

theorem get?_intern_of_lt {ns : Names} (text : String) {a : Atom} (h : a.val < ns.size) :
    (ns.intern text).2.get? a = ns.get? a :=
  ns.texts.get?_intern_of_lt text h

end Names

end Generics
