import Generics.Json.Read

/-!
# The grammar of JSON text

Which texts a document has, said without a reader.  Documents keep numbers and strings as they are
written, so a number has one text and a string has one text; what differs is the blanks.  What the
content of a string denotes is a relation of its own, since some contents denote nothing.
-/

namespace Generics

namespace Json

/-! ## Tokens -/

/-- Blanks may stand around every token. -/
def Blank (cs : List Char) : Prop := ∀ c ∈ cs, isBlank c

instance (cs : List Char) : Decidable (Blank cs) := decidable_of_iff (cs.all isBlank) List.all_eq_true

/-- Decimal digits, at least one. -/
structure Digits (cs : List Char) : Prop where
  ne_nil : cs ≠ []
  isDigit : ∀ c ∈ cs, c.isDigit

/-- The integral part of a number has no leading zeros. -/
inductive Integral : List Char → Prop
  | zero : Integral ['0']
  | digits {d : Char} {ds : List Char} (hd : d ≠ '0') (h : Digits (d :: ds)) : Integral (d :: ds)

inductive Fraction : List Char → Prop
  | absent : Fraction []
  | digits {ds : List Char} (h : Digits ds) : Fraction ('.' :: ds)

inductive Sign : List Char → Prop
  | absent : Sign []
  | plus : Sign ['+']
  | minus : Sign ['-']

inductive Exponent : List Char → Prop
  | absent : Exponent []
  | digits {e : Char} {sign ds : List Char} (he : e = 'e' ∨ e = 'E') (hs : Sign sign)
      (h : Digits ds) : Exponent (e :: sign ++ ds)

/-- A number without its sign. -/
inductive Unsigned : List Char → Prop
  | mk {i f e : List Char} (hi : Integral i) (hf : Fraction f) (he : Exponent e) :
      Unsigned (i ++ f ++ e)

inductive Number : List Char → Prop
  | positive {cs : List Char} (h : Unsigned cs) : Number cs
  | negative {cs : List Char} (h : Unsigned cs) : Number ('-' :: cs)

/-- What may stand between the quotes of a string. -/
inductive Content : List Char → Prop
  | nil : Content []
  | plain {c : Char} {raw : List Char} (hquote : c ≠ '"') (hescape : c ≠ '\\') (hcontrol : ¬c < ' ')
      (h : Content raw) : Content (c :: raw)
  | escape {e c : Char} {raw : List Char} (he : escaped? e = some c) (h : Content raw) :
      Content ('\\' :: e :: raw)
  | unit {a b c d : Char} {u : Nat} {raw : List Char} (hu : hexUnit? a b c d = some u)
      (h : Content raw) : Content ('\\' :: 'u' :: a :: b :: c :: d :: raw)

/-- The characters that the content of a string denotes.  A surrogate denotes something only as one
half of a pair. -/
inductive Denotes : List Char → List Char → Prop
  | nil : Denotes [] []
  | plain {c : Char} {raw name : List Char} (hescape : c ≠ '\\') (h : Denotes raw name) :
      Denotes (c :: raw) (c :: name)
  | escape {e c : Char} {raw name : List Char} (he : escaped? e = some c) (h : Denotes raw name) :
      Denotes ('\\' :: e :: raw) (c :: name)
  | unit {a b c d : Char} {u : Nat} {raw name : List Char} (hu : hexUnit? a b c d = some u)
      (hhigh : isHighSurrogate u = false) (hlow : isLowSurrogate u = false) (h : Denotes raw name) :
      Denotes ('\\' :: 'u' :: a :: b :: c :: d :: raw) (Char.ofNat u :: name)
  | pair {a b c d a' b' c' d' : Char} {u w : Nat} {raw name : List Char}
      (hu : hexUnit? a b c d = some u) (hhigh : isHighSurrogate u)
      (hw : hexUnit? a' b' c' d' = some w) (hlow : isLowSurrogate w) (h : Denotes raw name) :
      Denotes ('\\' :: 'u' :: a :: b :: c :: d :: '\\' :: 'u' :: a' :: b' :: c' :: d' :: raw)
        (joinSurrogates u w :: name)

/-! ## Documents -/

mutual

/-- The texts of a document that begin and end with a token. -/
inductive Value : Json → List Char → Prop
  | null : Value null ['n', 'u', 'l', 'l']
  | true : Value (bool true) ['t', 'r', 'u', 'e']
  | false : Value (bool false) ['f', 'a', 'l', 's', 'e']
  | number {text : List Char} (h : Number text) : Value (number text) text
  | string {raw : List Char} (h : Content raw) : Value (string raw) ('"' :: raw ++ ['"'])
  | emptyArray {ws : List Char} (h : Blank ws) : Value (array []) ('[' :: ws ++ [']'])
  | array {items : List Json} {cs : List Char} (h : Elements items cs) :
      Value (array items) ('[' :: cs ++ [']'])
  | emptyObject {ws : List Char} (h : Blank ws) : Value (object []) ('\x7b' :: ws ++ ['\x7d'])
  | object {members : List (List Char × Json)} {cs : List Char} (h : Members members cs) :
      Value (object members) ('\x7b' :: cs ++ ['\x7d'])

/-- The texts of a document. -/
inductive Element : Json → List Char → Prop
  | mk {j : Json} {ws cs ws' : List Char} (hws : Blank ws) (h : Value j cs) (hws' : Blank ws') :
      Element j (ws ++ cs ++ ws')

/-- The texts of the items of an array. -/
inductive Elements : List Json → List Char → Prop
  | last {j : Json} {cs : List Char} (h : Element j cs) : Elements [j] cs
  | more {j : Json} {js : List Json} {cs rest : List Char} (h : Element j cs)
      (hrest : Elements js rest) : Elements (j :: js) (cs ++ ',' :: rest)

/-- The texts of a member of an object. -/
inductive Member : List Char × Json → List Char → Prop
  | mk {key : List Char} {j : Json} {ws ws' cs : List Char} (hws : Blank ws) (hkey : Content key)
      (hws' : Blank ws') (h : Element j cs) :
      Member (key, j) (ws ++ '"' :: key ++ '"' :: ws' ++ ':' :: cs)

/-- The texts of the members of an object. -/
inductive Members : List (List Char × Json) → List Char → Prop
  | last {m : List Char × Json} {cs : List Char} (h : Member m cs) : Members [m] cs
  | more {m : List Char × Json} {ms : List (List Char × Json)} {cs rest : List Char}
      (h : Member m cs) (hrest : Members ms rest) : Members (m :: ms) (cs ++ ',' :: rest)

end

/-! ## Keys -/

theorem Member.content {m : List Char × Json} {cs : List Char} (h : Member m cs) : Content m.1 := by
  cases h with
  | mk _ hkey => exact hkey

theorem Members.content {ms : List (List Char × Json)} {cs : List Char} :
    Members ms cs → ∀ m ∈ ms, Content m.1
  | .last h => by simpa using h.content
  | .more h hrest => List.forall_mem_cons.2 ⟨h.content, hrest.content⟩

theorem Element.content_of_object {ms : List (List Char × Json)} {cs : List Char}
    (h : Element (object ms) cs) : ∀ m ∈ ms, Content m.1 := by
  cases h with
  | mk _ h =>
    cases h with
    | emptyObject => exact nofun
    | object h => exact h.content

/-! ## Rendered documents -/

variable {j : Json} {ms : List (List Char × Json)}

theorem blank_nil : Blank [] := nofun

/-- A text without blanks around it. -/
theorem Value.element {cs : List Char} (h : Value j cs) : Element j cs := by
  simpa using Element.mk blank_nil h blank_nil

theorem member_render {key : List Char} (hkey : Content key) (h : Value j j.render) :
    Member (key, j) ('"' :: key ++ '"' :: ':' :: j.render) := by
  simpa using Member.mk blank_nil hkey blank_nil h.element

theorem members_render (hne : ms ≠ []) (h : ∀ m ∈ ms, Content m.1 ∧ Value m.2 m.2.render) :
    Members ms (render.renderMembers ms) := by
  induction ms with
  | nil => exact absurd rfl hne
  | cons m ms ih =>
    obtain ⟨key, j⟩ := m
    obtain ⟨hkey, hvalue⟩ := h (key, j) (List.mem_cons_self ..)
    cases ms with
    | nil => exact .last (member_render hkey hvalue)
    | cons m ms =>
      have hrest := ih (List.cons_ne_nil m ms) fun m hm => h m (List.mem_cons_of_mem _ hm)
      simpa [render.renderMembers] using Members.more (member_render hkey hvalue) hrest

theorem object_render (hne : ms ≠ []) (h : ∀ m ∈ ms, Content m.1 ∧ Value m.2 m.2.render) :
    Value (object ms) (object ms).render := by
  rw [render]
  exact .object (members_render hne h)

end Json

end Generics
