/-!
# Quoted strings

Between its quotes a string holds characters and escapes, but no control characters.  An escape by
number gives one unit of 16 bits; a high and a low surrogate together are one character, and either
of them alone is none.
-/

namespace Generics

namespace Json

/-- The value of a hexadecimal digit. -/
def hexDigit? (c : Char) : Option Nat :=
  if '0' ≤ c ∧ c ≤ '9' then some (c.toNat - 48)
  else if 'a' ≤ c ∧ c ≤ 'f' then some (c.toNat - 87)
  else if 'A' ≤ c ∧ c ≤ 'F' then some (c.toNat - 55)
  else none

/-- The unit that four hexadecimal digits denote. -/
def hexUnit? (a b c d : Char) : Option Nat := do
  let a ← hexDigit? a
  let b ← hexDigit? b
  let c ← hexDigit? c
  let d ← hexDigit? d
  pure (((a * 16 + b) * 16 + c) * 16 + d)

/-- The character that a backslash and `c` denote. -/
def escaped? : Char → Option Char
  | '"' => some '"'
  | '\\' => some '\\'
  | '/' => some '/'
  | 'b' => some '\x08'
  | 'f' => some '\x0c'
  | 'n' => some '\n'
  | 'r' => some '\x0d'
  | 't' => some '\t'
  | _ => none

/-- The content of a string up to its closing quote, as it is written, and the text after it. -/
def readQuoted : List Char → Option (List Char × List Char)
  | [] => none
  | '"' :: rest => some ([], rest)
  | '\\' :: 'u' :: a :: b :: c :: d :: rest => do
    let _ ← hexUnit? a b c d
    let (raw, rest) ← readQuoted rest
    pure ('\\' :: 'u' :: a :: b :: c :: d :: raw, rest)
  | '\\' :: e :: rest => do
    let _ ← escaped? e
    let (raw, rest) ← readQuoted rest
    pure ('\\' :: e :: raw, rest)
  | c :: rest =>
    if c < ' ' then none
    else do
      let (raw, rest) ← readQuoted rest
      pure (c :: raw, rest)

def isHighSurrogate (u : Nat) : Bool := 0xD800 ≤ u && u < 0xDC00

def isLowSurrogate (u : Nat) : Bool := 0xDC00 ≤ u && u < 0xE000

/-- The character of a high and a low surrogate. -/
def joinSurrogates (high low : Nat) : Char :=
  Char.ofNat (0x10000 + (high - 0xD800) * 0x400 + (low - 0xDC00))

/-- The characters that the content of a string denotes, if all its escapes denote some. -/
def decode : List Char → Option (List Char)
  | [] => some []
  | '\\' :: 'u' :: a :: b :: c :: d :: rest => do
    let u ← hexUnit? a b c d
    if isLowSurrogate u then none
    else if isHighSurrogate u then
      match rest with
      | '\\' :: 'u' :: a :: b :: c :: d :: rest => do
        let w ← hexUnit? a b c d
        if isLowSurrogate w then
          let cs ← decode rest
          pure (joinSurrogates u w :: cs)
        else none
      | _ => none
    else
      let cs ← decode rest
      pure (Char.ofNat u :: cs)
  | '\\' :: e :: rest => do
    let c ← escaped? e
    let cs ← decode rest
    pure (c :: cs)
  | c :: rest => do
    let cs ← decode rest
    pure (c :: cs)

end Json

end Generics
