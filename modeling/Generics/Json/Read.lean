import Generics.Json
import Generics.Json.Quoted

/-!
# Reading JSON text

The grammar is strict: one document, blanks around tokens only, no leading zeros, no trailing
commas, and nothing after the document.
-/

namespace Generics

namespace Json

def isBlank (c : Char) : Bool := c == ' ' || c == '\t' || c == '\n' || c == '\x0d'

def skipBlanks (cs : List Char) : List Char := cs.dropWhile isBlank

/-- The digits at the start of a text, and the text after them. -/
def spanDigits (cs : List Char) : List Char × List Char := cs.span Char.isDigit

/-- Digits at the start of a text, at least one. -/
def readDigits (cs : List Char) : Option (List Char × List Char) :=
  match spanDigits cs with
  | ([], _) => none
  | r => some r

/-- The integral part of a number: 0, or digits of which the first is not 0. -/
def readIntegral : List Char → Option (List Char × List Char)
  | '0' :: rest => some (['0'], rest)
  | cs => readDigits cs

/-- The fraction of a number, if there is one. -/
def readFraction : List Char → Option (List Char × List Char)
  | '.' :: rest => do
    let (digits, rest) ← readDigits rest
    pure ('.' :: digits, rest)
  | cs => some ([], cs)

/-- The sign of an exponent, if there is one. -/
def readSign : List Char → List Char × List Char
  | '+' :: rest => (['+'], rest)
  | '-' :: rest => (['-'], rest)
  | cs => ([], cs)

/-- The exponent of a number, if there is one. -/
def readExponent : List Char → Option (List Char × List Char)
  | [] => some ([], [])
  | e :: rest =>
    if e = 'e' ∨ e = 'E' then do
      let (sign, rest) := readSign rest
      let (digits, rest) ← readDigits rest
      pure (e :: sign ++ digits, rest)
    else some ([], e :: rest)

/-- A number without its sign. -/
def readUnsigned (cs : List Char) : Option (List Char × List Char) := do
  let (integral, cs) ← readIntegral cs
  let (fraction, cs) ← readFraction cs
  let (exponent, cs) ← readExponent cs
  pure (integral ++ fraction ++ exponent, cs)

/-- A number as it is written, and the text after it. -/
def readNumber : List Char → Option (List Char × List Char)
  | '-' :: rest => do
    let (text, rest) ← readUnsigned rest
    pure ('-' :: text, rest)
  | cs => readUnsigned cs

mutual

/-- The document at the start of a text, and the text after it. -/
def readValue : Nat → List Char → Option (Json × List Char)
  | 0, _ => none
  | n + 1, cs =>
    match skipBlanks cs with
    | 'n' :: 'u' :: 'l' :: 'l' :: rest => some (null, rest)
    | 't' :: 'r' :: 'u' :: 'e' :: rest => some (bool true, rest)
    | 'f' :: 'a' :: 'l' :: 's' :: 'e' :: rest => some (bool false, rest)
    | '"' :: rest => do
      let (raw, rest) ← readQuoted rest
      pure (string raw, rest)
    | '[' :: rest =>
      match skipBlanks rest with
      | ']' :: rest => some (array [], rest)
      | rest => do
        let (items, rest) ← readItems n rest
        pure (array items, rest)
    | '\x7b' :: rest =>
      match skipBlanks rest with
      | '\x7d' :: rest => some (object [], rest)
      | rest => do
        let (members, rest) ← readMembers n rest
        pure (object members, rest)
    | cs => do
      let (text, rest) ← readNumber cs
      pure (number text, rest)

/-- The items of an array up to its end, at least one. -/
def readItems : Nat → List Char → Option (List Json × List Char)
  | 0, _ => none
  | n + 1, cs => do
    let (item, rest) ← readValue n cs
    match skipBlanks rest with
    | ',' :: rest => do
      let (items, rest) ← readItems n rest
      pure (item :: items, rest)
    | ']' :: rest => pure ([item], rest)
    | _ => none

/-- The members of an object up to its end, at least one. -/
def readMembers : Nat → List Char → Option (List (List Char × Json) × List Char)
  | 0, _ => none
  | n + 1, cs =>
    match skipBlanks cs with
    | '"' :: rest => do
      let (key, rest) ← readQuoted rest
      match skipBlanks rest with
      | ':' :: rest => do
        let (value, rest) ← readValue n rest
        match skipBlanks rest with
        | ',' :: rest => do
          let (members, rest) ← readMembers n rest
          pure ((key, value) :: members, rest)
        | '\x7d' :: rest => pure ([(key, value)], rest)
        | _ => none
      | _ => none
    | _ => none

end

/-- The document that a text holds.  Each step into a value follows a character that was read, and
at most two steps follow each. -/
def read? (text : List Char) : Option Json := do
  let (value, rest) ← readValue (2 * text.length + 1) text
  match skipBlanks rest with
  | [] => some value
  | _ => none

end Json

end Generics
