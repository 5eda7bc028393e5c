/-!
# JSON documents

A document keeps its numbers and strings as they are written: whether a number is in range, or
whether a string's escapes denote characters, matters only to who uses them.  Members keep their
order and may repeat a key.
-/

namespace Generics

/-- A JSON document. -/
inductive Json
  | null
  | bool (b : Bool)
  /-- A number, as it is written. -/
  | number (text : List Char)
  /-- A string, as it is written between the quotes. -/
  | string (raw : List Char)
  | array (items : List Json)
  | object (members : List (List Char × Json))

namespace Json

/-- The text of a document without blanks. -/
def render : Json → List Char
  | null => ['n', 'u', 'l', 'l']
  | bool true => ['t', 'r', 'u', 'e']
  | bool false => ['f', 'a', 'l', 's', 'e']
  | number text => text
  | string raw => '"' :: raw ++ ['"']
  | array items => '[' :: renderItems items ++ [']']
  | object members => '\x7b' :: renderMembers members ++ ['\x7d']
where
  renderItems : List Json → List Char
    | [] => []
    | [j] => render j
    | j :: rest => render j ++ ',' :: renderItems rest
  renderMembers : List (List Char × Json) → List Char
    | [] => []
    | [(key, j)] => '"' :: key ++ '"' :: ':' :: render j
    | (key, j) :: rest => '"' :: key ++ '"' :: ':' :: render j ++ ',' :: renderMembers rest

end Json

end Generics
