import Generics.Json.Read
import Generics.Options

/-!
# Options as JSON text

Options are written as an object with three members.  When they are read, a member that is missing
has its default, other members are skipped, and a member must not be repeated.  An array of the
values in order of their members' names will do as well, and a policy may also be the only key of an
object.
-/

namespace Generics

/-- The name of a policy in JSON text. -/
def Ambiguity.name : Ambiguity → String
  | reject => "reject"
  | firstMatch => "firstMatch"

/-- The policy with the given name. -/
def Ambiguity.ofName? (name : List Char) : Option Ambiguity :=
  if name = Ambiguity.reject.name.toList then some .reject
  else if name = Ambiguity.firstMatch.name.toList then some .firstMatch
  else none

namespace Json

/-- The policy that a document denotes. -/
def toAmbiguity? : Json → Option Ambiguity
  | string raw | object [(raw, null)] => (decode raw).bind Ambiguity.ofName?
  | _ => none

/-- The number that decimal digits denote. -/
def ofDigits (digits : List Char) : Nat :=
  digits.foldl (fun n c => 10 * n + (c.toNat - 48)) 0

/-- The number of 32 bits that a document denotes: digits only, whatever their value. -/
def toWord? : Json → Option UInt32
  | number text =>
    if text.all Char.isDigit ∧ ofDigits text < UInt32.size then some (.ofNat (ofDigits text))
    else none
  | _ => none

end Json

namespace Options

/-- The fields of options that were found so far. -/
structure Fields where
  ambiguity : Option Ambiguity := none
  maxDepth : Option UInt32 := none
  maxIterations : Option UInt32 := none

namespace Fields

/-- The options with these fields and defaults for the others. -/
def toOptions (f : Fields) : Options where
  ambiguity := f.ambiguity.getD .reject
  limits :=
    { maxDepth := f.maxDepth.getD Limits.unification.maxDepth
      maxIterations := f.maxIterations.getD Limits.unification.maxIterations }

/-- Add a member of an object, unless its field is there already. -/
def addMember (f : Fields) (key : List Char) (value : Json) : Option Fields := do
  let key ← Json.decode key
  if key = "ambiguity".toList then
    if f.ambiguity.isSome then none
    else
      let policy ← value.toAmbiguity?
      pure { f with ambiguity := some policy }
  else if key = "maxDepth".toList then
    if f.maxDepth.isSome then none
    else
      let n ← value.toWord?
      pure { f with maxDepth := some n }
  else if key = "maxIterations".toList then
    if f.maxIterations.isSome then none
    else
      let n ← value.toWord?
      pure { f with maxIterations := some n }
  else pure f

/-- The fields at the first positions of an array. -/
def ofItems? : List Json → Option Fields
  | [] => some {}
  | [a] => do
    let a ← a.toAmbiguity?
    pure { ambiguity := some a }
  | [a, d] => do
    let a ← a.toAmbiguity?
    let d ← d.toWord?
    pure { ambiguity := some a, maxDepth := some d }
  | [a, d, i] => do
    let a ← a.toAmbiguity?
    let d ← d.toWord?
    let i ← i.toWord?
    pure { ambiguity := some a, maxDepth := some d, maxIterations := some i }
  | _ => none

end Fields

/-- The options that a document denotes. -/
def ofJson? : Json → Option Options
  | .object members =>
    (members.foldlM (fun (f : Fields) (key, value) => f.addMember key value) {}).map Fields.toOptions
  | .array items => (Fields.ofItems? items).map Fields.toOptions
  | _ => none

/-- The options that a text denotes. -/
def parse? (text : String) : Option Options := (Json.read? text.toList).bind ofJson?

/-- The document of some options. -/
def toJson (o : Options) : Json :=
  .object
    [("ambiguity".toList, .string o.ambiguity.name.toList),
      ("maxDepth".toList, .number (toString o.limits.maxDepth.toNat).toList),
      ("maxIterations".toList, .number (toString o.limits.maxIterations.toNat).toList)]

/-- The text of some options. -/
def render (o : Options) : String := String.ofList o.toJson.render

end Options

end Generics
