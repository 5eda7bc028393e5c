import Generics.Definition

/-!
# Events

What a store and the walks over it report while they run.  An event has a level, a message and
named fields.  Types in the text of an event are written as they read when it happens.
-/

namespace Generics

inductive Level
  | trace
  | debug
  deriving DecidableEq, Repr

/-- The content of a field of an event. -/
inductive FieldValue
  | text (s : String)
  | number (n : Nat)
  | flag (b : Bool)
  deriving DecidableEq, Repr

/-- Something worth reporting. -/
inductive Event
  /-- A definition got its handle. -/
  | allocated (d : DefId)
  /-- A definition was stored. -/
  | registered (d : DefId) (kind : Kind) (arity : Nat)
  /-- The supertypes of a type were cut off at a limit. -/
  | truncated (t : TypeId) (collected : Nat)
  /-- The supertypes of an implementation were searched for the abstraction. -/
  | enumerated (implementation abstraction : TypeId) (supertypes candidates : Nat)
  /-- Arguments were unified. -/
  | unified (bound free : Nat)
  /-- Arguments met the constraints of a definition. -/
  | constructed (d : DefId) (t : TypeId)
  /-- An implementation without parameters was compared with the abstraction. -/
  | compared (abstraction implementation : String) (valid : Bool)
  /-- No supertype is an instance of the abstraction's definition. -/
  | unrelated (abstraction implementation : String)
  /-- A candidate led to a closed type. -/
  | accepted (candidate closed : String)
  /-- A candidate led to none. -/
  | rejected (candidate reason : String)
  /-- Candidates led to different closed types. -/
  | ambiguous (abstraction implementation : String) (closings : Nat)
  /-- An implementation was tried on the open abstraction. -/
  | probed (abstraction implementation : TypeId) (applicable : Bool)
  /-- A request was answered from memory. -/
  | recalled (abstraction implementation : TypeId)
  deriving DecidableEq, Repr

def Kind.label : Kind → String
  | .classType => "Class"
  | .interfaceType => "Interface"
  | .structType => "Struct"

namespace Event

def level : Event → Level
  | truncated .. | compared .. | unrelated .. | rejected .. | ambiguous .. => .debug
  | _ => .trace

def message : Event → String
  | allocated .. => "DefinitionStore::allocate"
  | registered .. => "DefinitionStore::register"
  | truncated .. => "base type enumeration truncated at recursion limit"
  | enumerated .. => "BaseTypeEnumerator::candidates"
  | unified .. => "unify_arguments"
  | constructed .. => "construct: constraints satisfied"
  | compared .. => "closed implementation, skipping unification"
  | unrelated .. => "no supertype instantiates the abstraction"
  | accepted .. => "candidate accepted"
  | rejected .. => "candidate rejected"
  | ambiguous .. => "implementation closes to several types, rejecting"
  | probed .. => "applicability probe"
  | recalled .. => "ClosureCache hit"

def fields : Event → List (String × FieldValue)
  | allocated d => [("allocated_def_id", .text (toString d.val))]
  | registered d kind arity =>
    [("def_id", .text (toString d.val)), ("kind", .text kind.label), ("arity", .number arity)]
  | truncated t collected => [("ty", .number t.val), ("collected", .number collected)]
  | enumerated implementation abstraction supertypes candidates =>
    [("implementation", .number implementation.val), ("abstraction", .number abstraction.val),
      ("supertypes", .number supertypes), ("candidates", .number candidates)]
  | unified bound free => [("bound", .number bound), ("free", .number free)]
  | constructed d t => [("def", .number d.val), ("ty", .number t.val)]
  | compared abstraction implementation valid =>
    [("abstraction", .text abstraction), ("implementation", .text implementation),
      ("valid", .flag valid)]
  | unrelated abstraction implementation =>
    [("abstraction", .text abstraction), ("implementation", .text implementation)]
  | accepted candidate closed => [("candidate", .text candidate), ("closed", .text closed)]
  | rejected candidate reason => [("candidate", .text candidate), ("reason", .text reason)]
  | ambiguous abstraction implementation closings =>
    [("abstraction", .text abstraction), ("implementation", .text implementation),
      ("closings", .number closings)]
  | probed abstraction implementation applicable =>
    [("abstraction", .number abstraction.val), ("implementation", .number implementation.val),
      ("applicable", .flag applicable)]
  | recalled abstraction implementation =>
    [("abstraction", .number abstraction.val), ("implementation", .number implementation.val)]

end Event

end Generics
