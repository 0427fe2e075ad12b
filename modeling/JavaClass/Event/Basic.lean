import JavaClass.AccessFlags
import JavaClass.Error
import JavaClass.Instruction

/-!
# Events of a class

The contents of a class as a flat sequence of events: a header, at most one
source file, each field followed by its end, each method followed by its code
and its end, and the end of the class. The code of a method is its instructions
with the labels and lines among them, then its exception table, then the sizes
of its operand stack and of its local variables.

## Implementation notes

Labels are tokens that mean something within one method. A token may be
mentioned before the event that places it. A sequence of events need not follow
the order above; whoever receives it decides what to accept.
-/

namespace JavaClass

/-- A step in telling the contents of a class. -/
inductive Event where
  | header (version : Version) (flags : ClassFlags) (name : String) (super : Option String)
      (interfaces : List String)
  | source (file : String)
  | field (flags : FieldFlags) (name descriptor : String) (value : Option Literal)
  | fieldEnd
  | method (flags : MethodFlags) (name descriptor : String) (exceptions : List String)
  | instruction (instruction : Instruction LabelToken)
  | tryBlock (block : TryBlock LabelToken)
  | maxs (stack locals : UInt16)
  | methodEnd
  | classEnd
  deriving DecidableEq, Repr

namespace Event

/-- Whether the event tells a part of the code of a method. -/
def isCode : Event → Bool
  | instruction _ => true
  | tryBlock _ => true
  | maxs _ _ => true
  | _ => false

/-- The labels that an event mentions. -/
def targets : Event → List LabelToken
  | instruction i => i.targets
  | tryBlock block => block.targets
  | _ => []

/-- Exchanges the tokens. -/
def mapTokens (f : LabelToken → LabelToken) : Event → Event
  | instruction i => instruction (i.map f)
  | tryBlock block => tryBlock (block.map f)
  | other => other

end Event

end JavaClass
