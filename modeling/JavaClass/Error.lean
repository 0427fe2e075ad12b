import JavaClass.Body.Handle
import JavaClass.Constant.Describe
import JavaClass.Label
import JavaClass.Opcode
import JavaClass.Version

/-!
# Errors

Every way in which an operation of the library can fail, as a cause, together
with the message of each cause.

## Implementation notes

A malformation is found in the bytes of a class file, in a sequence of events
or in a class that cannot be written. The two nesting causes say in which
method, or in which file of a container, it was found.
-/

namespace JavaClass

/-- What a look-up in the constant pool asks for. -/
inductive ConstantRole where
  | text
  | classRef
  | nameAndType
  | member
  | methodHandle
  | literal
  | callSite
  deriving DecidableEq, Repr

def ConstantRole.name : ConstantRole → String
  | text => "utf8"
  | classRef => "class"
  | nameAndType => "name and type"
  | member => "member reference"
  | methodHandle => "method handle"
  | literal => "loadable constant"
  | callSite => "invoke dynamic"

/-- Why bytes are no class file, or why a class has no bytes. -/
inductive Malformation where
  /-- The file ends before `length` bytes at `index`. -/
  | unexpectedEnd (length index : Nat)
  | badMagic
  | unsupportedVersion (version : Version)
  | invalidText
  | invalidHandleKind (code : UInt8)
  /-- The second slot of the last entry lies outside the pool. -/
  | straddlingConstant
  | noConstant (slot : UInt16)
  | unexpectedConstant (expected : ConstantRole) (slot : UInt16) (found : Constant)
  | invalidCodeLength (length : Nat)
  | codeOverrun
  | offsetOutOfRange (offset : Int)
  /-- Something refers to the middle of an instruction. -/
  | notInstructionStart (offset : Nat)
  | switchBounds (low high : Int32)
  | negativePairCount
  | notWidenable (opcode : Opcode)
  | undefinedOpcode (opcode : Opcode) (offset : Nat)
  | missingBootstrap (index : UInt16)
  | tableTooLong (entries : Nat)
  | textTooLong
  | unplacedLabel (label : Label)
  | unplacedToken (token : LabelToken)
  | tokenPlacedTwice (token : LabelToken)
  | codeOutsideMethod
  | hasOperands (opcode : Opcode)
  | operandOutOfRange (operand : Int32) (opcode : Opcode)
  | notLocalVar (opcode : Opcode)
  | notJump (opcode : Opcode)
  | switchKeys (keys targets : Nat)
  | switchTargets (low high : Int32) (targets : Nat)
  | badDescriptor (descriptor : String)
  | fieldEndWithoutField
  | methodEndWithoutMethod
  | endWithoutHeader
  | unfinishedClass
  | secondHeader
  | beforeHeader
  | incompleteEvents
  | inMethod (name descriptor : String) (cause : Malformation)
  | atLocation (location : String) (cause : Malformation)
  deriving DecidableEq, Repr

/-- Why an operation failed. -/
inductive Error where
  | malformed (cause : Malformation)
  /-- The archive is broken, or one of its members is. -/
  | archive (message : String)
  | notFound (path : String)
  /-- The file system refused. -/
  | io
  | indexOutOfRange (index size : Nat)
  | unlinked (handle : InstructionHandle)
  | classNotFound (name : String)
  | duplicateClass (name : String)
  | classNameMismatch (expected found : String)
  | poolOverflow (constant : Constant) (slot : UInt16)
  | unsupportedConstant (tag : UInt8)
  | codeTooLong (length : Nat)
  | jumpTooFar (opcode : Opcode) (offset : Int)
  deriving DecidableEq, Repr

namespace Malformation

/-- The message of a malformation. -/
def message : Malformation → String
  | unexpectedEnd length index =>
      s!"unexpected end of class file reading {length} bytes at {index}"
  | badMagic => "bad magic number"
  | unsupportedVersion version => "unsupported class file version " ++ version.text
  | invalidText => "invalid modified UTF-8 string"
  | invalidHandleKind code => s!"invalid method handle kind {code}"
  | straddlingConstant => "wide constant straddles the end of the constant pool"
  | noConstant slot => s!"no constant at index {slot}"
  | unexpectedConstant expected slot found =>
      "expected " ++ expected.name ++ s!" at constant index {slot}, found " ++ found.describe
  | invalidCodeLength length => s!"invalid code length {length}"
  | codeOverrun => "last instruction runs past the end of the code"
  | offsetOutOfRange offset => s!"bytecode offset {offset} out of range"
  | notInstructionStart offset => s!"offset {offset} is not the start of an instruction"
  | switchBounds low high =>
      "tableswitch with low " ++ toString low.toInt ++ " above high " ++ toString high.toInt
  | negativePairCount => "lookupswitch with negative pair count"
  | notWidenable opcode => "wide cannot modify " ++ opcode.text
  | undefinedOpcode opcode offset => s!"invalid opcode {opcode.byte} at offset {offset}"
  | missingBootstrap index => s!"missing bootstrap method {index}"
  | tableTooLong entries => s!"cannot encode: table with {entries} entries"
  | textTooLong => "cannot encode: string constant longer than 65535 bytes"
  | unplacedLabel label => "label " ++ label.text ++ " is referenced but never placed"
  | unplacedToken token => "label " ++ token.text ++ " is referenced but never placed"
  | tokenPlacedTwice token => "label " ++ token.text ++ " placed more than once"
  | codeOutsideMethod => "code event outside of a method"
  | hasOperands opcode => opcode.text ++ " is not an instruction without operands"
  | operandOutOfRange operand opcode =>
      "operand " ++ toString operand.toInt ++ " out of range for " ++ opcode.text
  | notLocalVar opcode => opcode.text ++ " is not a local variable instruction"
  | notJump opcode => opcode.text ++ " is not a jump"
  | switchKeys keys targets => s!"lookupswitch with {keys} keys but {targets} targets"
  | switchTargets low high targets =>
      "tableswitch over [" ++ toString low.toInt ++ ", " ++ toString high.toInt ++
        s!"] with {targets} targets"
  | badDescriptor descriptor => "bad method descriptor " ++ Text.quoted descriptor
  | fieldEndWithoutField => "field end without a field"
  | methodEndWithoutMethod => "method end without a method"
  | endWithoutHeader => "class ended without a header"
  | unfinishedClass => "class writer did not receive `visit_end`"
  | secondHeader => "second class header"
  | beforeHeader => "class event before the header"
  | incompleteEvents => "incomplete class events"
  | inMethod name descriptor cause => "in method " ++ name ++ descriptor ++ ": " ++ cause.message
  | atLocation location cause => location ++ ": " ++ cause.message

end Malformation

namespace Error

/-- The message of an error; a refusal of the file system has none. -/
def message? : Error → Option String
  | malformed cause => some cause.message
  | archive message => some message
  | notFound path => some path
  | io => none
  | indexOutOfRange index size => some s!"index {index} size {size}"
  | unlinked handle => some handle.text
  | classNotFound name => some name
  | duplicateClass name => some name
  | classNameMismatch expected found => some ("expected " ++ expected ++ " found " ++ found)
  | poolOverflow constant slot => some (constant.describe ++ s!" at {slot}")
  | unsupportedConstant tag => some (toString tag)
  | codeTooLong length => some (toString length)
  | jumpTooFar opcode offset => some (opcode.text ++ s!" {offset}")

/-- Says in which method a malformation was found; other errors stay as they are. -/
def inMethod (name descriptor : String) : Error → Error
  | malformed cause => malformed (.inMethod name descriptor cause)
  | other => other

/-- Says in which file of a container a malformation was found; other errors stay as they are. -/
def atLocation (location : String) : Error → Error
  | malformed cause => malformed (.atLocation location cause)
  | other => other

end Error

/-- Fails with a malformation. -/
def malformed {α : Type} (cause : Malformation) : Except Error α :=
  .error (.malformed cause)

end JavaClass
