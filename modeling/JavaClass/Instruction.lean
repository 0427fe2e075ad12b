import JavaClass.Literal
import JavaClass.Opcode

/-!
# Instructions

An instruction in its general form: a local variable access carries its slot,
a constant load carries its literal, and a branch carries the label of its
target. Labels and line numbers stand among the instructions at the place that
they mark, and turn into no bytecode.

## Implementation notes

The type of labels is a parameter. Bytecode uses offsets, events use tokens and
method bodies use labels of their own, and `map` goes from one to the other.
An instruction with an operation code of its own is not required to have one
that fits its operands; the assembler decides what it accepts.
-/

namespace JavaClass

/-- An instruction whose targets are of type `target`. -/
inductive Instruction (target : Type) where
  /-- An instruction without operands. -/
  | simple (opcode : Opcode)
  /-- A number to push, or the element type of an array to create. -/
  | int (opcode : Opcode) (operand : Int32)
  /-- A load from or a store to a local variable, or a return to the address in one. -/
  | localVar (opcode : Opcode) (slot : UInt16)
  /-- An increment of a local variable. -/
  | increment (slot : UInt16) (delta : Int16)
  | field (opcode : Opcode) (owner name descriptor : String)
  | method (opcode : Opcode) (owner name descriptor : String) (isInterface : Bool)
  | invokeDynamic (name descriptor : String) (bootstrap : MethodHandle) (arguments : List Literal)
  /-- An operation on a class or an array type. -/
  | type (opcode : Opcode) (name : String)
  | load (literal : Literal)
  | jump (opcode : Opcode) (destination : target)
  /-- A jump to the target at the position of the key. -/
  | lookupSwitch (otherwise : target) (keys : List Int32) (targets : List target)
  /-- A jump to the target for the key, the first target being for `low`. -/
  | tableSwitch (low high : Int32) (otherwise : target) (targets : List target)
  | multiNewArray (descriptor : String) (dimensions : UInt8)
  /-- The place of a label. -/
  | label (placed : target)
  /-- The source line of the instructions from a label on. -/
  | line (number : UInt16) (start : target)
  deriving DecidableEq, Repr

namespace Instruction

variable {α β : Type}

/-- The operation code, if the instruction turns into bytecode. -/
def opcode? : Instruction α → Option Opcode
  | simple opcode => some opcode
  | int opcode _ => some opcode
  | localVar opcode _ => some opcode
  | increment _ _ => some .iinc
  | field opcode _ _ _ => some opcode
  | method opcode _ _ _ _ => some opcode
  | invokeDynamic _ _ _ _ => some .invokeDynamic
  | type opcode _ => some opcode
  | load literal => some (if literal.isWide then .ldcLong else .ldc)
  | jump opcode _ => some opcode
  | lookupSwitch _ _ _ => some .lookupSwitch
  | tableSwitch _ _ _ _ => some .tableSwitch
  | multiNewArray _ _ => some .multiNewArray
  | label _ => none
  | line _ _ => none

/-- Whether the instruction only marks a place. -/
def isPseudo (instruction : Instruction α) : Bool :=
  instruction.opcode?.isNone

/-- The targets that an instruction mentions, a label mentioning itself. -/
def targets : Instruction α → List α
  | jump _ target => [target]
  | lookupSwitch otherwise _ targets => otherwise :: targets
  | tableSwitch _ _ otherwise targets => otherwise :: targets
  | label target => [target]
  | line _ target => [target]
  | _ => []

/-- Exchanges the targets. -/
def map (f : α → β) : Instruction α → Instruction β
  | simple opcode => simple opcode
  | int opcode operand => int opcode operand
  | localVar opcode slot => localVar opcode slot
  | increment slot delta => increment slot delta
  | field opcode owner name descriptor => field opcode owner name descriptor
  | method opcode owner name descriptor isInterface =>
      method opcode owner name descriptor isInterface
  | invokeDynamic name descriptor bootstrap arguments =>
      invokeDynamic name descriptor bootstrap arguments
  | type opcode name => type opcode name
  | load literal => load literal
  | jump opcode target => jump opcode (f target)
  | lookupSwitch otherwise keys targets => lookupSwitch (f otherwise) keys (targets.map f)
  | tableSwitch low high otherwise targets => tableSwitch low high (f otherwise) (targets.map f)
  | multiNewArray descriptor dimensions => multiNewArray descriptor dimensions
  | label target => label (f target)
  | line number target => line number (f target)

theorem targets_map (f : α → β) (instruction : Instruction α) :
    (instruction.map f).targets = instruction.targets.map f := by
  cases instruction <;> rfl

theorem opcode?_map (f : α → β) (instruction : Instruction α) :
    (instruction.map f).opcode? = instruction.opcode? := by
  cases instruction <;> rfl

theorem map_map {γ : Type} (f : α → β) (g : β → γ) (instruction : Instruction α) :
    (instruction.map f).map g = instruction.map (g ∘ f) := by
  cases instruction <;> simp [map]

end Instruction

/-- An entry of an exception table: exceptions of a class, or all of them, that arise from `start`
up to but not including `stop` are handled at `handler`. -/
structure TryBlock (target : Type) where
  start : target
  stop : target
  handler : target
  exception : Option String
  deriving DecidableEq, Repr

namespace TryBlock

variable {α β : Type}

def targets (block : TryBlock α) : List α :=
  [block.start, block.stop, block.handler]

/-- Exchanges the targets. -/
def map (f : α → β) (block : TryBlock α) : TryBlock β :=
  ⟨f block.start, f block.stop, f block.handler, block.exception⟩

end TryBlock

end JavaClass
