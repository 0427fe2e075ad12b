import JavaClass.Constant.Table
import JavaClass.Instruction

/-!
# Decoding bytecode

Reads the instructions of a code array. Every spelling of an instruction gives
the same general form: short forms and the `wide` modifier name the slot that
they access, and both widths of a constant load name the constant.

## Implementation notes

Targets are offsets from the start of the code. A target may lie right behind
the last instruction. Operands are read from the file, so they may lie behind
the code array; the instruction then runs past the end of the code, which is
found when the array is used up. The constants of loads and call sites are
looked up later, since a file with a bad one is still read up to that place.
-/

namespace JavaClass.Bytecode

/-- A code array within a file. -/
structure Window where
  bytes : Bytes
  constants : ConstantTable
  start : Nat
  length : Nat

/-- An instruction as it was read. -/
inductive Decoded where
  | complete (instruction : Instruction Nat)
  /-- A load of the constant at a slot. -/
  | load (slot : UInt16)
  | call (site : ConstantTable.CallSite)
  deriving DecidableEq, Repr

/-- The targets that an instruction mentions. -/
def Decoded.targets : Decoded → List Nat
  | complete instruction => instruction.targets
  | load _ => []
  | call _ => []

namespace Window

/-- Refuses an offset that is neither in the code nor right behind it. -/
def offset (window : Window) (n : Int) : Except Error Nat :=
  if 0 ≤ n ∧ n ≤ window.length then .ok n.toNat else malformed (.offsetOutOfRange n)

/-- The target of a branch at an offset. -/
def target (window : Window) (pc : Nat) (relative : Int) : Except Error Nat :=
  window.offset (pc + relative)

/-- Reads a branch offset of four bytes. -/
def wideTarget (window : Window) (pc index : Nat) : Except Error Nat := do
  window.target pc (← window.bytes.i32 index).toInt

/-- The bytes between the code of a switch and its operands, which are aligned to four bytes. -/
def padding (pc : Nat) : Nat := 3 - pc % 4

def complete (instruction : Instruction Nat) (operands : Nat) :
    Except Error (Decoded × Nat) :=
  .ok (.complete instruction, operands)

/-- Reads the operands of a switch by its bounds. -/
def tableSwitch (window : Window) (pc : Nat) : Except Error (Decoded × Nat) := do
  let index := window.start + pc + 1 + padding pc
  let otherwise ← window.wideTarget pc index
  let low ← window.bytes.i32 (index + 4)
  let high ← window.bytes.i32 (index + 8)
  if high < low then malformed (.switchBounds low high)
  else
    let count := (high.toInt - low.toInt + 1).toNat
    let targets ← readEach (window.wideTarget pc) 4 (index + 12) count
    complete (.tableSwitch low high otherwise targets) (padding pc + 12 + 4 * count)

/-- Reads a key of a switch and its target. -/
def switchPair (window : Window) (pc index : Nat) : Except Error (Int32 × Nat) := do
  let key ← window.bytes.i32 index
  let target ← window.wideTarget pc (index + 4)
  return (key, target)

/-- Reads the operands of a switch by pairs. -/
def lookupSwitch (window : Window) (pc : Nat) : Except Error (Decoded × Nat) := do
  let index := window.start + pc + 1 + padding pc
  let otherwise ← window.wideTarget pc index
  let count ← window.bytes.i32 (index + 4)
  if count < 0 then malformed .negativePairCount
  else
    let count := count.toInt.toNat
    let pairs ← readEach (window.switchPair pc) 8 (index + 8) count
    complete (.lookupSwitch otherwise (pairs.map (·.1)) (pairs.map (·.2)))
      (padding pc + 8 + 8 * count)

/-- Reads what the `wide` modifier applies to. -/
def widened (window : Window) (pc : Nat) : Except Error (Decoded × Nat) := do
  let index := window.start + pc
  let modified : Opcode := ⟨← window.bytes.u8 (index + 1)⟩
  let slot ← window.bytes.u16 (index + 2)
  match modified.shape with
  | .increment => complete (.increment slot (← window.bytes.i16 (index + 4))) 5
  | .localVar => complete (.localVar modified slot) 3
  | _ => malformed (.notWidenable modified)

/-- Reads the operands of this shape behind an operation code, and gives their number of bytes. -/
def operands (window : Window) (pc : Nat) (opcode : Opcode) (shape : Opcode.Shape) :
    Except Error (Decoded × Nat) := do
  let bytes := window.bytes
  let constants := window.constants
  let index := window.start + pc
  match shape with
  | .bare => complete (.simple opcode) 0
  | .pushByte => complete (.int opcode (← bytes.i8 (index + 1)).toInt32) 1
  | .pushShort => complete (.int opcode (← bytes.i16 (index + 1)).toInt32) 2
  | .constant => return (.load (← bytes.u8 (index + 1)).toUInt16, 1)
  | .wideConstant => return (.load (← bytes.u16 (index + 1)), 2)
  | .localVar => complete (.localVar opcode (← bytes.u8 (index + 1)).toUInt16) 1
  | .shortLoad => complete (.localVar opcode.ofShortLoad.1 opcode.ofShortLoad.2) 0
  | .shortStore => complete (.localVar opcode.ofShortStore.1 opcode.ofShortStore.2) 0
  | .increment =>
      let slot ← bytes.u8 (index + 1)
      let delta ← bytes.i8 (index + 2)
      complete (.increment slot.toUInt16 delta.toInt16) 2
  | .jump =>
      let relative ← bytes.i16 (index + 1)
      complete (.jump opcode (← window.target pc relative.toInt)) 2
  | .wideJump => complete (.jump opcode (← window.wideTarget pc (index + 1))) 4
  | .tableSwitch => window.tableSwitch pc
  | .lookupSwitch => window.lookupSwitch pc
  | .field =>
      let member ← constants.member (← bytes.u16 (index + 1))
      complete (.field opcode member.owner member.name member.descriptor) 2
  | .method =>
      let member ← constants.member (← bytes.u16 (index + 1))
      complete (.method opcode member.owner member.name member.descriptor member.isInterface)
        (if opcode = .invokeInterface then 4 else 2)
  | .callSite => return (.call (← constants.callSite (← bytes.u16 (index + 1))), 4)
  | .type => complete (.type opcode (← constants.className (← bytes.u16 (index + 1)))) 2
  | .arrayType => complete (.int opcode (Int32.ofNat (← bytes.u8 (index + 1)).toNat)) 1
  | .widened => window.widened pc
  | .multiArray =>
      let name ← constants.className (← bytes.u16 (index + 1))
      complete (.multiNewArray name (← bytes.u8 (index + 3))) 3
  | .undefined => malformed (.undefinedOpcode opcode pc)

/-- Reads the instruction at an offset, and the number of bytes behind its code. -/
def decode (window : Window) (pc : Nat) : Except Error (Decoded × Nat) := do
  let opcode : Opcode := ⟨← window.bytes.u8 (window.start + pc)⟩
  window.operands pc opcode opcode.shape

/-- Reads the instructions from an offset on, after those in `done`, the last one first. -/
def decodeFrom (window : Window) (pc : Nat) (done : List (Nat × Decoded)) :
    Except Error (List (Nat × Decoded)) :=
  if pc < window.length then
    match window.decode pc with
    | .error error => .error error
    | .ok (decoded, operands) =>
        window.decodeFrom (pc + 1 + operands) ((pc, decoded) :: done)
  else if pc = window.length then .ok done.reverse
  else malformed .codeOverrun
termination_by window.length - pc

/-- Reads all instructions, with their offsets. -/
def decodeAll (window : Window) : Except Error (List (Nat × Decoded)) :=
  window.decodeFrom 0 []

end Window

end JavaClass.Bytecode
