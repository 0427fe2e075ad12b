import JavaClass.Proofs.Bytecode.Decoded
import JavaClass.Proofs.Bytecode.Decoding

/-!
# How many bytes instructions take

How many bytes an instruction of general form takes depends on where it stands
only if it is a switch. No spelling of an instruction is shorter, except that a
load of one of the first constants may take a byte less. Instructions that need
a constant refer to it by a slot behind their operation code.

## Implementation notes

Where a switch ends depends on its offset only through the next multiple of
four, so a switch that stands no later ends no later.
-/

namespace JavaClass

open BigEndian Bytecode

/-- The bytes that an instruction takes at an offset, or at most takes if it is a load. -/
def Instruction.room {α : Type} (origin : Nat) : Instruction α → Nat
  | simple _ => 1
  | int opcode _ => if opcode = .sipush then 3 else 2
  | localVar opcode slot =>
      if slot < 4 ∧ opcode.shortForm?.isSome then 1 else if slot < 256 then 2 else 4
  | increment slot delta => if slot < 256 ∧ -128 ≤ delta ∧ delta ≤ 127 then 3 else 6
  | field _ _ _ _ => 3
  | method opcode _ _ _ _ => if opcode = .invokeInterface then 5 else 3
  | invokeDynamic _ _ _ _ => 5
  | type _ _ => 3
  | load _ => 3
  | jump opcode _ => if opcode.isWideJump then 5 else 3
  | lookupSwitch _ keys _ => 1 + (Window.padding origin + 8 + 8 * keys.length)
  | tableSwitch _ _ _ targets => 1 + (Window.padding origin + 12 + 4 * targets.length)
  | multiNewArray _ _ => 4
  | label _ => 0
  | line _ _ => 0

namespace Instruction

variable {α β : Type} {first second : Nat}

@[simp] theorem room_map (f : α → β) (origin : Nat) (i : Instruction α) :
    (i.map f).room origin = i.room origin := by
  cases i with
  | tableSwitch low high otherwise targets => simp only [map, room, List.length_map]
  | _ => rfl

/-- What starts no later ends no later. -/
theorem room_mono (i : Instruction α) (le : first ≤ second) :
    first + i.room first ≤ second + i.room second := by
  cases i with
  | lookupSwitch otherwise keys targets =>
      simp only [room, Window.padding]
      omega
  | tableSwitch low high otherwise targets =>
      simp only [room, Window.padding]
      omega
  | _ => exact Nat.add_le_add_right le _

end Instruction

namespace Bytecode

/-- The bytes that what was decoded takes at an offset, or at most takes if it is a load. -/
def Decoded.room (origin : Nat) : Decoded → Nat
  | complete i => i.room origin
  | load _ => 3
  | call _ => 5

/-- Short forms are for the first slots of accesses that have them. -/
theorem shortForm_of_short : ∀ opcode : Opcode,
    (opcode.shape = .shortLoad →
      opcode.ofShortLoad.2 < 4 ∧ opcode.ofShortLoad.1.shortForm?.isSome) ∧
    (opcode.shape = .shortStore →
      opcode.ofShortStore.2 < 4 ∧ opcode.ofShortStore.1.shortForm?.isSome) :=
  Opcode.forall_of_bytes (by decide +kernel)

theorem shape_eq_constant_iff :
    ∀ opcode : Opcode, opcode.shape = .constant ↔ opcode.byte = 18 :=
  Opcode.forall_of_bytes (by decide +kernel)

namespace Window

variable {window : Window} {pc n : Nat} {decoded : Decoded}

theorem toUInt16_lt (slot : UInt8) : slot.toUInt16 < 256 := by
  rw [UInt16.lt_iff_toNat_lt, UInt8.toNat_toUInt16]
  exact slot.toNat_lt

theorem toInt16_bounds (delta : Int8) : -128 ≤ delta.toInt16 ∧ delta.toInt16 ≤ 127 := by
  rw [Int16.le_iff_toInt_le, Int16.le_iff_toInt_le, Int8.toInt_toInt16]
  exact ⟨delta.le_toInt, Int.le_of_lt_add_one delta.toInt_lt⟩

/-- Nothing is decoded from fewer bytes than its general form takes, except loads. -/
theorem room_decode_le (h : window.decode pc = .ok (decoded, n)) :
    decoded.room pc ≤ 1 + n ∨
      window.bytes.u8 (window.start + pc) = .ok 18 ∧ n = 1 ∧ ∃ slot, decoded = .load slot := by
  have other {opcode : Opcode} {shape : Opcode.Shape} (code : window.HasCode pc opcode shape)
      (differs : Opcode.sipush.shape ≠ shape) : opcode ≠ .sipush := by
    rintro rfl
    exact differs code.shape_eq
  cases decode_eq_ok_iff.mp h with
  | @constant opcode slot code =>
      have byte_eq : opcode.byte = 18 := (shape_eq_constant_iff _).mp code.shape_eq
      exact .inr ⟨byte_eq ▸ code.byte, rfl, slot.toUInt16, rfl⟩
  | shortLoad code =>
      have short := (shortForm_of_short _).1 code.shape_eq
      exact .inl (by simp only [Decoded.room, Instruction.room, if_pos short]; omega)
  | shortStore code =>
      have short := (shortForm_of_short _).2 code.shape_eq
      exact .inl (by simp only [Decoded.room, Instruction.room, if_pos short]; omega)
  | pushByte code | arrayType code =>
      have differs := other code nofun
      exact .inl (by simp only [Decoded.room, Instruction.room, if_neg differs]; omega)
  | @localVar _ slot =>
      refine .inl ?_
      simp only [Decoded.room, Instruction.room, if_pos (toUInt16_lt slot)]
      split <;> omega
  | @increment _ slot delta =>
      have small := And.intro (toUInt16_lt slot) (toInt16_bounds delta)
      exact .inl (by simp only [Decoded.room, Instruction.room, if_pos small]; omega)
  | @jump opcode _ _ code =>
      have narrow : opcode.isWideJump = false := by
        rw [Opcode.isWideJump, code.shape_eq]
        rfl
      exact .inl (by simp [Decoded.room, Instruction.room, narrow])
  | pushShort | wideJump | method | widenedIncrement =>
      refine .inl ?_
      simp only [Decoded.room, Instruction.room]
      split <;> omega
  | widenedAccess =>
      refine .inl ?_
      simp only [Decoded.room, Instruction.room]
      split
      · omega
      · split <;> omega
  | lookupSwitch =>
      refine .inl ?_
      simp only [Decoded.room, Instruction.room, List.length_map]
      omega
  | _ => exact .inl (Nat.le_refl _)

/-- The instruction at an offset refers to a slot of the pool. -/
inductive Refers (window : Window) (pc : Nat) : UInt16 → Prop
  | narrow {byte slot : UInt8} (code : window.bytes.u8 (window.start + pc) = .ok byte)
      (shape : Opcode.shape ⟨byte⟩ = .constant)
      (operand : window.bytes.u8 (window.start + pc + 1) = .ok slot) :
      Refers window pc slot.toUInt16
  | wide {byte : UInt8} {slot : UInt16} (code : window.bytes.u8 (window.start + pc) = .ok byte)
      (shape : Opcode.shape ⟨byte⟩ ∈
        [.wideConstant, .field, .method, .callSite, .type, .multiArray])
      (operand : window.bytes.u16 (window.start + pc + 1) = .ok slot) : Refers window pc slot

variable {opcode : Opcode}

theorem refers_narrow {slot : UInt8} (h : window.Shows pc [opcode.byte, slot])
    (shape : opcode.shape = .constant) : window.Refers pc slot.toUInt16 :=
  .narrow h.split.1 shape h.split.2.u8

theorem refers_wide {slot : UInt16} (h : window.Shows pc (opcode.byte :: u16 slot))
    (shape : opcode.shape ∈ [.wideConstant, .field, .method, .callSite, .type, .multiArray]) :
    window.Refers pc slot :=
  .wide h.split.1 shape h.split.2.u16

end Window

end Bytecode

end JavaClass
