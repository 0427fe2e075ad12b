import JavaClass.Proofs.Bytecode.Decoded

/-!
# Formats of instructions

The bytes at an offset of the code say how many bytes the instruction there
takes and where it branches to. For most instructions the operation code alone
settles how many; for a switch it is also the offset, which decides on the
padding, and the numbers behind it, and for `wide` the code that it modifies.

## Implementation notes

The formats are those of class files and do not refer to how code is decoded.
That decoding keeps to them is proved, so an instruction that was decoded ends
where the next one starts.
-/

namespace JavaClass

open Bytecode

namespace Opcode

/-- The sizes of instructions: how many operation codes in a row, from 0 on, have which one. Codes
that settle no size count as 0. -/
def sizeRuns : List (Nat × Nat) :=
  [(16, 1), (1, 2), (1, 3), (1, 2), (2, 3), (5, 2), (28, 1), (5, 2), (73, 1), (1, 3), (20, 1),
   (16, 3), (1, 2), (2, 0), (6, 1), (7, 3), (2, 5), (1, 3), (1, 2), (1, 3), (2, 1), (2, 3), (2, 1),
   (1, 0), (1, 4), (2, 3), (2, 5)]

/-- The bytes of an instruction with this code, or 0 if the code does not settle them. -/
def fixedSize (opcode : Opcode) : Nat :=
  (sizeRuns.flatMap fun (count, size) => List.replicate count size).getD opcode.byte.toNat 0

/-- The code of a branch with an offset of two bytes. -/
def IsShortJump (opcode : Opcode) : Prop :=
  153 ≤ opcode.byte ∧ opcode.byte ≤ 168 ∨ opcode.byte = 198 ∨ opcode.byte = 199

/-- The code of a branch with an offset of four bytes. -/
def IsLongJump (opcode : Opcode) : Prop :=
  opcode.byte = 200 ∨ opcode.byte = 201

/-- The code of an instruction that accesses one local variable. -/
def IsAccess (opcode : Opcode) : Prop :=
  21 ≤ opcode.byte ∧ opcode.byte ≤ 25 ∨ 54 ≤ opcode.byte ∧ opcode.byte ≤ 58 ∨ opcode.byte = 169

theorem fixedSize_eq : ∀ opcode : Opcode, opcode.fixedSize = match opcode.shape with
    | .bare | .shortLoad | .shortStore => 1
    | .pushByte | .constant | .localVar | .arrayType => 2
    | .pushShort | .wideConstant | .increment | .jump | .field | .type => 3
    | .method => if opcode = .invokeInterface then 5 else 3
    | .multiArray => 4
    | .wideJump | .callSite => 5
    | .tableSwitch | .lookupSwitch | .widened | .undefined => 0 :=
  forall_of_bytes (by decide +kernel)

theorem shape_eq_jump_iff : ∀ opcode : Opcode, opcode.shape = .jump ↔ opcode.IsShortJump :=
  forall_of_bytes (by unfold IsShortJump; decide +kernel)

theorem shape_eq_wideJump_iff : ∀ opcode : Opcode, opcode.shape = .wideJump ↔ opcode.IsLongJump :=
  forall_of_bytes (by unfold IsLongJump; decide +kernel)

theorem shape_eq_localVar_iff : ∀ opcode : Opcode, opcode.shape = .localVar ↔ opcode.IsAccess :=
  forall_of_bytes (by unfold IsAccess; decide +kernel)

theorem shape_eq_tableSwitch_iff :
    ∀ opcode : Opcode, opcode.shape = .tableSwitch ↔ opcode.byte = 170 :=
  forall_of_bytes (by decide +kernel)

theorem shape_eq_lookupSwitch_iff :
    ∀ opcode : Opcode, opcode.shape = .lookupSwitch ↔ opcode.byte = 171 :=
  forall_of_bytes (by decide +kernel)

theorem shape_eq_widened_iff : ∀ opcode : Opcode, opcode.shape = .widened ↔ opcode.byte = 196 :=
  forall_of_bytes (by decide +kernel)

theorem shape_eq_increment_iff :
    ∀ opcode : Opcode, opcode.shape = .increment ↔ opcode.byte = 132 :=
  forall_of_bytes (by decide +kernel)

end Opcode

namespace Bytecode.Window

variable {window : Window} {pc : Nat} {decoded : Decoded} {n : Nat}

/-- A branch offset of four bytes stands at an index of the code and leads to an offset. -/
def BranchesTo (window : Window) (pc index : Nat) (target : Int) : Prop :=
  ∃ relative, window.bytes.i32 (window.start + index) = .ok relative ∧
    target = pc + relative.toInt

/-- The instruction at an offset takes this many bytes and branches to these offsets, which need
not lie in the code. -/
inductive Format (window : Window) (pc : Nat) : (size : Nat) → (branches : List Int) → Prop
  | fixed {byte : UInt8} (opcode : window.bytes.u8 (window.start + pc) = .ok byte)
      (settled : 0 < Opcode.fixedSize ⟨byte⟩)
      (plain : ¬Opcode.IsShortJump ⟨byte⟩ ∧ ¬Opcode.IsLongJump ⟨byte⟩) :
      Format window pc (Opcode.fixedSize ⟨byte⟩) []
  | shortJump {byte : UInt8} {relative : Int16}
      (opcode : window.bytes.u8 (window.start + pc) = .ok byte) (jump : Opcode.IsShortJump ⟨byte⟩)
      (operand : window.bytes.i16 (window.start + pc + 1) = .ok relative) :
      Format window pc 3 [pc + relative.toInt]
  | longJump {byte : UInt8} {target : Int}
      (opcode : window.bytes.u8 (window.start + pc) = .ok byte) (jump : Opcode.IsLongJump ⟨byte⟩)
      (operand : window.BranchesTo pc (pc + 1) target) : Format window pc 5 [target]
  | tableSwitch {index : Nat} {low high : Int32} {otherwise : Int} {targets : List Int}
      (opcode : window.bytes.u8 (window.start + pc) = .ok 170)
      (aligned : 4 ∣ index ∧ pc < index ∧ index ≤ pc + 4)
      (default : window.BranchesTo pc index otherwise)
      (first : window.bytes.i32 (window.start + index + 4) = .ok low)
      (last : window.bytes.i32 (window.start + index + 8) = .ok high)
      (bounds : low.toInt ≤ high.toInt)
      (count : (targets.length : Int) = high.toInt - low.toInt + 1)
      (operands : ∀ {k : Nat} {target : Int}, targets[k]? = some target →
        window.BranchesTo pc (index + 12 + 4 * k) target) :
      Format window pc (index - pc + 12 + 4 * targets.length) (otherwise :: targets)
  | lookupSwitch {index : Nat} {count : Int32} {otherwise : Int} {targets : List Int}
      (opcode : window.bytes.u8 (window.start + pc) = .ok 171)
      (aligned : 4 ∣ index ∧ pc < index ∧ index ≤ pc + 4)
      (default : window.BranchesTo pc index otherwise)
      (counted : window.bytes.i32 (window.start + index + 4) = .ok count)
      (count_eq : (targets.length : Int) = count.toInt)
      (operands : ∀ {k : Nat} {target : Int}, targets[k]? = some target →
        window.BranchesTo pc (index + 8 + 8 * k + 4) target) :
      Format window pc (index - pc + 8 + 8 * targets.length) (otherwise :: targets)
  | widenedAccess {modified : UInt8} (opcode : window.bytes.u8 (window.start + pc) = .ok 196)
      (operand : window.bytes.u8 (window.start + pc + 1) = .ok modified)
      (access : Opcode.IsAccess ⟨modified⟩) : Format window pc 4 []
  | widenedIncrement (opcode : window.bytes.u8 (window.start + pc) = .ok 196)
      (operand : window.bytes.u8 (window.start + pc + 1) = .ok 132) : Format window pc 6 []

theorem eq_of_offset {offset : Int} {target : Nat} (h : window.offset offset = .ok target) :
    (target : Int) = offset := by
  unfold Window.offset at h
  split at h
  · rename_i inside
    rw [← Except.ok.inj h, Int.toNat_of_nonneg inside.1]
  · cases h

theorem branchesTo_of_wideTarget {index target : Nat}
    (h : window.wideTarget pc (window.start + index) = .ok target) :
    window.BranchesTo pc index target := by
  obtain ⟨relative, hrelative, h⟩ := exceptBind_eq_ok_iff.mp h
  exact ⟨relative, hrelative, eq_of_offset h⟩

theorem aligned_padding (pc : Nat) :
    4 ∣ pc + 1 + padding pc ∧ pc < pc + 1 + padding pc ∧ pc + 1 + padding pc ≤ pc + 4 := by
  unfold padding
  omega

/-- The index of the operands of a switch, counted from the start of the code. -/
theorem switch_index (window : Window) (pc : Nat) :
    window.start + pc + 1 + padding pc = window.start + (pc + 1 + padding pc) := by
  omega

theorem format_of_tableSwitch {low high : Int32} {otherwise : Nat} {targets : List Nat}
    (opcode : window.bytes.u8 (window.start + pc) = .ok 170)
    (default : window.wideTarget pc (window.start + pc + 1 + padding pc) = .ok otherwise)
    (first : window.bytes.i32 (window.start + pc + 1 + padding pc + 4) = .ok low)
    (last : window.bytes.i32 (window.start + pc + 1 + padding pc + 8) = .ok high)
    (bounds : ¬high < low) (count : (high.toInt - low.toInt + 1).toNat = targets.length)
    (branches : readEach (window.wideTarget pc) 4 (window.start + pc + 1 + padding pc + 12)
      targets.length = .ok targets) :
    window.Format pc (1 + (padding pc + 12 + 4 * targets.length))
      ((otherwise :: targets).map Int.ofNat) := by
  rw [Int32.not_lt, Int32.le_iff_toInt_le] at bounds
  rw [switch_index] at default first last branches
  have size_eq : 1 + (padding pc + 12 + 4 * targets.length) =
      pc + 1 + padding pc - pc + 12 + 4 * (targets.map Int.ofNat).length := by
    rw [List.length_map]
    omega
  rw [size_eq]
  apply Format.tableSwitch opcode (aligned_padding pc) (branchesTo_of_wideTarget default) first
    last bounds
  · rw [List.length_map]
    omega
  · intro k target htarget
    rw [List.getElem?_map, Option.map_eq_some_iff] at htarget
    obtain ⟨target, htarget, rfl⟩ := htarget
    have found := getElem?_of_readEach branches htarget
    rw [show window.start + (pc + 1 + padding pc) + 12 + 4 * k =
      window.start + (pc + 1 + padding pc + 12 + 4 * k) by omega] at found
    exact branchesTo_of_wideTarget found

theorem format_of_lookupSwitch {counted : Int32} {otherwise : Nat} {pairs : List (Int32 × Nat)}
    (opcode : window.bytes.u8 (window.start + pc) = .ok 171)
    (default : window.wideTarget pc (window.start + pc + 1 + padding pc) = .ok otherwise)
    (number : window.bytes.i32 (window.start + pc + 1 + padding pc + 4) = .ok counted)
    (bounds : ¬counted < 0) (count : counted.toInt.toNat = pairs.length)
    (branches : readEach (window.switchPair pc) 8 (window.start + pc + 1 + padding pc + 8)
      pairs.length = .ok pairs) :
    window.Format pc (1 + (padding pc + 8 + 8 * pairs.length))
      ((otherwise :: pairs.map (·.2)).map Int.ofNat) := by
  rw [Int32.not_lt, Int32.le_iff_toInt_le] at bounds
  rw [switch_index] at default number branches
  have size_eq : 1 + (padding pc + 8 + 8 * pairs.length) =
      pc + 1 + padding pc - pc + 8 + 8 * ((pairs.map (·.2)).map Int.ofNat).length := by
    rw [List.length_map, List.length_map]
    omega
  rw [size_eq]
  apply Format.lookupSwitch opcode (aligned_padding pc) (branchesTo_of_wideTarget default) number
  · rw [List.length_map, List.length_map, ← count]
    exact Int.toNat_of_nonneg bounds
  · intro k target htarget
    rw [List.map_map, List.getElem?_map, Option.map_eq_some_iff] at htarget
    obtain ⟨pair, hpair, rfl⟩ := htarget
    obtain ⟨key, -, found⟩ := exceptBind_eq_ok_iff.mp (getElem?_of_readEach branches hpair)
    obtain ⟨target, htarget, found⟩ := exceptBind_eq_ok_iff.mp found
    obtain rfl := Except.ok.inj found
    rw [show window.start + (pc + 1 + padding pc) + 8 + 8 * k + 4 =
      window.start + (pc + 1 + padding pc + 8 + 8 * k + 4) by omega] at htarget
    exact branchesTo_of_wideTarget htarget

/-- The code of an instruction that has a settled size and does not branch. -/
theorem format_of_hasCode {opcode : Opcode} {shape : Opcode.Shape} {size : Nat}
    (code : window.HasCode pc opcode shape) (settled : opcode.fixedSize = 1 + size)
    (short : shape ≠ .jump) (long : shape ≠ .wideJump) : window.Format pc (1 + size) [] := by
  have positive : 0 < opcode.fixedSize := by omega
  have plain : ¬opcode.IsShortJump ∧ ¬opcode.IsLongJump := by
    rw [← Opcode.shape_eq_jump_iff, ← Opcode.shape_eq_wideJump_iff, code.shape_eq]
    exact ⟨short, long⟩
  rw [← settled]
  exact .fixed code.byte positive plain

/-- An instruction that is decoded takes the bytes that its format says and branches where its
format says. -/
theorem format_of_decode (h : window.decode pc = .ok (decoded, n)) :
    window.Format pc (1 + n) (decoded.targets.map Int.ofNat) := by
  cases decode_eq_ok_iff.mp h with
  | @jump _ relative target code distance branch =>
      have target_eq : (target : Int) = pc + relative.toInt := eq_of_offset branch
      change window.Format pc 3 [(target : Int)]
      rw [target_eq]
      exact .shortJump code.byte ((Opcode.shape_eq_jump_iff _).mp code.shape_eq) distance
  | wideJump code branch =>
      rw [Nat.add_assoc] at branch
      exact .longJump code.byte ((Opcode.shape_eq_wideJump_iff _).mp code.shape_eq)
        (branchesTo_of_wideTarget branch)
  | tableSwitch code default first last bounds count branches =>
      have byte_eq := (Opcode.shape_eq_tableSwitch_iff _).mp code.shape_eq
      exact format_of_tableSwitch (byte_eq ▸ code.byte) default first last bounds count branches
  | lookupSwitch code default number bounds count branches =>
      have byte_eq := (Opcode.shape_eq_lookupSwitch_iff _).mp code.shape_eq
      exact format_of_lookupSwitch (byte_eq ▸ code.byte) default number bounds count branches
  | widenedAccess code modifies =>
      have byte_eq := (Opcode.shape_eq_widened_iff _).mp code.shape_eq
      exact .widenedAccess (byte_eq ▸ code.byte) modifies.byte
        ((Opcode.shape_eq_localVar_iff _).mp modifies.shape_eq)
  | widenedIncrement code modifies =>
      have byte_eq := (Opcode.shape_eq_widened_iff _).mp code.shape_eq
      have modified_eq := (Opcode.shape_eq_increment_iff _).mp modifies.shape_eq
      exact .widenedIncrement (byte_eq ▸ code.byte) (modified_eq ▸ modifies.byte)
  | method code =>
      refine format_of_hasCode code ?_ nofun nofun
      rw [Opcode.fixedSize_eq, code.shape_eq, apply_ite (1 + ·)]
  | bare code | shortLoad code | shortStore code | pushByte code | pushShort code | arrayType code
  | constant code | wideConstant code | localVar code | increment code | field code | callSite code
  | type code | multiArray code =>
      refine format_of_hasCode code ?_ nofun nofun
      rw [Opcode.fixedSize_eq, code.shape_eq]

end Bytecode.Window

end JavaClass
