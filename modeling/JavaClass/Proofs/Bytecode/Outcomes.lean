import JavaClass.Bytecode.Decode
import JavaClass.Proofs.Bytes.Reading
import JavaClass.Proofs.Constant.Failures

/-!
# Outcomes of decoding

What decoding finds at an offset of the code is a relation between the bytes
there and the instruction, with one case for each shape of operands. Decoding
gives what is so related, and if nothing is, the code is malformed.

## Implementation notes

How decoding goes is followed here only, once from the code to the outcome and
once back. What is said of decoded instructions elsewhere goes by cases on
`ReadsAs`.
-/

namespace JavaClass.Bytecode.Window

/-- An operation code with operands of this shape stands at an offset. -/
structure HasCode (window : Window) (pc : Nat) (opcode : Opcode) (shape : Opcode.Shape) :
    Prop where
  byte : window.bytes.u8 (window.start + pc) = .ok opcode.byte
  shape_eq : opcode.shape = shape

/-- At an offset stands the code of an instruction, and this many bytes of operands behind it. -/
inductive ReadsAs (window : Window) (pc : Nat) : Decoded → Nat → Prop
  | bare {opcode : Opcode} (code : window.HasCode pc opcode .bare) :
      ReadsAs window pc (.complete (.simple opcode)) 0
  | shortLoad {opcode : Opcode} (code : window.HasCode pc opcode .shortLoad) :
      ReadsAs window pc (.complete (.localVar opcode.ofShortLoad.1 opcode.ofShortLoad.2)) 0
  | shortStore {opcode : Opcode} (code : window.HasCode pc opcode .shortStore) :
      ReadsAs window pc (.complete (.localVar opcode.ofShortStore.1 opcode.ofShortStore.2)) 0
  | pushByte {opcode : Opcode} {operand : Int8} (code : window.HasCode pc opcode .pushByte)
      (pushed : window.bytes.i8 (window.start + pc + 1) = .ok operand) :
      ReadsAs window pc (.complete (.int opcode operand.toInt32)) 1
  | pushShort {opcode : Opcode} {operand : Int16} (code : window.HasCode pc opcode .pushShort)
      (pushed : window.bytes.i16 (window.start + pc + 1) = .ok operand) :
      ReadsAs window pc (.complete (.int opcode operand.toInt32)) 2
  | arrayType {opcode : Opcode} {operand : UInt8} (code : window.HasCode pc opcode .arrayType)
      (kind : window.bytes.u8 (window.start + pc + 1) = .ok operand) :
      ReadsAs window pc (.complete (.int opcode (Int32.ofNat operand.toNat))) 1
  | constant {opcode : Opcode} {slot : UInt8} (code : window.HasCode pc opcode .constant)
      (refers : window.bytes.u8 (window.start + pc + 1) = .ok slot) :
      ReadsAs window pc (.load slot.toUInt16) 1
  | wideConstant {opcode : Opcode} {slot : UInt16} (code : window.HasCode pc opcode .wideConstant)
      (refers : window.bytes.u16 (window.start + pc + 1) = .ok slot) :
      ReadsAs window pc (.load slot) 2
  | localVar {opcode : Opcode} {slot : UInt8} (code : window.HasCode pc opcode .localVar)
      (accesses : window.bytes.u8 (window.start + pc + 1) = .ok slot) :
      ReadsAs window pc (.complete (.localVar opcode slot.toUInt16)) 1
  | increment {opcode : Opcode} {slot : UInt8} {delta : Int8}
      (code : window.HasCode pc opcode .increment)
      (accesses : window.bytes.u8 (window.start + pc + 1) = .ok slot)
      (added : window.bytes.i8 (window.start + pc + 2) = .ok delta) :
      ReadsAs window pc (.complete (.increment slot.toUInt16 delta.toInt16)) 2
  | jump {opcode : Opcode} {relative : Int16} {target : Nat} (code : window.HasCode pc opcode .jump)
      (distance : window.bytes.i16 (window.start + pc + 1) = .ok relative)
      (branch : window.target pc relative.toInt = .ok target) :
      ReadsAs window pc (.complete (.jump opcode target)) 2
  | wideJump {opcode : Opcode} {target : Nat} (code : window.HasCode pc opcode .wideJump)
      (branch : window.wideTarget pc (window.start + pc + 1) = .ok target) :
      ReadsAs window pc (.complete (.jump opcode target)) 4
  | tableSwitch {opcode : Opcode} {low high : Int32} {otherwise : Nat} {targets : List Nat}
      (code : window.HasCode pc opcode .tableSwitch)
      (default : window.wideTarget pc (window.start + pc + 1 + padding pc) = .ok otherwise)
      (first : window.bytes.i32 (window.start + pc + 1 + padding pc + 4) = .ok low)
      (last : window.bytes.i32 (window.start + pc + 1 + padding pc + 8) = .ok high)
      (bounds : ¬high < low) (count : (high.toInt - low.toInt + 1).toNat = targets.length)
      (branches : readEach (window.wideTarget pc) 4 (window.start + pc + 1 + padding pc + 12)
        targets.length = .ok targets) :
      ReadsAs window pc (.complete (.tableSwitch low high otherwise targets))
        (padding pc + 12 + 4 * targets.length)
  | lookupSwitch {opcode : Opcode} {counted : Int32} {otherwise : Nat} {pairs : List (Int32 × Nat)}
      (code : window.HasCode pc opcode .lookupSwitch)
      (default : window.wideTarget pc (window.start + pc + 1 + padding pc) = .ok otherwise)
      (number : window.bytes.i32 (window.start + pc + 1 + padding pc + 4) = .ok counted)
      (bounds : ¬counted < 0) (count : counted.toInt.toNat = pairs.length)
      (branches : readEach (window.switchPair pc) 8 (window.start + pc + 1 + padding pc + 8)
        pairs.length = .ok pairs) :
      ReadsAs window pc (.complete (.lookupSwitch otherwise (pairs.map (·.1)) (pairs.map (·.2))))
        (padding pc + 8 + 8 * pairs.length)
  | field {opcode : Opcode} {slot : UInt16} {member : ConstantTable.Member}
      (code : window.HasCode pc opcode .field)
      (refers : window.bytes.u16 (window.start + pc + 1) = .ok slot)
      (found : window.constants.member slot = .ok member) :
      ReadsAs window pc (.complete (.field opcode member.owner member.name member.descriptor)) 2
  | method {opcode : Opcode} {slot : UInt16} {member : ConstantTable.Member}
      (code : window.HasCode pc opcode .method)
      (refers : window.bytes.u16 (window.start + pc + 1) = .ok slot)
      (found : window.constants.member slot = .ok member) :
      ReadsAs window pc (.complete (.method opcode member.owner member.name member.descriptor
        member.isInterface)) (if opcode = .invokeInterface then 4 else 2)
  | callSite {opcode : Opcode} {slot : UInt16} {site : ConstantTable.CallSite}
      (code : window.HasCode pc opcode .callSite)
      (refers : window.bytes.u16 (window.start + pc + 1) = .ok slot)
      (found : window.constants.callSite slot = .ok site) : ReadsAs window pc (.call site) 4
  | type {opcode : Opcode} {slot : UInt16} {name : String} (code : window.HasCode pc opcode .type)
      (refers : window.bytes.u16 (window.start + pc + 1) = .ok slot)
      (found : window.constants.className slot = .ok name) :
      ReadsAs window pc (.complete (.type opcode name)) 2
  | multiArray {opcode : Opcode} {slot : UInt16} {name : String} {dimensions : UInt8}
      (code : window.HasCode pc opcode .multiArray)
      (refers : window.bytes.u16 (window.start + pc + 1) = .ok slot)
      (found : window.constants.className slot = .ok name)
      (depth : window.bytes.u8 (window.start + pc + 3) = .ok dimensions) :
      ReadsAs window pc (.complete (.multiNewArray name dimensions)) 3
  | widenedAccess {opcode : Opcode} {slot : UInt16} {modified : Opcode}
      (code : window.HasCode pc opcode .widened)
      (modifies : window.HasCode (pc + 1) modified .localVar)
      (accesses : window.bytes.u16 (window.start + pc + 2) = .ok slot) :
      ReadsAs window pc (.complete (.localVar modified slot)) 3
  | widenedIncrement {opcode : Opcode} {slot : UInt16} {modified : Opcode} {delta : Int16}
      (code : window.HasCode pc opcode .widened)
      (modifies : window.HasCode (pc + 1) modified .increment)
      (accesses : window.bytes.u16 (window.start + pc + 2) = .ok slot)
      (added : window.bytes.i16 (window.start + pc + 4) = .ok delta) :
      ReadsAs window pc (.complete (.increment slot delta)) 5

variable (window : Window) (pc : Nat)

/-- Something is malformed, or the code at the offset reads as the result. -/
abbrev Outcome (result : Except Error (Decoded × Nat)) : Prop :=
  BlamesOr (fun found => window.ReadsAs pc found.1 found.2) result

theorem blames_offset (n : Int) : Blames (window.offset n) := by
  unfold offset
  split
  · exact failsOnly_ok _
  · exact blames_malformed _

theorem blames_wideTarget (index : Nat) : Blames (window.wideTarget pc index) :=
  (window.bytes.blames_i32 index).bind fun _ => window.blames_offset _

theorem blames_switchPair (index : Nat) : Blames (window.switchPair pc index) :=
  (window.bytes.blames_i32 index).bind fun _ =>
    (window.blames_wideTarget pc _).bind fun _ => failsOnly_ok _

variable {window pc} {opcode : Opcode}

theorem outcome_tableSwitch (code : window.HasCode pc opcode .tableSwitch) :
    window.Outcome pc (window.tableSwitch pc) := by
  refine (window.blames_wideTarget pc _).bindOr fun otherwise default => ?_
  refine (window.bytes.blames_i32 _).bindOr fun low first => ?_
  refine (window.bytes.blames_i32 _).bindOr fun high last => ?_
  split
  · exact blamesOr_malformed _
  · rename_i bounds
    refine (failsOnly_readEach (window.blames_wideTarget pc) _ _ _).bindOr fun targets found => ?_
    have count := (length_of_readEach found).symm
    rw [count] at found ⊢
    exact blamesOr_ok (.tableSwitch code default first last bounds count found)

theorem outcome_lookupSwitch (code : window.HasCode pc opcode .lookupSwitch) :
    window.Outcome pc (window.lookupSwitch pc) := by
  refine (window.blames_wideTarget pc _).bindOr fun otherwise default => ?_
  refine (window.bytes.blames_i32 _).bindOr fun counted number => ?_
  split
  · exact blamesOr_malformed _
  · rename_i bounds
    refine (failsOnly_readEach (window.blames_switchPair pc) _ _ _).bindOr fun pairs found => ?_
    have count := (length_of_readEach found).symm
    rw [count] at found ⊢
    exact blamesOr_ok (.lookupSwitch code default number bounds count found)

theorem outcome_widened (code : window.HasCode pc opcode .widened) :
    window.Outcome pc (window.widened pc) := by
  refine (window.bytes.blames_u8 _).bindOr fun byte modified => ?_
  refine (window.bytes.blames_u16 _).bindOr fun slot accesses => ?_
  split
  · rename_i shape
    refine (window.bytes.blames_i16 _).bindOr fun delta added => ?_
    exact blamesOr_ok (.widenedIncrement code ⟨modified, shape⟩ accesses added)
  · rename_i shape
    exact blamesOr_ok (.widenedAccess code ⟨modified, shape⟩ accesses)
  · exact blamesOr_malformed _

/-- Whatever is read behind an operation code is what the code reads as. -/
theorem outcome_operands {shape : Opcode.Shape} (code : window.HasCode pc opcode shape) :
    window.Outcome pc (window.operands pc opcode shape) := by
  have byte := window.bytes.blames_u8
  have short := window.bytes.blames_u16
  cases shape with
  | bare => exact blamesOr_ok (.bare code)
  | shortLoad => exact blamesOr_ok (.shortLoad code)
  | shortStore => exact blamesOr_ok (.shortStore code)
  | pushByte =>
      exact (window.bytes.blames_i8 _).bindOr fun _ pushed => blamesOr_ok (.pushByte code pushed)
  | pushShort =>
      exact (window.bytes.blames_i16 _).bindOr fun _ pushed => blamesOr_ok (.pushShort code pushed)
  | arrayType => exact (byte _).bindOr fun _ kind => blamesOr_ok (.arrayType code kind)
  | constant => exact (byte _).bindOr fun _ refers => blamesOr_ok (.constant code refers)
  | wideConstant => exact (short _).bindOr fun _ refers => blamesOr_ok (.wideConstant code refers)
  | localVar => exact (byte _).bindOr fun _ accesses => blamesOr_ok (.localVar code accesses)
  | increment =>
      refine (byte _).bindOr fun _ accesses => ?_
      exact (window.bytes.blames_i8 _).bindOr fun _ added =>
        blamesOr_ok (.increment code accesses added)
  | jump =>
      refine (window.bytes.blames_i16 _).bindOr fun _ distance => ?_
      exact (window.blames_offset _).bindOr fun _ branch => blamesOr_ok (.jump code distance branch)
  | wideJump =>
      exact (window.blames_wideTarget pc _).bindOr fun _ branch =>
        blamesOr_ok (.wideJump code branch)
  | tableSwitch => exact outcome_tableSwitch code
  | lookupSwitch => exact outcome_lookupSwitch code
  | field =>
      refine (short _).bindOr fun _ refers => ?_
      exact (window.constants.blames_member _).bindOr fun _ found =>
        blamesOr_ok (.field code refers found)
  | method =>
      refine (short _).bindOr fun _ refers => ?_
      exact (window.constants.blames_member _).bindOr fun _ found =>
        blamesOr_ok (.method code refers found)
  | callSite =>
      refine (short _).bindOr fun _ refers => ?_
      exact (window.constants.blames_callSite _).bindOr fun _ found =>
        blamesOr_ok (.callSite code refers found)
  | type =>
      refine (short _).bindOr fun _ refers => ?_
      exact (window.constants.blames_className _).bindOr fun _ found =>
        blamesOr_ok (.type code refers found)
  | widened => exact outcome_widened code
  | multiArray =>
      refine (short _).bindOr fun _ refers => ?_
      refine (window.constants.blames_className _).bindOr fun _ found => ?_
      exact (byte _).bindOr fun _ depth => blamesOr_ok (.multiArray code refers found depth)
  | undefined => exact blamesOr_malformed _

variable (window pc)

/-- Whatever is decoded is what the code reads as, and decoding fails only on malformed code. -/
theorem outcome_decode : window.Outcome pc (window.decode pc) :=
  (window.bytes.blames_u8 _).bindOr fun _ found => outcome_operands ⟨found, rfl⟩

/-- No bytes make decoding fail for another reason than that they are malformed. -/
theorem blames_decode : Blames (window.decode pc) :=
  (window.outcome_decode pc).blames

variable {window pc} {decoded : Decoded} {n : Nat}

/-- Decoding goes on behind the operation code. -/
theorem HasCode.decode_eq {shape : Opcode.Shape} (code : window.HasCode pc opcode shape) :
    window.decode pc = window.operands pc opcode shape := by
  unfold decode
  simp only [code.byte, code.shape_eq, bind, Except.bind]

/-- What the code reads as is decoded. -/
theorem ReadsAs.decode (h : window.ReadsAs pc decoded n) : window.decode pc = .ok (decoded, n) := by
  cases h with
  | bare code | shortLoad code | shortStore code => exact code.decode_eq
  | pushByte code operand | pushShort code operand | arrayType code operand
  | constant code operand | wideConstant code operand | localVar code operand
  | wideJump code operand =>
      rw [code.decode_eq]
      simp only [operands, operand, bind, Except.bind]
      rfl
  | increment code first second | jump code first second | field code first second
  | method code first second | callSite code first second | type code first second =>
      rw [code.decode_eq]
      simp only [operands, first, second, bind, Except.bind]
      rfl
  | multiArray code refers found depth =>
      rw [code.decode_eq]
      simp only [operands, refers, found, depth, bind, Except.bind]
      rfl
  | tableSwitch code default first last bounds count branches =>
      rw [code.decode_eq]
      simp only [operands, Window.tableSwitch, default, first, last, if_neg bounds, count, branches,
        bind, Except.bind]
      rfl
  | lookupSwitch code default number bounds count branches =>
      rw [code.decode_eq]
      simp only [operands, Window.lookupSwitch, default, number, if_neg bounds, count, branches,
        bind, Except.bind]
      rfl
  | widenedAccess code modifies accesses =>
      have byte : window.bytes.u8 (window.start + pc + 1) = _ := modifies.byte
      rw [code.decode_eq]
      simp only [operands, Window.widened, byte, modifies.shape_eq, accesses, bind, Except.bind]
      rfl
  | widenedIncrement code modifies accesses added =>
      have byte : window.bytes.u8 (window.start + pc + 1) = _ := modifies.byte
      rw [code.decode_eq]
      simp only [operands, Window.widened, byte, modifies.shape_eq, accesses, added, bind,
        Except.bind]
      rfl

theorem decode_eq_ok_iff : window.decode pc = .ok (decoded, n) ↔ window.ReadsAs pc decoded n :=
  ⟨(window.outcome_decode pc).of_eq_ok, ReadsAs.decode⟩

end JavaClass.Bytecode.Window
