import JavaClass.Assembly.MethodDraft
import JavaClass.Proofs.Bytecode.Outcomes

/-!
# Decoding single instructions

What decoding finds at an offset where an operation code and its operands
stand, for each shape of operands.

## Implementation notes

`Shows` says that a window has some bytes at an offset of its code. A branch is
read back if its target is within the code and the distance fits its width.
-/

namespace JavaClass.Bytecode.Window

open BigEndian

variable {window : Window} {pc : Nat}

/-- The window has these bytes at an offset of its code. -/
def Shows (window : Window) (pc : Nat) (content : List UInt8) : Prop :=
  window.bytes.Holds (window.start + pc) content

theorem Shows.left {first second : List UInt8} (h : window.Shows pc (first ++ second)) :
    window.Shows pc first := Bytes.Holds.left h

theorem Shows.right {first second : List UInt8} (h : window.Shows pc (first ++ second)) :
    window.Shows (pc + first.length) second := by
  have hright := Bytes.Holds.right h
  rwa [Nat.add_assoc] at hright

/-- The operation code at an offset, and what follows it. -/
theorem Shows.split {byte : UInt8} {operands : List UInt8}
    (h : window.Shows pc (byte :: operands)) :
    window.bytes.u8 (window.start + pc) = .ok byte ∧
      window.bytes.Holds (window.start + pc + 1) operands := by
  have hsplit : window.bytes.Holds (window.start + pc) ([byte] ++ operands) := h
  exact ⟨hsplit.left.u8, hsplit.right⟩

section Operands

variable {opcode : Opcode} {operands : List UInt8}

/-- The operation code at an offset has its shape. -/
theorem Shows.hasCode (h : window.Shows pc (opcode.byte :: operands)) {shape : Opcode.Shape}
    (hshape : opcode.shape = shape) : window.HasCode pc opcode shape :=
  ⟨h.split.1, hshape⟩

theorem decode_bare (h : window.Shows pc [opcode.byte]) (hshape : opcode.shape = .bare) :
    window.decode pc = .ok (.complete (.simple opcode), 0) :=
  ReadsAs.decode (.bare (h.hasCode hshape))

theorem decode_pushByte {operand : Int8} (h : window.Shows pc (opcode.byte :: i8 operand))
    (hshape : opcode.shape = .pushByte) :
    window.decode pc = .ok (.complete (.int opcode operand.toInt32), 1) :=
  ReadsAs.decode (.pushByte (h.hasCode hshape) h.split.2.i8)

theorem decode_pushShort {operand : Int16} (h : window.Shows pc (opcode.byte :: i16 operand))
    (hshape : opcode.shape = .pushShort) :
    window.decode pc = .ok (.complete (.int opcode operand.toInt32), 2) :=
  ReadsAs.decode (.pushShort (h.hasCode hshape) h.split.2.i16)

theorem decode_arrayType {operand : UInt8} (h : window.Shows pc (opcode.byte :: u8 operand))
    (hshape : opcode.shape = .arrayType) :
    window.decode pc = .ok (.complete (.int opcode (Int32.ofNat operand.toNat)), 1) :=
  ReadsAs.decode (.arrayType (h.hasCode hshape) (Bytes.Holds.u8 h.split.2))

theorem decode_constant {slot : UInt8} (h : window.Shows pc [opcode.byte, slot])
    (hshape : opcode.shape = .constant) :
    window.decode pc = .ok (.load slot.toUInt16, 1) :=
  ReadsAs.decode (.constant (h.hasCode hshape) h.split.2.u8)

theorem decode_wideConstant {slot : UInt16} (h : window.Shows pc (opcode.byte :: u16 slot))
    (hshape : opcode.shape = .wideConstant) : window.decode pc = .ok (.load slot, 2) :=
  ReadsAs.decode (.wideConstant (h.hasCode hshape) h.split.2.u16)

theorem decode_localVar {slot : UInt8} (h : window.Shows pc [opcode.byte, slot])
    (hshape : opcode.shape = .localVar) :
    window.decode pc = .ok (.complete (.localVar opcode slot.toUInt16), 1) :=
  ReadsAs.decode (.localVar (h.hasCode hshape) h.split.2.u8)

theorem decode_shortLoad (h : window.Shows pc [opcode.byte]) (hshape : opcode.shape = .shortLoad) :
    window.decode pc =
      .ok (.complete (.localVar opcode.ofShortLoad.1 opcode.ofShortLoad.2), 0) :=
  ReadsAs.decode (.shortLoad (h.hasCode hshape))

theorem decode_shortStore (h : window.Shows pc [opcode.byte])
    (hshape : opcode.shape = .shortStore) :
    window.decode pc =
      .ok (.complete (.localVar opcode.ofShortStore.1 opcode.ofShortStore.2), 0) :=
  ReadsAs.decode (.shortStore (h.hasCode hshape))

theorem decode_increment {slot : UInt8} {delta : Int8}
    (h : window.Shows pc (opcode.byte :: slot :: i8 delta)) (hshape : opcode.shape = .increment) :
    window.decode pc = .ok (.complete (.increment slot.toUInt16 delta.toInt16), 2) := by
  have hoperands : window.bytes.Holds (window.start + pc + 1) ([slot] ++ i8 delta) := h.split.2
  exact ReadsAs.decode (.increment (h.hasCode hshape) hoperands.left.u8 hoperands.right.i8)

/-- The wide form of an access to a local variable. -/
theorem decode_widenedLocalVar {slot : UInt16} (hshape : opcode.shape = .localVar)
    (h : window.Shows pc (Opcode.wide.byte :: opcode.byte :: u16 slot)) :
    window.decode pc = .ok (.complete (.localVar opcode slot), 3) := by
  have hoperands : window.bytes.Holds (window.start + pc + 1) ([opcode.byte] ++ u16 slot) :=
    h.split.2
  exact ReadsAs.decode (.widenedAccess (h.hasCode rfl) ⟨hoperands.left.u8, hshape⟩
    hoperands.right.u16)

/-- The wide form of an increment. -/
theorem decode_widenedIncrement {slot : UInt16} {delta : Int16}
    (h : window.Shows pc (Opcode.wide.byte :: Opcode.iinc.byte :: (u16 slot ++ i16 delta))) :
    window.decode pc = .ok (.complete (.increment slot delta), 5) := by
  have hoperands : window.bytes.Holds (window.start + pc + 1)
      ([Opcode.iinc.byte] ++ (u16 slot ++ i16 delta)) := h.split.2
  have hincrement : window.HasCode (pc + 1) Opcode.iinc .increment := ⟨hoperands.left.u8, rfl⟩
  exact ReadsAs.decode (.widenedIncrement (h.hasCode rfl) hincrement hoperands.right.left.u16
    hoperands.right.right.i16)

theorem decode_field {slot : UInt16} {member : ConstantTable.Member}
    (h : window.Shows pc (opcode.byte :: u16 slot)) (hshape : opcode.shape = .field)
    (hmember : window.constants.member slot = .ok member) :
    window.decode pc =
      .ok (.complete (.field opcode member.owner member.name member.descriptor), 2) :=
  ReadsAs.decode (.field (h.hasCode hshape) h.split.2.u16 hmember)

/-- A method reference; what stands behind it is not looked at. -/
theorem decode_method {slot : UInt16} {member : ConstantTable.Member}
    (h : window.Shows pc (opcode.byte :: u16 slot)) (hshape : opcode.shape = .method)
    (hmember : window.constants.member slot = .ok member) :
    window.decode pc = .ok (.complete (.method opcode member.owner member.name member.descriptor
      member.isInterface), if opcode = .invokeInterface then 4 else 2) :=
  ReadsAs.decode (.method (h.hasCode hshape) h.split.2.u16 hmember)

theorem decode_callSite {slot : UInt16} {site : ConstantTable.CallSite}
    (h : window.Shows pc (opcode.byte :: u16 slot)) (hshape : opcode.shape = .callSite)
    (hsite : window.constants.callSite slot = .ok site) :
    window.decode pc = .ok (.call site, 4) :=
  ReadsAs.decode (.callSite (h.hasCode hshape) h.split.2.u16 hsite)

theorem decode_type {slot : UInt16} {name : String}
    (h : window.Shows pc (opcode.byte :: u16 slot)) (hshape : opcode.shape = .type)
    (hname : window.constants.className slot = .ok name) :
    window.decode pc = .ok (.complete (.type opcode name), 2) :=
  ReadsAs.decode (.type (h.hasCode hshape) h.split.2.u16 hname)

theorem decode_multiArray {slot : UInt16} {name : String} {dimensions : UInt8}
    (h : window.Shows pc (opcode.byte :: (u16 slot ++ [dimensions])))
    (hshape : opcode.shape = .multiArray) (hname : window.constants.className slot = .ok name) :
    window.decode pc = .ok (.complete (.multiNewArray name dimensions), 3) :=
  ReadsAs.decode (.multiArray (h.hasCode hshape) h.split.2.left.u16 hname h.split.2.right.u8)

end Operands

section Branches

variable {index : Nat}

theorem offset_natCast {offset : Nat} (h : offset ≤ window.length) :
    window.offset offset = .ok offset := by
  unfold Window.offset
  rw [if_pos ⟨by omega, by omega⟩, Int.toNat_natCast]

theorem target_eq {offset : Nat} (h : offset ≤ window.length) :
    window.target pc (offset - pc) = .ok offset := by
  have hsum : (pc : Int) + (offset - pc) = offset := by omega
  rw [target, hsum, offset_natCast h]

/-- The bytes of a branch from `pc` to an offset. -/
def wideBranch (pc offset : Nat) : List UInt8 := i32 (Int32.ofInt (offset - pc))

theorem wideTarget_eq {offset : Nat} (small : window.length ≤ countLimit)
    (hpc : pc ≤ window.length) (hoffset : offset ≤ window.length)
    (h : window.bytes.Holds index (wideBranch pc offset)) :
    window.wideTarget pc index = .ok offset := by
  simp only [countLimit] at small
  have htoInt : (Int32.ofInt (offset - pc)).toInt = offset - pc :=
    Int32.toInt_ofInt_of_le (by omega) (by omega)
  unfold wideTarget
  simp only [h.i32, bind, Except.bind, htoInt]
  exact target_eq hoffset

theorem decode_jump {opcode : Opcode} {offset : Nat} (hshape : opcode.shape = .jump)
    (hoffset : offset ≤ window.length)
    (fits : -32768 ≤ (offset : Int) - pc ∧ (offset : Int) - pc ≤ 32767)
    (h : window.Shows pc (opcode.byte :: i16 (Int16.ofInt (offset - pc)))) :
    window.decode pc = .ok (.complete (.jump opcode offset), 2) := by
  have htoInt : (Int16.ofInt (offset - pc)).toInt = offset - pc :=
    Int16.toInt_ofInt_of_le (by omega) (by omega)
  have hbranch : window.target pc (Int16.ofInt (offset - pc)).toInt = .ok offset := by
    rw [htoInt, target_eq hoffset]
  exact ReadsAs.decode (.jump (h.hasCode hshape) h.split.2.i16 hbranch)

theorem length_switchPadding (pc : Nat) :
    (MethodDraft.switchPadding (pc + 1)).length = padding pc := by
  rw [MethodDraft.switchPadding, List.length_replicate, padding]
  omega

theorem length_wideBranch (pc offset : Nat) : (wideBranch pc offset).length = 4 := by
  rw [wideBranch, i32, u32, length_ofNat]

theorem length_wideBranches (pc : Nat) (offsets : List Nat) :
    ((offsets.map (wideBranch pc)).flatten).length = 4 * offsets.length := by
  induction offsets with
  | nil => rfl
  | cons offset offsets ih =>
      rw [List.map_cons, List.flatten_cons, List.length_append, length_wideBranch, ih,
        List.length_cons]
      omega

/-- The bytes of a key and its branch. -/
def pairBytes (pc : Nat) (pair : Int32 × Nat) : List UInt8 :=
  i32 pair.1 ++ wideBranch pc pair.2

theorem length_pairBytes (pc : Nat) (pair : Int32 × Nat) : (pairBytes pc pair).length = 8 := by
  rw [pairBytes, List.length_append, length_wideBranch, i32, u32, length_ofNat]

theorem length_pairs (pc : Nat) (pairs : List (Int32 × Nat)) :
    ((pairs.map (pairBytes pc)).flatten).length = 8 * pairs.length := by
  induction pairs with
  | nil => rfl
  | cons pair pairs ih =>
      rw [List.map_cons, List.flatten_cons, List.length_append, length_pairBytes, ih,
        List.length_cons]
      omega

variable (small : window.length ≤ countLimit) (hpc : pc ≤ window.length)

include small hpc

theorem decode_wideJump {opcode : Opcode} {offset : Nat} (hshape : opcode.shape = .wideJump)
    (hoffset : offset ≤ window.length)
    (h : window.Shows pc (opcode.byte :: wideBranch pc offset)) :
    window.decode pc = .ok (.complete (.jump opcode offset), 4) :=
  ReadsAs.decode (.wideJump (h.hasCode hshape) (wideTarget_eq small hpc hoffset h.split.2))

/-- Branches one behind the other are read back. -/
theorem readEach_wideTarget {offsets : List Nat} (hoffsets : ∀ n ∈ offsets, n ≤ window.length)
    (h : window.bytes.Holds index (offsets.map (wideBranch pc)).flatten) :
    readEach (window.wideTarget pc) 4 index offsets.length = .ok offsets := by
  rw [← List.length_map (wideBranch pc)]
  refine readEach_eq ?_ h
  rw [List.forall₂_map_right_iff, List.forall₂_same]
  intro n hn
  exact ⟨length_wideBranch pc n, fun i hi => wideTarget_eq small hpc (hoffsets n hn) hi⟩

theorem decode_tableSwitch {filler : List UInt8} (hfiller : filler.length = padding pc)
    {low high : Int32} {otherwise : Nat} {targets : List Nat}
    (hbounds : ¬ high < low) (hcount : high.toInt - low.toInt + 1 = targets.length)
    (hotherwise : otherwise ≤ window.length) (htargets : ∀ n ∈ targets, n ≤ window.length)
    (h : window.Shows pc (Opcode.tableSwitch.byte :: (filler ++
      (wideBranch pc otherwise ++ ((i32 low ++ i32 high) ++
        (targets.map (wideBranch pc)).flatten))))) :
    window.decode pc = .ok (.complete (.tableSwitch low high otherwise targets),
      padding pc + 12 + 4 * targets.length) := by
  have hoperands := h.split.2.right
  rw [hfiller] at hoperands
  have hlow := hoperands.right.left.left.i32
  have hhigh := hoperands.right.left.right.i32
  have heach := readEach_wideTarget small hpc htargets hoperands.right.right
  rw [length_wideBranch] at hlow hhigh heach
  simp only [i32, u32, List.length_append, length_ofNat] at hlow hhigh heach
  have hwidth (n : Nat) : n + 4 + (4 + 4) = n + 12 ∧ n + 4 + 4 = n + 8 := by omega
  rw [(hwidth _).1] at heach
  rw [(hwidth _).2] at hhigh
  have htoNat : (high.toInt - low.toInt + 1).toNat = targets.length := by
    rw [hcount, Int.toNat_natCast]
  exact ReadsAs.decode (.tableSwitch (h.hasCode rfl)
    (wideTarget_eq small hpc hotherwise hoperands.left) hlow hhigh hbounds htoNat heach)

theorem decode_lookupSwitch {filler : List UInt8} (hfiller : filler.length = padding pc)
    {otherwise : Nat} {pairs : List (Int32 × Nat)}
    (hcount : pairs.length < 2 ^ 31) (hotherwise : otherwise ≤ window.length)
    (htargets : ∀ pair ∈ pairs, pair.2 ≤ window.length)
    (h : window.Shows pc (Opcode.lookupSwitch.byte :: (filler ++
      (wideBranch pc otherwise ++ (ofNat 4 pairs.length ++
        (pairs.map (pairBytes pc)).flatten))))) :
    window.decode pc = .ok
      (.complete (.lookupSwitch otherwise (pairs.map (·.1)) (pairs.map (·.2))),
        padding pc + 8 + 8 * pairs.length) := by
  have hoperands := h.split.2.right
  rw [hfiller] at hoperands
  have hlength : i32 (Int32.ofNat pairs.length) = ofNat 4 pairs.length := by
    have htoNat : (UInt32.ofNat pairs.length).toNat = pairs.length :=
      UInt32.toNat_ofNat_of_lt' (by change _ < 2 ^ 32; omega)
    change ofNat 4 (UInt32.ofNat pairs.length).toNat = _
    rw [htoNat]
  have htoInt : (Int32.ofNat pairs.length).toInt = pairs.length :=
    Int32.toInt_ofNat_of_lt hcount
  have hpairs := hoperands.right.left
  rw [← hlength] at hpairs
  have hnumber := hpairs.i32
  have hholds := hoperands.right.right
  rw [length_wideBranch] at hnumber hholds
  rw [length_ofNat, Nat.add_assoc _ 4 4] at hholds
  have heach : readEach (window.switchPair pc) 8 (window.start + pc + 1 + padding pc + 8)
      pairs.length = .ok pairs := by
    rw [← List.length_map (pairBytes pc)]
    refine readEach_eq ?_ hholds
    rw [List.forall₂_map_right_iff, List.forall₂_same]
    rintro ⟨key, target⟩ hpair
    refine ⟨length_pairBytes pc _, fun i hi => ?_⟩
    have htarget : window.wideTarget pc (i + 4) = .ok target :=
      wideTarget_eq small hpc (htargets _ hpair) hi.right
    simp only [switchPair, hi.left.i32, htarget, bind, Except.bind]
    rfl
  have hpositive : ¬ Int32.ofNat pairs.length < 0 := by
    rw [Int32.lt_iff_toInt_lt, htoInt]
    simp
  have htoNat : (Int32.ofNat pairs.length).toInt.toNat = pairs.length := by
    rw [htoInt, Int.toNat_natCast]
  exact ReadsAs.decode (.lookupSwitch (h.hasCode rfl)
    (wideTarget_eq small hpc hotherwise hoperands.left) hnumber hpositive htoNat heach)

end Branches

end JavaClass.Bytecode.Window
