import JavaClass.Proofs.Bytecode.Decoded
import JavaClass.Proofs.Bytes.Reach

/-!
# How far decoding goes

Decoding looks at no byte behind the operands of an instruction, and so at none
behind the code.

## Implementation notes

An instruction may have more bytes than are looked at: nothing is done with the
last bytes of some calls and with the padding of a switch.
-/

namespace JavaClass.Bytecode.Window

open Bytes

variable {window : Window} {pc : Nat} {decoded : Decoded} {n : Nat}

/-- The same part of other bytes. -/
def withBytes (window : Window) (bytes : Bytes) : Window :=
  { window with bytes := bytes }

theorem reaches_wideTarget {index start target : Nat} (h : window.wideTarget pc index = .ok target)
    (le : start ≤ index + 4) :
    window.bytes.Reaches (fun bytes => (window.withBytes bytes).wideTarget pc index) target start
      (index + 4) := by
  unfold wideTarget at h ⊢
  obtain ⟨relative, found, h⟩ := exceptBind_eq_ok_iff.mp h
  exact (reaches_i32 found le).bind (reaches_const h _)

theorem reaches_switchPair {index start : Nat} {pair : Int32 × Nat}
    (h : window.switchPair pc index = .ok pair) (le : start ≤ index + 4) :
    window.bytes.Reaches (fun bytes => (window.withBytes bytes).switchPair pc index) pair start
      (index + 8) := by
  unfold switchPair at h ⊢
  obtain ⟨key, hkey, h⟩ := exceptBind_eq_ok_iff.mp h
  obtain ⟨target, htarget, h⟩ := exceptBind_eq_ok_iff.mp h
  refine .bind (reaches_i32 hkey le) ?_
  exact .bind (reaches_wideTarget htarget (by omega)) (reaches_const h _)

theorem within_tableSwitch {low high : Int32} {otherwise : Nat} {targets : List Nat}
    (default : window.wideTarget pc (window.start + pc + 1 + padding pc) = .ok otherwise)
    (first : window.bytes.i32 (window.start + pc + 1 + padding pc + 4) = .ok low)
    (last : window.bytes.i32 (window.start + pc + 1 + padding pc + 8) = .ok high)
    (bounds : ¬high < low) (count : (high.toInt - low.toInt + 1).toNat = targets.length)
    (branches : readEach (window.wideTarget pc) 4 (window.start + pc + 1 + padding pc + 12)
      targets.length = .ok targets) :
    window.bytes.ReachesWithin (fun bytes => (window.withBytes bytes).tableSwitch pc)
      (.complete (.tableSwitch low high otherwise targets), padding pc + 12 + 4 * targets.length)
      (window.start + pc + 1 + (padding pc + 12 + 4 * targets.length)) := by
  refine ⟨window.start + pc + 1 + padding pc + 12 + 4 * targets.length, by omega, ?_⟩
  unfold tableSwitch
  refine .bind (reaches_wideTarget default (Nat.zero_le _)) ?_
  refine .bind (reaches_i32 first (by omega)) (.bind (reaches_i32 last (by omega)) ?_)
  simp only [if_neg bounds, count]
  refine .bind (reaches_readEach (fun bytes => (window.withBytes bytes).wideTarget pc)
    (fun i target found => ?_) branches) (reaches_const rfl _)
  exact reaches_wideTarget found (by omega)

theorem within_lookupSwitch {counted : Int32} {otherwise : Nat} {pairs : List (Int32 × Nat)}
    (default : window.wideTarget pc (window.start + pc + 1 + padding pc) = .ok otherwise)
    (number : window.bytes.i32 (window.start + pc + 1 + padding pc + 4) = .ok counted)
    (bounds : ¬counted < 0) (count : counted.toInt.toNat = pairs.length)
    (branches : readEach (window.switchPair pc) 8 (window.start + pc + 1 + padding pc + 8)
      pairs.length = .ok pairs) :
    window.bytes.ReachesWithin (fun bytes => (window.withBytes bytes).lookupSwitch pc)
      (.complete (.lookupSwitch otherwise (pairs.map (·.1)) (pairs.map (·.2))),
        padding pc + 8 + 8 * pairs.length)
      (window.start + pc + 1 + (padding pc + 8 + 8 * pairs.length)) := by
  refine ⟨window.start + pc + 1 + padding pc + 8 + 8 * pairs.length, by omega, ?_⟩
  unfold lookupSwitch
  refine .bind (reaches_wideTarget default (Nat.zero_le _)) ?_
  refine .bind (reaches_i32 number (by omega)) ?_
  simp only [if_neg bounds, count]
  refine .bind (reaches_readEach (fun bytes => (window.withBytes bytes).switchPair pc)
    (fun i pair found => ?_) branches) (reaches_const rfl _)
  exact reaches_switchPair found (by omega)

/-- Decoding goes as far as what is behind the operation code is looked at. -/
theorem HasCode.within_decode {opcode : Opcode} {shape : Opcode.Shape} {n : Nat}
    (code : window.HasCode pc opcode shape)
    (rest : window.bytes.ReachesWithin
      (fun bytes => (window.withBytes bytes).operands pc opcode shape) (decoded, n)
      (window.start + pc + 1 + n)) :
    window.bytes.ReachesWithin (fun bytes => (window.withBytes bytes).decode pc) (decoded, n)
      (window.start + pc + 1 + n) := by
  unfold decode
  refine .bind ((reaches_u8 code.byte (Nat.zero_le _)).within (Nat.le_add_right _ _)) ?_
  rw [← code.shape_eq] at rest
  exact rest

/-- Decoding an instruction looks at its code and its operands. -/
theorem within_decode (h : window.decode pc = .ok (decoded, n)) :
    window.bytes.ReachesWithin (fun bytes => (window.withBytes bytes).decode pc) (decoded, n)
      (window.start + pc + 1 + n) := by
  cases decode_eq_ok_iff.mp h with
  | bare code | shortLoad code | shortStore code =>
      exact code.within_decode (reachesWithin_const rfl _)
  | pushByte code pushed =>
      exact code.within_decode (.bind ((reaches_i8 pushed (Nat.zero_le _)).within (by omega))
        (reachesWithin_const rfl _))
  | pushShort code pushed =>
      exact code.within_decode (.bind ((reaches_i16 pushed (Nat.zero_le _)).within (by omega))
        (reachesWithin_const rfl _))
  | arrayType code operand | constant code operand | localVar code operand =>
      exact code.within_decode (.bind ((reaches_u8 operand (Nat.zero_le _)).within (by omega))
        (reachesWithin_const rfl _))
  | wideConstant code refers =>
      exact code.within_decode (.bind ((reaches_u16 refers (Nat.zero_le _)).within (by omega))
        (reachesWithin_const rfl _))
  | increment code accesses added =>
      refine code.within_decode (.bind ((reaches_u8 accesses (Nat.zero_le _)).within (by omega)) ?_)
      exact .bind ((reaches_i8 added (Nat.zero_le _)).within (by omega))
        (reachesWithin_const rfl _)
  | jump code distance branch =>
      refine code.within_decode
        (.bind ((reaches_i16 distance (Nat.zero_le _)).within (by omega)) ?_)
      exact .bind (reachesWithin_const branch _) (reachesWithin_const rfl _)
  | wideJump code branch =>
      exact code.within_decode
        (.bind ((reaches_wideTarget branch (Nat.zero_le _)).within (by omega))
          (reachesWithin_const rfl _))
  | tableSwitch code default first last bounds count branches =>
      exact code.within_decode (within_tableSwitch default first last bounds count branches)
  | lookupSwitch code default number bounds count branches =>
      exact code.within_decode (within_lookupSwitch default number bounds count branches)
  | field code refers found | type code refers found | callSite code refers found =>
      refine code.within_decode (.bind ((reaches_u16 refers (Nat.zero_le _)).within (by omega)) ?_)
      exact .bind (reachesWithin_const found _) (reachesWithin_const rfl _)
  | method code refers found =>
      refine code.within_decode
        (.bind ((reaches_u16 refers (Nat.zero_le _)).within (by split <;> omega)) ?_)
      exact .bind (reachesWithin_const found _) (reachesWithin_const rfl _)
  | multiArray code refers found depth =>
      refine code.within_decode (.bind ((reaches_u16 refers (Nat.zero_le _)).within (by omega)) ?_)
      refine .bind (reachesWithin_const found _) ?_
      exact .bind ((reaches_u8 depth (Nat.zero_le _)).within (by omega))
        (reachesWithin_const rfl _)
  | widenedAccess code modifies accesses =>
      refine code.within_decode
        (.bind ((reaches_u8 modifies.byte (Nat.zero_le _)).within (by omega)) ?_)
      refine .bind ((reaches_u16 accesses (Nat.zero_le _)).within (by omega)) ?_
      simp only [modifies.shape_eq]
      exact reachesWithin_const rfl _
  | widenedIncrement code modifies accesses added =>
      refine code.within_decode
        (.bind ((reaches_u8 modifies.byte (Nat.zero_le _)).within (by omega)) ?_)
      refine .bind ((reaches_u16 accesses (Nat.zero_le _)).within (by omega)) ?_
      simp only [modifies.shape_eq]
      exact .bind ((reaches_i16 added (Nat.zero_le _)).within (by omega))
        (reachesWithin_const rfl _)

/-- Decoding code looks at nothing behind the code. -/
theorem within_decodeFrom {done items : List (Nat × Decoded)}
    (h : window.decodeFrom pc done = .ok items) :
    window.bytes.ReachesWithin (fun bytes => (window.withBytes bytes).decodeFrom pc done) items
      (window.start + window.length) := by
  induction pc, done using Window.decodeFrom.induct window with
  | case1 pc done lt error herror =>
      rw [decodeFrom, if_pos lt, herror] at h
      cases h
  | case2 pc done lt decoded operands hdecode ih =>
      have decodeFrom_lt : ∀ bytes, (window.withBytes bytes).decodeFrom pc done =
          (window.withBytes bytes).decode pc >>= fun found =>
            (window.withBytes bytes).decodeFrom (pc + 1 + found.2) ((pc, found.1) :: done) := by
        intro bytes
        rw [decodeFrom, if_pos (by exact lt)]
        cases (window.withBytes bytes).decode pc <;> rfl
      rw [decodeFrom, if_pos lt, hdecode] at h
      obtain ⟨more, -, -, first_le, -⟩ := decodeFrom_eq_ok h
      have next_le := first_le window.length (by simp)
      obtain ⟨stop, stop_le, first⟩ := within_decode hdecode
      simp only [decodeFrom_lt]
      exact .bind (first.within (by omega)) (ih h)
  | case3 done lt =>
      rw [decodeFrom, if_neg lt, if_pos rfl] at h
      have ends : ∀ bytes, (window.withBytes bytes).decodeFrom window.length done = .ok items := by
        intro bytes
        rw [decodeFrom, if_neg (by exact lt), if_pos (by rfl), h]
      simp only [ends]
      exact reachesWithin_const rfl _
  | case4 pc done lt ne =>
      rw [decodeFrom, if_neg lt, if_neg ne] at h
      cases h

end JavaClass.Bytecode.Window
