import JavaClass.Proofs.Bytes.Reach

/-!
# Numbers that were read

A number that was read stands where it was read, and so does a range. Together
with reading back what was written this says exactly when a reading of a few
bytes succeeds.
-/

namespace JavaClass

namespace BigEndian

theorem toNat_lt (digits : List UInt8) : toNat digits < 256 ^ digits.length := by
  induction digits with
  | nil => decide
  | cons digit rest ih =>
      have hdigit : digit.toNat + 1 ≤ 256 := digit.toNat_lt
      calc toNat (digit :: rest)
          = digit.toNat * 256 ^ rest.length + toNat rest := toNat_cons digit rest
        _ < (digit.toNat + 1) * 256 ^ rest.length := by rw [Nat.add_mul]; omega
        _ ≤ 256 * 256 ^ rest.length := Nat.mul_le_mul_right _ hdigit
        _ = 256 ^ (digit :: rest).length := by rw [List.length_cons, Nat.pow_succ, Nat.mul_comm]

/-- Equally many digits of one number are the same digits. -/
theorem eq_of_toNat_eq {first second : List UInt8} (length : first.length = second.length)
    (h : toNat first = toNat second) : first = second := by
  induction first generalizing second with
  | nil => exact (List.length_eq_zero_iff.mp length.symm).symm
  | cons digit rest ih =>
      obtain ⟨digit', rest', rfl⟩ := List.exists_cons_of_length_eq_add_one length.symm
      have hlength : rest.length = rest'.length := Nat.succ.inj length
      have hlt : toNat rest < 256 ^ rest'.length := hlength ▸ toNat_lt rest
      rw [toNat_cons, toNat_cons, hlength] at h
      have hrest : toNat rest = toNat rest' := by
        have hmod := congrArg (· % 256 ^ rest'.length) h
        simpa [Nat.mul_add_mod', Nat.mod_eq_of_lt hlt, Nat.mod_eq_of_lt (toNat_lt rest')] using hmod
      have hdigit : digit.toNat = digit'.toNat := by
        rw [hrest] at h
        exact Nat.eq_of_mul_eq_mul_right (Nat.pow_pos (by decide)) (Nat.add_right_cancel h)
      rw [UInt8.toNat_inj.mp hdigit, ih hlength hrest]

/-- Digits are written again as they were. -/
theorem ofNat_toNat (digits : List UInt8) : ofNat digits.length (toNat digits) = digits := by
  apply eq_of_toNat_eq (length_ofNat _ _)
  rw [toNat_ofNat, Nat.mod_eq_of_lt (toNat_lt digits)]

end BigEndian

namespace Bytes

variable {bytes : Bytes} {index length width : Nat}

theorem holds_nil (h : index ≤ bytes.size) : bytes.Holds index [] := by
  refine ⟨bytes.toList.take index, bytes.toList.drop index, ?_, ?_⟩
  · rw [List.nil_append, List.take_append_drop]
  · rw [List.length_take, Array.length_toList, Nat.min_eq_left h]

/-- A range is read exactly where it stands. -/
theorem slice_eq_ok_iff {content : List UInt8} :
    bytes.slice index length = .ok content ↔
      bytes.Holds index content ∧ content.length = length := by
  constructor
  · intro h
    unfold slice at h
    split at h
    · rename_i fits
      obtain rfl := Except.ok.inj h
      refine ⟨⟨bytes.toList.take index, bytes.toList.drop (index + length), ?_, ?_⟩, ?_⟩
      · rw [Array.toList_extract, List.extract_eq_take_drop, Nat.add_sub_cancel_left,
          ← List.drop_drop, List.take_append_drop, List.take_append_drop]
      · rw [List.length_take, Array.length_toList]
        omega
      · rw [Array.length_toList, Array.size_extract]
        omega
    · cases h
  · rintro ⟨holds, rfl⟩
    exact holds.slice

/-- A number is read exactly where its digits stand. -/
theorem number_eq_ok_iff {n : Nat} :
    bytes.number width index = .ok n ↔
      bytes.Holds index (BigEndian.ofNat width n) ∧ n < 256 ^ width := by
  constructor
  · intro h
    obtain ⟨content, found, rfl⟩ := exceptMap_eq_ok_iff.mp h
    obtain ⟨holds, rfl⟩ := slice_eq_ok_iff.mp found
    rw [BigEndian.ofNat_toNat]
    exact ⟨holds, BigEndian.toNat_lt content⟩
  · rintro ⟨holds, hlt⟩
    rw [holds.number, Nat.mod_eq_of_lt hlt]

theorem u8_eq_ok_iff {n : UInt8} : bytes.u8 index = .ok n ↔ bytes.Holds index [n] := by
  refine ⟨fun h => ?_, Holds.u8⟩
  obtain ⟨number, found, rfl⟩ := exceptMap_eq_ok_iff.mp h
  exact (number_eq_ok_iff.mp found).1

theorem u16_eq_ok_iff {n : UInt16} :
    bytes.u16 index = .ok n ↔ bytes.Holds index (BigEndian.u16 n) := by
  refine ⟨fun h => ?_, Holds.u16⟩
  obtain ⟨number, found, rfl⟩ := exceptMap_eq_ok_iff.mp h
  obtain ⟨holds, hlt⟩ := number_eq_ok_iff.mp found
  rwa [BigEndian.u16, UInt16.toNat_ofNat_of_lt' hlt]

theorem u32_eq_ok_iff {n : UInt32} :
    bytes.u32 index = .ok n ↔ bytes.Holds index (BigEndian.u32 n) := by
  refine ⟨fun h => ?_, Holds.u32⟩
  obtain ⟨number, found, rfl⟩ := exceptMap_eq_ok_iff.mp h
  obtain ⟨holds, hlt⟩ := number_eq_ok_iff.mp found
  rwa [BigEndian.u32, UInt32.toNat_ofNat_of_lt' hlt]

theorem u64_eq_ok_iff {n : UInt64} :
    bytes.u64 index = .ok n ↔ bytes.Holds index (BigEndian.u64 n) := by
  refine ⟨fun h => ?_, Holds.u64⟩
  obtain ⟨number, found, rfl⟩ := exceptMap_eq_ok_iff.mp h
  obtain ⟨holds, hlt⟩ := number_eq_ok_iff.mp found
  rwa [BigEndian.u64, UInt64.toNat_ofNat_of_lt' hlt]

theorem i32_eq_ok_iff {n : Int32} :
    bytes.i32 index = .ok n ↔ bytes.Holds index (BigEndian.i32 n) := by
  refine ⟨fun h => ?_, Holds.i32⟩
  obtain ⟨number, found, rfl⟩ := exceptMap_eq_ok_iff.mp h
  exact u32_eq_ok_iff.mp found

theorem i64_eq_ok_iff {n : Int64} :
    bytes.i64 index = .ok n ↔ bytes.Holds index (BigEndian.i64 n) := by
  refine ⟨fun h => ?_, Holds.i64⟩
  obtain ⟨number, found, rfl⟩ := exceptMap_eq_ok_iff.mp h
  exact u64_eq_ok_iff.mp found

end Bytes

end JavaClass
