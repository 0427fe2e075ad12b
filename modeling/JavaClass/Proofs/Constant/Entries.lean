import Mathlib.Data.List.Forall2
import JavaClass.Constant.Table
import JavaClass.Proofs.Bytes.Reading
import JavaClass.Proofs.Text.RoundTrip

/-!
# Entries of a constant pool

An entry is read back from its bytes, so different entries have different
bytes.
-/

namespace JavaClass

open Bytes

variable {bytes : Bytes} {index : Nat}

namespace ConstantTable

theorem one_eq {slot : UInt16} (holds : bytes.Holds index (BigEndian.u16 slot))
    (make : UInt16 → Constant) : one bytes index make = .ok (make slot, index + 2) := by
  rw [one, holds.u16]
  rfl

theorem two_eq {first second : UInt16}
    (holds : bytes.Holds index (BigEndian.u16 first ++ BigEndian.u16 second))
    (make : UInt16 → UInt16 → Constant) :
    two bytes index make = .ok (make first second, index + 4) := by
  have hsecond := holds.right.u16
  rw [BigEndian.u16, BigEndian.length_ofNat] at hsecond
  rw [two, holds.left.u16]
  simp only [bind, Except.bind, hsecond]
  rfl

/-- An entry is read back from its bytes. -/
theorem readEntry_eq {constant : Constant} {part : List UInt8}
    (h : constant.encode = .ok part) (holds : bytes.Holds index part) :
    readEntry bytes index = .ok (constant, index + part.length) := by
  unfold Constant.encode at h
  cases hcontents : constant.contents with
  | error error => rw [hcontents] at h; cases h
  | ok contents =>
      rw [hcontents] at h
      obtain rfl : constant.tag :: contents = part := Except.ok.inj h
      rw [← List.singleton_append] at holds
      have htag := holds.left.u8
      have hrest : bytes.Holds (index + 1) contents := holds.right
      unfold readEntry
      rw [htag]
      cases constant with
      | utf8 text =>
          simp only [Constant.contents] at hcontents
          split at hcontents
          · cases hcontents
          · rename_i hlength
            simp only [countLimit] at hlength
            obtain rfl := Except.ok.inj hcontents
            have hbound : (Text.ModifiedUtf8.encode text).length < 65536 := by omega
            have hcount := hrest.left.u16_ofNat hbound
            have hslice := hrest.right.slice
            rw [BigEndian.length_ofNat] at hslice
            have htoNat : (UInt16.ofNat (Text.ModifiedUtf8.encode text).length).toNat =
                (Text.ModifiedUtf8.encode text).length := UInt16.toNat_ofNat_of_lt' hbound
            change (bytes.u16 (index + 1) >>= fun length =>
              bytes.slice (index + 1 + 2) length.toNat >>= fun encoded =>
                Text.ModifiedUtf8.decode encoded >>= fun text =>
                  .ok (Constant.utf8 text, index + 1 + 2 + length.toNat)) = _
            rw [hcount]
            simp only [bind, Except.bind, htoNat, hslice, Text.ModifiedUtf8.decode_encode]
            simp only [List.length_cons, List.length_append, BigEndian.length_ofNat]
            congr 2
            omega
      | integer value =>
          obtain rfl := Except.ok.inj hcontents
          change (bytes.i32 (index + 1) >>= _) = _
          rw [hrest.i32]
          rfl
      | float bits =>
          obtain rfl := Except.ok.inj hcontents
          change (bytes.u32 (index + 1) >>= _) = _
          rw [hrest.u32]
          rfl
      | long value =>
          obtain rfl := Except.ok.inj hcontents
          change (bytes.i64 (index + 1) >>= _) = _
          rw [hrest.i64]
          rfl
      | double bits =>
          obtain rfl := Except.ok.inj hcontents
          change (bytes.u64 (index + 1) >>= _) = _
          rw [hrest.u64]
          rfl
      | methodHandle kind member =>
          obtain rfl := Except.ok.inj hcontents
          have hmember := hrest.right.u16
          change (bytes.u8 (index + 1) >>= fun code => _) = _
          rw [hrest.left.u8]
          simp only [bind, Except.bind, HandleKind.ofCode?_code]
          rw [show bytes.u16 (index + 1 + 1) = .ok member from hmember]
          rfl
      | methodRef owner member isInterface =>
          obtain rfl := Except.ok.inj hcontents
          cases isInterface with
          | false => exact two_eq hrest fun owner member => .methodRef owner member false
          | true => exact two_eq hrest fun owner member => .methodRef owner member true
      | fieldRef owner member =>
          obtain rfl := Except.ok.inj hcontents
          exact two_eq hrest .fieldRef
      | nameAndType name descriptor =>
          obtain rfl := Except.ok.inj hcontents
          exact two_eq hrest .nameAndType
      | invokeDynamic bootstrap member =>
          obtain rfl := Except.ok.inj hcontents
          exact two_eq hrest .invokeDynamic
      | classInfo name =>
          obtain rfl := Except.ok.inj hcontents
          exact one_eq hrest .classInfo
      | string text =>
          obtain rfl := Except.ok.inj hcontents
          exact one_eq hrest .string
      | methodType descriptor =>
          obtain rfl := Except.ok.inj hcontents
          exact one_eq hrest .methodType
      | moduleInfo name =>
          obtain rfl := Except.ok.inj hcontents
          exact one_eq hrest .moduleInfo
      | packageInfo name =>
          obtain rfl := Except.ok.inj hcontents
          exact one_eq hrest .packageInfo

end ConstantTable

/-- Entries with the same bytes are equal. -/
theorem Constant.encode_injective {first second : Constant} {part : List UInt8}
    (h : first.encode = .ok part) (h' : second.encode = .ok part) : first = second := by
  have hread := ConstantTable.readEntry_eq h (Bytes.holds_all part)
  rw [ConstantTable.readEntry_eq h' (Bytes.holds_all part)] at hread
  exact (congrArg Prod.fst (Except.ok.inj hread)).symm

end JavaClass
