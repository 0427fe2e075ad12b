import JavaClass.Proofs.Text.Groups

/-!
# Texts survive their encoding

Units read back as the characters they were made of, and groups of bytes as
their units, so every text is read back from its bytes.
-/

namespace JavaClass.Text

namespace Utf16

/-- A character is read back from its units, whatever follows them. -/
theorem decodeAfter_ofChar (done : List Char) (c : Char) (rest : List UInt16) :
    decodeAfter done (ofChar c ++ rest) = decodeAfter (c :: done) rest := by
  have hvalid : c.toNat < 0xD800 ∨ 0xDFFF < c.toNat ∧ c.toNat < 0x110000 := c.valid
  unfold ofChar
  split
  · rename_i hsmall
    have hunit : (UInt16.ofNat c.toNat).toNat = c.toNat := UInt16.toNat_ofNat_of_lt' hsmall
    have hhigh : isHigh (UInt16.ofNat c.toNat) = false := by
      simp only [isHigh, UInt16.le_iff_toNat_le, UInt16.lt_iff_toNat_lt, hunit]
      rw [Bool.and_eq_false_iff, decide_eq_false_iff_not, decide_eq_false_iff_not]
      change ¬ 0xD800 ≤ c.toNat ∨ ¬ c.toNat < 0xDC00
      omega
    have hlow : isLow (UInt16.ofNat c.toNat) = false := by
      simp only [isLow, UInt16.le_iff_toNat_le, UInt16.lt_iff_toNat_lt, hunit]
      rw [Bool.and_eq_false_iff, decide_eq_false_iff_not, decide_eq_false_iff_not]
      change ¬ 0xDC00 ≤ c.toNat ∨ ¬ c.toNat < 0xE000
      omega
    rw [List.singleton_append, decodeAfter.eq_def]
    simp only [hhigh, hlow, hunit, Char.ofNat_toNat]
    rfl
  · rename_i hlarge
    obtain ⟨n, hn⟩ : ∃ n, c.toNat = 0x10000 + n := ⟨c.toNat - 0x10000, by omega⟩
    have hbound : n < 0x100000 := by omega
    have hfirst : (UInt16.ofNat (0xD800 + n / 0x400)).toNat = 0xD800 + n / 0x400 :=
      UInt16.toNat_ofNat_of_lt' (by change _ < 65536; omega)
    have hsecond : (UInt16.ofNat (0xDC00 + n % 0x400)).toNat = 0xDC00 + n % 0x400 :=
      UInt16.toNat_ofNat_of_lt' (by change _ < 65536; omega)
    have hhigh : isHigh (UInt16.ofNat (0xD800 + n / 0x400)) = true := by
      simp only [isHigh, UInt16.le_iff_toNat_le, UInt16.lt_iff_toNat_lt, hfirst]
      rw [Bool.and_eq_true, decide_eq_true_iff, decide_eq_true_iff]
      change 0xD800 ≤ 0xD800 + n / 0x400 ∧ 0xD800 + n / 0x400 < 0xDC00
      omega
    have hlow : isLow (UInt16.ofNat (0xDC00 + n % 0x400)) = true := by
      simp only [isLow, UInt16.le_iff_toNat_le, UInt16.lt_iff_toNat_lt, hsecond]
      rw [Bool.and_eq_true, decide_eq_true_iff, decide_eq_true_iff]
      change 0xDC00 ≤ 0xDC00 + n % 0x400 ∧ 0xDC00 + n % 0x400 < 0xE000
      omega
    have hpair : pair (UInt16.ofNat (0xD800 + n / 0x400)) (UInt16.ofNat (0xDC00 + n % 0x400)) =
        c := by
      have hsum : 0x10000 + (0xD800 + n / 0x400 - 0xD800) * 0x400 +
          (0xDC00 + n % 0x400 - 0xDC00) = c.toNat := by omega
      rw [pair, hfirst, hsecond, hsum, Char.ofNat_toNat]
    rw [hn, Nat.add_sub_cancel_left, List.cons_append, List.singleton_append,
      decodeAfter.eq_def]
    simp only [hhigh, hlow, hpair, if_true]

theorem decodeAfter_encode (done text : List Char) :
    decodeAfter done (encode text) = some (done.reverse ++ text) := by
  induction text generalizing done with
  | nil => simp [encode, decodeAfter]
  | cons c text ih =>
      have h := ih (c :: done)
      rw [encode] at h ⊢
      rw [List.flatMap_cons, decodeAfter_ofChar, h]
      simp

@[simp] theorem decode_encode (text : List Char) : decode (encode text) = some text :=
  decodeAfter_encode [] text

end Utf16

namespace ModifiedUtf8

/-- A unit is read back from its group, whatever follows it. -/
theorem unitsAfter_encodeUnit (done : List UInt16) (unit : UInt16) (rest : List UInt8) :
    unitsAfter done (encodeUnit unit ++ rest) = unitsAfter (unit :: done) rest :=
  unitsAfter_group (holds_encodeUnit unit) done rest

theorem unitsAfter_flatMap (done units : List UInt16) :
    unitsAfter done (units.flatMap encodeUnit) = some (done.reverse ++ units) := by
  induction units generalizing done with
  | nil => simp [unitsAfter]
  | cons unit units ih =>
      rw [List.flatMap_cons, unitsAfter_encodeUnit]
      simpa using ih (unit :: done)

/-- Every text is read back from its bytes. -/
@[simp] theorem decode_encode (text : String) : decode (encode text) = .ok text := by
  have hunits : units? (encode text) = some (Utf16.encode text.toList) :=
    unitsAfter_flatMap [] (Utf16.encode text.toList)
  rw [decode, hunits, Option.bind_some, Utf16.decode_encode]
  simp

end ModifiedUtf8

end JavaClass.Text
