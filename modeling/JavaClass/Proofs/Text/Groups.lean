import JavaClass.Text.ModifiedUtf8
import Mathlib.Data.List.Forall2

/-!
# Groups of bytes and their units

A group is one byte 01 to 7F, two bytes C0 to DF and 80 to BF, or three bytes
E0 to EF, 80 to BF and 80 to BF. Bytes have units exactly when they split into
groups, and then each group holds one unit.

## Implementation notes

The values are sums over the positions of the bytes in their ranges, so no mask
occurs in them. The masks of the reader are compared with the ranges once for
each kind of byte. A group is shortest among all groups that hold its unit, so
that notion does not refer to what is written.
-/

namespace JavaClass.Text.ModifiedUtf8

/-- A byte 80 to BF, which continues a group. -/
def Continues (byte : UInt8) : Prop :=
  0x80 ≤ byte.toNat ∧ byte.toNat ≤ 0xBF

/-- The bytes are one group, and the unit is what it holds. -/
inductive Holds : List UInt8 → UInt16 → Prop
  | one {a : UInt8} {unit : UInt16} (low : 0x01 ≤ a.toNat) (high : a.toNat ≤ 0x7F)
      (value : unit.toNat = a.toNat) : Holds [a] unit
  | two {a b : UInt8} {unit : UInt16} (low : 0xC0 ≤ a.toNat) (high : a.toNat ≤ 0xDF)
      (second : Continues b)
      (value : unit.toNat = (a.toNat - 0xC0) * 0x40 + (b.toNat - 0x80)) : Holds [a, b] unit
  | three {a b c : UInt8} {unit : UInt16} (low : 0xE0 ≤ a.toNat) (high : a.toNat ≤ 0xEF)
      (second : Continues b) (third : Continues c)
      (value : unit.toNat =
        (a.toNat - 0xE0) * 0x1000 + (b.toNat - 0x80) * 0x40 + (c.toNat - 0x80)) :
      Holds [a, b, c] unit

/-- The bytes are these groups, one after the other, and the units are what they hold. -/
structure Splits (bytes : List UInt8) (groups : List (List UInt8)) (units : List UInt16) :
    Prop where
  flatten : groups.flatten = bytes
  holds : List.Forall₂ Holds groups units

theorem Splits.nil : Splits [] [] [] :=
  ⟨rfl, .nil⟩

theorem Splits.cons {group bytes : List UInt8} {groups : List (List UInt8)} {unit : UInt16}
    {units : List UInt16} (head : Holds group unit) (tail : Splits bytes groups units) :
    Splits (group ++ bytes) (group :: groups) (unit :: units) :=
  ⟨by rw [List.flatten_cons, tail.flatten], .cons head tail.holds⟩

/-- A fact about every byte is checked once for each of the 256 values. -/
theorem forall_byte {P : UInt8 → Prop} (h : ∀ m : Fin 256, P (UInt8.ofNat m.val)) (byte : UInt8) :
    P byte := by
  simpa using h ⟨byte.toNat, byte.toNat_lt⟩

theorem mask_one (byte : UInt8) : byte &&& 0x80 = 0 ↔ byte.toNat ≤ 0x7F := by
  revert byte
  exact forall_byte (by decide +kernel)

theorem mask_two (byte : UInt8) :
    byte &&& 0xE0 = 0xC0 ↔ 0xC0 ≤ byte.toNat ∧ byte.toNat ≤ 0xDF := by
  revert byte
  exact forall_byte (by decide +kernel)

theorem mask_three (byte : UInt8) :
    byte &&& 0xF0 = 0xE0 ↔ 0xE0 ≤ byte.toNat ∧ byte.toNat ≤ 0xEF := by
  revert byte
  exact forall_byte (by decide +kernel)

theorem toNat_and_two (byte : UInt8) (h : 0xC0 ≤ byte.toNat ∧ byte.toNat ≤ 0xDF) :
    (byte &&& 0x1F).toNat = byte.toNat - 0xC0 := by
  revert byte
  exact forall_byte (by decide +kernel)

theorem toNat_and_three (byte : UInt8) (h : 0xE0 ≤ byte.toNat ∧ byte.toNat ≤ 0xEF) :
    (byte &&& 0x0F).toNat = byte.toNat - 0xE0 := by
  revert byte
  exact forall_byte (by decide +kernel)

theorem mask_continuation (byte : UInt8) : byte &&& 0xC0 = 0x80 ↔ Continues byte := by
  revert byte
  exact forall_byte (by unfold Continues; decide +kernel)

theorem toNat_and_continuation (byte : UInt8) (h : Continues byte) :
    (byte &&& 0x3F).toNat = byte.toNat - 0x80 := by
  revert byte
  exact forall_byte (by unfold Continues; decide +kernel)

theorem tail?_eq_some_iff {byte : UInt8} {n : Nat} :
    tail? byte = some n ↔ Continues byte ∧ byte.toNat - 0x80 = n := by
  unfold tail?
  by_cases h : Continues byte
  · rw [if_pos ((mask_continuation byte).mpr h), toNat_and_continuation byte h]
    simp [h]
  · rw [if_neg (mt (mask_continuation byte).mp h)]
    simp [h]

theorem ofNat_of_toNat_eq {unit : UInt16} {n : Nat} (h : unit.toNat = n) :
    UInt16.ofNat n = unit := by
  rw [← h, UInt16.ofNat_toNat]

/-- A group is read as its unit, whatever follows it. -/
theorem unitsAfter_group {group : List UInt8} {unit : UInt16} (h : Holds group unit)
    (done : List UInt16) (rest : List UInt8) :
    unitsAfter done (group ++ rest) = unitsAfter (unit :: done) rest := by
  cases h with
  | @one a _ low high value =>
      have hzero : a ≠ 0 := by
        rintro rfl
        exact absurd low (by decide)
      have hvalue : a.toUInt16 = unit := UInt16.toNat_inj.mp (by simpa using value.symm)
      rw [List.singleton_append, unitsAfter.eq_def]
      simp only [(mask_one a).mpr high, if_true, hzero, if_false, hvalue]
  | @two a b _ low high second value =>
      have hone : ¬ a &&& 0x80 = 0 := by rw [mask_one]; omega
      have htail := tail?_eq_some_iff.mpr ⟨second, rfl⟩
      rw [List.cons_append, List.singleton_append, unitsAfter.eq_def]
      simp only [hone, if_false, (mask_two a).mpr ⟨low, high⟩, if_true, htail,
        toNat_and_two a ⟨low, high⟩, ofNat_of_toNat_eq value]
  | @three a b c _ low high second third value =>
      have hone : ¬ a &&& 0x80 = 0 := by rw [mask_one]; omega
      have htwo : ¬ a &&& 0xE0 = 0xC0 := by rw [mask_two]; omega
      have hmiddle := tail?_eq_some_iff.mpr ⟨second, rfl⟩
      have hlow := tail?_eq_some_iff.mpr ⟨third, rfl⟩
      rw [List.cons_append, List.cons_append, List.singleton_append, unitsAfter.eq_def]
      simp only [hone, htwo, if_false, (mask_three a).mpr ⟨low, high⟩, if_true, hmiddle, hlow,
        toNat_and_three a ⟨low, high⟩, ofNat_of_toNat_eq value]

/-- Groups are read as their units. -/
theorem Splits.unitsAfter {bytes : List UInt8} {groups : List (List UInt8)} {units : List UInt16}
    (h : Splits bytes groups units) (done : List UInt16) :
    unitsAfter done bytes = some (done.reverse ++ units) := by
  obtain ⟨rfl, holds⟩ := h
  induction holds generalizing done with
  | nil => simp [ModifiedUtf8.unitsAfter]
  | cons head tail ih =>
      rw [List.flatten_cons, unitsAfter_group head, ih]
      simp

/-- One more group in front of bytes that split. -/
theorem exists_splits_append {done units : List UInt16} {group bytes : List UInt8} {unit : UInt16}
    (head : Holds group unit)
    (tail : ∃ groups rest, units = (unit :: done).reverse ++ rest ∧ Splits bytes groups rest) :
    ∃ groups rest, units = done.reverse ++ rest ∧ Splits (group ++ bytes) groups rest := by
  obtain ⟨groups, rest, rfl, h⟩ := tail
  exact ⟨group :: groups, unit :: rest, by simp, h.cons head⟩

/-- Only groups are read. -/
theorem exists_splits_of_unitsAfter {done units : List UInt16} {bytes : List UInt8}
    (h : ModifiedUtf8.unitsAfter done bytes = some units) :
    ∃ groups rest, units = done.reverse ++ rest ∧ Splits bytes groups rest := by
  revert h
  -- The six remaining cases are those in which the reader stops.
  fun_induction unitsAfter done bytes with
  | case1 done =>
      intro h
      exact ⟨[], [], by simpa using h.symm, .nil⟩
  | case3 done byte rest hone hzero ih =>
      intro h
      have hlow : 0x01 ≤ byte.toNat := by
        by_contra hlt
        exact hzero (UInt8.toNat_inj.mp (by change byte.toNat = 0; omega))
      exact exists_splits_append (.one hlow ((mask_one byte).mp hone) (by simp)) (ih h)
  | case4 done byte hone hkind second rest low htail ih =>
      intro h
      obtain ⟨hsecond, rfl⟩ := tail?_eq_some_iff.mp htail
      obtain ⟨hlow, hhigh⟩ := (mask_two byte).mp hkind
      rw [toNat_and_two byte ⟨hlow, hhigh⟩] at h ih
      have hvalue := UInt16.toNat_ofNat_of_lt'
        (n := (byte.toNat - 0xC0) * 0x40 + (second.toNat - 0x80)) (by
          change _ < 65536
          have := hsecond.2
          omega)
      exact exists_splits_append (.two hlow hhigh hsecond hvalue) (ih h)
  | case7 done byte hone htwo hkind second third rest middle low hfinal hmiddle ih =>
      intro h
      obtain ⟨hsecond, rfl⟩ := tail?_eq_some_iff.mp hmiddle
      obtain ⟨hthird, rfl⟩ := tail?_eq_some_iff.mp hfinal
      obtain ⟨hlow, hhigh⟩ := (mask_three byte).mp hkind
      rw [toNat_and_three byte ⟨hlow, hhigh⟩] at h ih
      have hvalue := UInt16.toNat_ofNat_of_lt'
        (n := (byte.toNat - 0xE0) * 0x1000 + (second.toNat - 0x80) * 0x40 +
          (third.toNat - 0x80)) (by
          change _ < 65536
          have := hsecond.2
          have := hthird.2
          omega)
      exact exists_splits_append (.three hlow hhigh hsecond hthird hvalue) (ih h)
  | _ => exact nofun

/-- Bytes have units exactly when they split into groups with these units. -/
theorem units?_eq_some_iff {bytes : List UInt8} {units : List UInt16} :
    units? bytes = some units ↔ ∃ groups, Splits bytes groups units := by
  constructor
  · intro h
    obtain ⟨groups, rest, rfl, hsplits⟩ := exists_splits_of_unitsAfter h
    exact ⟨groups, by simpa using hsplits⟩
  · rintro ⟨groups, h⟩
    exact h.unitsAfter []

/-- The group holds the unit, and no shorter one does. -/
def Shortest (group : List UInt8) (unit : UInt16) : Prop :=
  Holds group unit ∧ ∀ other, Holds other unit → group.length ≤ other.length

theorem toNat_ofNat_lead {n base : Nat} (h : base + n < 0x100) :
    (UInt8.ofNat (base + n)).toNat = base + n :=
  UInt8.toNat_ofNat_of_lt' h

theorem toNat_continuation (n : Nat) : (continuation n).toNat = 0x80 + n % 0x40 :=
  UInt8.toNat_ofNat_of_lt' (by change _ < 256; omega)

theorem continuation_eq {byte : UInt8} {n : Nat} (h : Continues byte)
    (hn : n % 0x40 = byte.toNat - 0x80) : continuation n = byte := by
  obtain ⟨hlow, hhigh⟩ := h
  refine UInt8.toNat_inj.mp ?_
  rw [toNat_continuation]
  omega

theorem ofNat_lead_eq {byte : UInt8} {n base : Nat} (h : base + n = byte.toNat) :
    UInt8.ofNat (base + n) = byte := by
  rw [h, UInt8.ofNat_toNat]

theorem continues_continuation (n : Nat) : Continues (continuation n) := by
  unfold Continues
  rw [toNat_continuation]
  omega

/-- What is written for a unit is a group that holds it. -/
theorem holds_encodeUnit (unit : UInt16) : Holds (encodeUnit unit) unit := by
  have hunit : unit.toNat < 65536 := unit.toNat_lt
  rw [encodeUnit]
  split
  · have hvalue : (UInt8.ofNat unit.toNat).toNat = unit.toNat :=
      UInt8.toNat_ofNat_of_lt' (by change _ < 256; omega)
    exact .one (by omega) (by omega) hvalue.symm
  · split
    · have hlead : (UInt8.ofNat (0xC0 + unit.toNat / 0x40)).toNat = 0xC0 + unit.toNat / 0x40 :=
        toNat_ofNat_lead (by omega)
      refine .two (by omega) (by omega) (continues_continuation _) ?_
      rw [hlead, toNat_continuation]
      omega
    · have hlead : (UInt8.ofNat (0xE0 + unit.toNat / 0x1000)).toNat = 0xE0 + unit.toNat / 0x1000 :=
        toNat_ofNat_lead (by omega)
      refine .three (by omega) (by omega) (continues_continuation _) (continues_continuation _) ?_
      rw [hlead, toNat_continuation, toNat_continuation]
      omega

/-- Every other group of the unit is longer. -/
theorem Holds.eq_or_longer {group : List UInt8} {unit : UInt16} (h : Holds group unit) :
    group = encodeUnit unit ∨ (encodeUnit unit).length < group.length := by
  cases h with
  | @one a _ low high value =>
      left
      rw [encodeUnit, if_pos (by omega), value, UInt8.ofNat_toNat]
  | @two a b _ low high second value =>
      obtain ⟨hlow, hhigh⟩ := second
      rw [encodeUnit]
      split
      · exact .inr (by simp)
      · have hlead : UInt8.ofNat (0xC0 + unit.toNat / 0x40) = a := ofNat_lead_eq (by omega)
        left
        rw [if_pos (by omega), hlead, continuation_eq ⟨hlow, hhigh⟩ (by omega)]
  | @three a b c _ low high second third value =>
      obtain ⟨hlow, hhigh⟩ := second
      obtain ⟨hlow', hhigh'⟩ := third
      rw [encodeUnit]
      split
      · exact .inr (by simp)
      · split
        · exact .inr (by simp)
        · have hlead : UInt8.ofNat (0xE0 + unit.toNat / 0x1000) = a := ofNat_lead_eq (by omega)
          left
          rw [hlead, continuation_eq ⟨hlow, hhigh⟩ (by omega),
            continuation_eq ⟨hlow', hhigh'⟩ (by omega)]

/-- The shortest group of a unit is what is written for it. -/
theorem shortest_iff {group : List UInt8} {unit : UInt16} :
    Shortest group unit ↔ group = encodeUnit unit := by
  constructor
  · rintro ⟨holds, least⟩
    have := least _ (holds_encodeUnit unit)
    exact holds.eq_or_longer.resolve_right (by omega)
  · rintro rfl
    refine ⟨holds_encodeUnit unit, fun other h => ?_⟩
    obtain rfl | hlonger := h.eq_or_longer
    · exact Nat.le_refl _
    · exact Nat.le_of_lt hlonger

end JavaClass.Text.ModifiedUtf8
