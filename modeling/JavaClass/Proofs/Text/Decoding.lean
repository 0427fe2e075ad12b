import JavaClass.Proofs.Text.RoundTrip

/-!
# The bytes that are texts

Bytes are a text exactly when they split into groups whose units are paired. The
text has these units, and its own bytes are never more than those it was read
from: a text of a file fits where it came from, and it takes the same bytes
when every group there is the shortest of its unit.

## Implementation notes

`Paired` speaks about surrogates alone. That paired units are the units of a text
is proved, not part of the notion.
-/

namespace JavaClass.Text

namespace Utf16

/-- Every surrogate is half of a pair, the high half first. -/
inductive Paired : List UInt16 → Prop
  | nil : Paired []
  | single {unit : UInt16} {rest : List UInt16} (high : ¬ isHigh unit) (low : ¬ isLow unit)
      (tail : Paired rest) : Paired (unit :: rest)
  | pair {first second : UInt16} {rest : List UInt16} (high : isHigh first) (low : isLow second)
      (tail : Paired rest) : Paired (first :: second :: rest)

theorem isHigh_iff {unit : UInt16} :
    isHigh unit ↔ 0xD800 ≤ unit.toNat ∧ unit.toNat < 0xDC00 := by
  simp [isHigh, UInt16.le_iff_toNat_le, UInt16.lt_iff_toNat_lt]

theorem isLow_iff {unit : UInt16} :
    isLow unit ↔ 0xDC00 ≤ unit.toNat ∧ unit.toNat < 0xE000 := by
  simp [isLow, UInt16.le_iff_toNat_le, UInt16.lt_iff_toNat_lt]

theorem toNat_ofNat_char {n : Nat} (h : n < 0xD800 ∨ 0xDFFF < n ∧ n < 0x110000) :
    (Char.ofNat n).toNat = n := by
  rw [Char.ofNat, dif_pos h]
  rfl

/-- A unit that is no surrogate is the character it stands for. -/
theorem ofChar_unit {unit : UInt16} (high : ¬ isHigh unit) (low : ¬ isLow unit) :
    ofChar (Char.ofNat unit.toNat) = [unit] := by
  rw [isHigh_iff] at high
  rw [isLow_iff] at low
  have hunit : unit.toNat < 0x10000 := unit.toNat_lt
  have hvalue : (Char.ofNat unit.toNat).toNat = unit.toNat := toNat_ofNat_char (by omega)
  rw [ofChar, hvalue, if_pos hunit, UInt16.ofNat_toNat]

/-- Two halves are the units of the character they make. -/
theorem ofChar_pair {first second : UInt16} (high : isHigh first) (low : isLow second) :
    ofChar (pair first second) = [first, second] := by
  rw [isHigh_iff] at high
  rw [isLow_iff] at low
  have hvalue : (pair first second).toNat =
      0x10000 + (first.toNat - 0xD800) * 0x400 + (second.toNat - 0xDC00) :=
    toNat_ofNat_char (by omega)
  have hfirst : UInt16.ofNat (0xD800 + ((pair first second).toNat - 0x10000) / 0x400) = first := by
    have : 0xD800 + ((pair first second).toNat - 0x10000) / 0x400 = first.toNat := by omega
    rw [this, UInt16.ofNat_toNat]
  have hsecond : UInt16.ofNat (0xDC00 + ((pair first second).toNat - 0x10000) % 0x400) =
      second := by
    have : 0xDC00 + ((pair first second).toNat - 0x10000) % 0x400 = second.toNat := by omega
    rw [this, UInt16.ofNat_toNat]
  rw [ofChar, if_neg (by omega)]
  exact congrArg₂ (fun x y => [x, y]) hfirst hsecond

/-- Only units of a text are read, and they are paired. -/
theorem of_decodeAfter {done text : List Char} {units : List UInt16}
    (h : decodeAfter done units = some text) :
    Paired units ∧ ∃ rest, text = done.reverse ++ rest ∧ units = encode rest := by
  revert h
  fun_induction decodeAfter done units with
  | case1 done =>
      intro h
      exact ⟨.nil, [], by simpa using h.symm, rfl⟩
  | case2 done first high second rest low ih =>
      intro h
      obtain ⟨paired, text', rfl, rfl⟩ := ih h
      refine ⟨.pair high low paired, pair first second :: text', by simp, ?_⟩
      rw [encode, encode, List.flatMap_cons, ofChar_pair high low]
      rfl
  | case6 done unit rest high low ih =>
      intro h
      obtain ⟨paired, text', rfl, rfl⟩ := ih h
      refine ⟨.single high low paired, Char.ofNat unit.toNat :: text', by simp, ?_⟩
      rw [encode, encode, List.flatMap_cons, ofChar_unit high low]
      rfl
  | _ =>
      intro h
      cases h

/-- Units are read as a text exactly when they are its units. -/
theorem decode_eq_some_iff {units : List UInt16} {text : List Char} :
    decode units = some text ↔ units = encode text := by
  constructor
  · intro h
    obtain ⟨-, rest, rfl, rfl⟩ := of_decodeAfter h
    rfl
  · rintro rfl
    exact decode_encode text

/-- Paired units are the units of a text. -/
theorem Paired.exists_eq_encode {units : List UInt16} (h : Paired units) :
    ∃ text, units = encode text := by
  induction h with
  | nil => exact ⟨[], rfl⟩
  | @single unit rest high low tail ih =>
      obtain ⟨text, rfl⟩ := ih
      exact ⟨Char.ofNat unit.toNat :: text, by simp [encode, ofChar_unit high low]⟩
  | @pair first second rest high low tail ih =>
      obtain ⟨text, rfl⟩ := ih
      exact ⟨Utf16.pair first second :: text, by simp [encode, ofChar_pair high low]⟩

theorem paired_encode (text : List Char) : Paired (encode text) :=
  (of_decodeAfter (decode_encode text)).1

end Utf16

namespace ModifiedUtf8

/-- A text is read exactly from groups of its units. -/
theorem decode_eq_ok_iff {bytes : List UInt8} {text : String} :
    decode bytes = .ok text ↔ ∃ groups, Splits bytes groups (Utf16.encode text.toList) := by
  rw [← units?_eq_some_iff, decode]
  constructor
  · intro h
    split at h
    · rename_i chars hchars
      obtain ⟨units, hunits, hdecode⟩ := Option.bind_eq_some_iff.mp hchars
      obtain rfl := Except.ok.inj h
      rw [hunits, Utf16.decode_eq_some_iff.mp hdecode, String.toList_ofList]
    · cases h
  · intro h
    rw [h]
    simp

/-- Some text is read exactly from groups of paired units. -/
theorem exists_decode_eq_ok_iff {bytes : List UInt8} :
    (∃ text, decode bytes = .ok text) ↔
      ∃ groups units, Splits bytes groups units ∧ Utf16.Paired units := by
  constructor
  · rintro ⟨text, h⟩
    obtain ⟨groups, hsplits⟩ := decode_eq_ok_iff.mp h
    exact ⟨groups, _, hsplits, Utf16.paired_encode _⟩
  · rintro ⟨groups, units, hsplits, paired⟩
    obtain ⟨chars, rfl⟩ := paired.exists_eq_encode
    exact ⟨String.ofList chars, decode_eq_ok_iff.mpr ⟨groups, by simpa using hsplits⟩⟩

/-- However bytes are split, the units are the same. -/
theorem Splits.units_unique {bytes : List UInt8} {groups groups' : List (List UInt8)}
    {units units' : List UInt16} (h : Splits bytes groups units)
    (h' : Splits bytes groups' units') : units = units' :=
  Option.some.inj ((units?_eq_some_iff.mpr ⟨_, h⟩).symm.trans (units?_eq_some_iff.mpr ⟨_, h'⟩))

theorem zero_notMem_of_holds {group : List UInt8} {unit : UInt16} (h : Holds group unit) :
    0 ∉ group := by
  have hzero {byte : UInt8} (hbyte : 0x01 ≤ byte.toNat) : 0 ≠ byte := by
    rintro rfl
    exact absurd hbyte (by decide)
  cases h with
  | one low high value => simpa using hzero low
  | two low high second value =>
      have := second.1
      simpa using ⟨hzero (by omega), hzero (by omega)⟩
  | three low high second third value =>
      have := second.1
      have := third.1
      simpa using ⟨hzero (by omega), hzero (by omega), hzero (by omega)⟩

/-- No byte of a text is zero. -/
theorem zero_notMem_encode (text : String) : 0 ∉ encode text := by
  intro h
  obtain ⟨unit, -, hunit⟩ := List.mem_flatMap.mp h
  exact zero_notMem_of_holds (holds_encodeUnit unit) hunit

/-- Groups are never fewer bytes than those that are written for their units. -/
theorem length_flatMap_le {groups : List (List UInt8)} {units : List UInt16}
    (h : List.Forall₂ Holds groups units) :
    (units.flatMap encodeUnit).length ≤ groups.flatten.length := by
  induction h with
  | nil => simp
  | @cons group unit groups units head tail ih =>
      have hle : (encodeUnit unit).length ≤ group.length :=
        head.eq_or_longer.elim (fun h => Nat.le_of_eq (by rw [h])) Nat.le_of_lt
      rw [List.flatMap_cons, List.flatten_cons, List.length_append, List.length_append]
      omega

/-- Groups are the bytes that are written for their units exactly when each is the shortest. -/
theorem flatMap_eq_flatten_iff {groups : List (List UInt8)} {units : List UInt16}
    (h : List.Forall₂ Holds groups units) :
    units.flatMap encodeUnit = groups.flatten ↔ List.Forall₂ Shortest groups units := by
  induction h with
  | nil => simp
  | @cons group unit groups units head tail ih =>
      rw [List.flatMap_cons, List.flatten_cons, List.forall₂_cons, ← ih, shortest_iff]
      constructor
      · intro hbytes
        have hlength := congrArg List.length hbytes
        rw [List.length_append, List.length_append] at hlength
        have hrest := length_flatMap_le tail
        obtain rfl := head.eq_or_longer.resolve_right (by omega)
        exact ⟨rfl, List.append_cancel_left hbytes⟩
      · rintro ⟨rfl, hrest⟩
        rw [hrest]

/-- Texts are read from groups of paired units and from nothing else, every text is read back from
its bytes, and the bytes of a text are at most as many as any it is read from. -/
theorem decode_reads_groups (bytes : List UInt8) (text : String) :
    (decode bytes = .ok text ↔ ∃ groups, Splits bytes groups (Utf16.encode text.toList)) ∧
      ((∃ decoded, decode bytes = .ok decoded) ↔
        ∃ groups units, Splits bytes groups units ∧ Utf16.Paired units) ∧
      decode (encode text) = .ok text ∧ 0 ∉ encode text ∧
      (decode bytes = .ok text →
        (encode text).length ≤ bytes.length ∧
          ∀ groups units, Splits bytes groups units →
            (encode text = bytes ↔ List.Forall₂ Shortest groups units)) ∧
      ∀ group, Shortest group 0 ↔ group = [0xC0, 0x80] := by
  refine ⟨decode_eq_ok_iff, exists_decode_eq_ok_iff, decode_encode text, zero_notMem_encode text,
    fun h => ?_, fun group => shortest_iff⟩
  obtain ⟨groups, hsplits⟩ := decode_eq_ok_iff.mp h
  refine ⟨?_, fun groups' units hsplits' => ?_⟩
  · rw [← hsplits.flatten]
    exact length_flatMap_le hsplits.holds
  · obtain rfl := hsplits.units_unique hsplits'
    rw [← hsplits'.flatten]
    exact flatMap_eq_flatten_iff hsplits'.holds

/-- A letter in two bytes, a zero and a surrogate pair are read, and the letter is written in one
byte. -/
theorem decode_reads_groups_long_letter :
    decode [0xC1, 0x81, 0xC0, 0x80, 0xED, 0xA0, 0xBD, 0xED, 0xB8, 0x80] = .ok "A\u0000😀" ∧
      (encode "A\u0000😀").length ≤ 10 ∧
      (encode "A\u0000😀" = [0xC1, 0x81, 0xC0, 0x80, 0xED, 0xA0, 0xBD, 0xED, 0xB8, 0x80] ↔
        List.Forall₂ Shortest
          [[0xC1, 0x81], [0xC0, 0x80], [0xED, 0xA0, 0xBD], [0xED, 0xB8, 0x80]]
          [0x41, 0, 0xD83D, 0xDE00]) := by
  have hread : decode [0xC1, 0x81, 0xC0, 0x80, 0xED, 0xA0, 0xBD, 0xED, 0xB8, 0x80] =
      .ok "A\u0000😀" := by decide +kernel
  have hshort := (decode_reads_groups _ _).2.2.2.2.1 hread
  refine ⟨hread, hshort.1, hshort.2 _ _ ⟨rfl, ?_⟩⟩
  refine .cons (.two ?_ ?_ ⟨?_, ?_⟩ ?_) (.cons (.two ?_ ?_ ⟨?_, ?_⟩ ?_)
    (.cons (.three ?_ ?_ ⟨?_, ?_⟩ ⟨?_, ?_⟩ ?_)
      (.cons (.three ?_ ?_ ⟨?_, ?_⟩ ⟨?_, ?_⟩ ?_) .nil)))
  all_goals decide

end ModifiedUtf8

end JavaClass.Text
