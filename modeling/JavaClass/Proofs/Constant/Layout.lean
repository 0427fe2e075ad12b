import JavaClass.Proofs.Bytes.Numbers
import JavaClass.Proofs.Constant.ReadBack
import JavaClass.Proofs.Text.Decoding

/-!
# The bytes that are a constant pool

Bytes are a constant pool exactly when they are a count and then complete
entries that take all slots before it. The table has the constants of the entries
one behind the other, and writing it again gives a pool that is read as the same
table. That pool is the one that was read if no text there was longer than
needed.

## Implementation notes

An entry and its constant are related by one alternative for each tag, without
the reader and without the writer. The text of an entry may be spelled in more
than one way, so the relation is a function from bytes to constants only.
-/

namespace JavaClass

open BigEndian

namespace Constant

/-- The bytes are a complete entry, and the constant is what it holds. -/
inductive Stored : List UInt8 → Constant → Prop
  | utf8 {payload : List UInt8} {groups : List (List UInt8)} {text : String}
      (short : payload.length ≤ 65535)
      (splits : Text.ModifiedUtf8.Splits payload groups (Text.Utf16.encode text.toList)) :
      Stored (1 :: (ofNat 2 payload.length ++ payload)) (.utf8 text)
  | integer (value : Int32) : Stored (3 :: i32 value) (.integer value)
  | float (bits : UInt32) : Stored (4 :: u32 bits) (.float bits)
  | long (value : Int64) : Stored (5 :: i64 value) (.long value)
  | double (bits : UInt64) : Stored (6 :: u64 bits) (.double bits)
  | classInfo (name : UInt16) : Stored (7 :: u16 name) (.classInfo name)
  | string (text : UInt16) : Stored (8 :: u16 text) (.string text)
  | fieldRef (owner member : UInt16) :
      Stored (9 :: (u16 owner ++ u16 member)) (.fieldRef owner member)
  | methodRef (owner member : UInt16) :
      Stored (10 :: (u16 owner ++ u16 member)) (.methodRef owner member false)
  | interfaceMethodRef (owner member : UInt16) :
      Stored (11 :: (u16 owner ++ u16 member)) (.methodRef owner member true)
  | nameAndType (name descriptor : UInt16) :
      Stored (12 :: (u16 name ++ u16 descriptor)) (.nameAndType name descriptor)
  | methodHandle {code : UInt8} {kind : HandleKind} (member : UInt16)
      (between : 1 ≤ code ∧ code ≤ 9) (stands : kind.code = code) :
      Stored (15 :: (u8 code ++ u16 member)) (.methodHandle kind member)
  | methodType (descriptor : UInt16) : Stored (16 :: u16 descriptor) (.methodType descriptor)
  | invokeDynamic (bootstrap member : UInt16) :
      Stored (18 :: (u16 bootstrap ++ u16 member)) (.invokeDynamic bootstrap member)
  | moduleInfo (name : UInt16) : Stored (19 :: u16 name) (.moduleInfo name)
  | packageInfo (name : UInt16) : Stored (20 :: u16 name) (.packageInfo name)

/-- The bytes are no text, or a text in the shortest groups of its units. -/
def Canonical (part : List UInt8) : Prop :=
  ∀ payload groups units, part = 1 :: (ofNat 2 payload.length ++ payload) →
    Text.ModifiedUtf8.Splits payload groups units →
      List.Forall₂ Text.ModifiedUtf8.Shortest groups units

end Constant

/-- Nine numbers stand for a kind. -/
theorem HandleKind.ofCode?_eq_some_iff {code : UInt8} {kind : HandleKind} :
    ofCode? code = some kind ↔ (1 ≤ code ∧ code ≤ 9) ∧ kind.code = code := by
  constructor
  · intro h
    have known : ∀ n : Fin 256, ∀ kind, ofCode? (UInt8.ofNat n) = some kind →
        (1 ≤ UInt8.ofNat n ∧ UInt8.ofNat n ≤ 9) ∧ kind.code = UInt8.ofNat n := by
      intro n
      unfold ofCode?
      revert n
      decide +kernel
    simpa using known ⟨code.toNat, code.toNat_lt⟩ kind (by simpa using h)
  · rintro ⟨-, rfl⟩
    exact ofCode?_code kind

variable {bytes : Bytes} {index next : Nat} {constant : Constant} {part : List UInt8}

/-- A text is written again in at most as many bytes, and in the same ones if it is canonical. Every
other constant is written as it was. -/
theorem Constant.Stored.exists_encode (stored : Stored part constant) :
    ∃ again, constant.encode = .ok again ∧ again.length ≤ part.length ∧
      (again = part ↔ Canonical part) := by
  have same {tag : UInt8} {contents : List UInt8} (htag : tag ≠ 1)
      (h : constant.encode = .ok (tag :: contents)) :
      ∃ again, constant.encode = .ok again ∧ again.length ≤ (tag :: contents).length ∧
        (again = tag :: contents ↔ Canonical (tag :: contents)) :=
    ⟨_, h, Nat.le_refl _, iff_of_true rfl fun _ _ _ heq _ => absurd (List.cons.inj heq).1 htag⟩
  cases stored with
  | @utf8 payload groups text short splits =>
      have shorter : (Text.ModifiedUtf8.encode text).length ≤ payload.length := by
        rw [← splits.flatten]
        exact Text.ModifiedUtf8.length_flatMap_le splits.holds
      have fits : ¬ countLimit < (Text.ModifiedUtf8.encode text).length := by
        unfold countLimit
        omega
      refine ⟨1 :: (ofNat 2 (Text.ModifiedUtf8.encode text).length ++
        Text.ModifiedUtf8.encode text), ?_, ?_, ?_, ?_⟩
      · simp only [encode, contents, if_neg fits]
        rfl
      · simpa using shorter
      · intro heq payload' groups' units' hpart splits'
        obtain ⟨-, rfl⟩ := List.append_inj (List.cons.inj hpart).2 (by simp)
        obtain ⟨-, htext⟩ := List.append_inj (List.cons.inj heq).2 (by simp)
        obtain rfl := splits'.units_unique splits
        rw [← Text.ModifiedUtf8.flatMap_eq_flatten_iff splits'.holds, splits'.flatten]
        exact htext
      · intro canonical
        have shortest := canonical payload groups _ rfl splits
        have htext : Text.ModifiedUtf8.encode text = payload := by
          rw [← splits.flatten]
          exact (Text.ModifiedUtf8.flatMap_eq_flatten_iff splits.holds).mpr shortest
        rw [htext]
  | methodHandle member between stands =>
      subst stands
      exact same (by decide) rfl
  | _ => exact same (by decide) rfl

namespace ConstantTable

/-- An entry is read as the constant that it holds. -/
theorem readEntry_of_stored (stored : Constant.Stored part constant)
    (holds : bytes.Holds index part) :
    readEntry bytes index = .ok (constant, index + part.length) := by
  cases stored with
  | @utf8 payload groups text short splits =>
      rw [← List.singleton_append] at holds
      have hrest := holds.right
      rw [List.length_singleton] at hrest
      have hcount := hrest.left.u16_ofNat (Nat.lt_succ_of_le short)
      have hslice := hrest.right.slice
      rw [length_ofNat] at hslice
      have htoNat : (UInt16.ofNat payload.length).toNat = payload.length :=
        UInt16.toNat_ofNat_of_lt' (Nat.lt_succ_of_le short)
      have htext := Text.ModifiedUtf8.decode_eq_ok_iff.mpr ⟨groups, splits⟩
      rw [readEntry, holds.left.u8]
      simp only [bind, Except.bind, if_true, hcount, htoNat, hslice, htext]
      simp only [List.length_cons, List.length_append, length_ofNat]
      congr 2
      omega
  | methodHandle member between stands =>
      subst stands
      exact readEntry_eq rfl holds
  | _ => exact readEntry_eq rfl holds

/-- What one entry looks like that was read. -/
def EntryAt (bytes : Bytes) (index : Nat) (constant : Constant) (next : Nat) : Prop :=
  ∃ part, Constant.Stored part constant ∧ bytes.Holds index part ∧ index + part.length = next

/-- The contents stand behind the tag. -/
theorem entryAt_of_contents {tag : UInt8} {contents : List UInt8} (htag : bytes.u8 index = .ok tag)
    (holds : bytes.Holds (index + 1) contents) (stored : Constant.Stored (tag :: contents) constant)
    (hnext : index + 1 + contents.length = next) : EntryAt bytes index constant next := by
  refine ⟨tag :: contents, stored, ?_, ?_⟩
  · rw [← List.singleton_append]
    exact Bytes.holds_append_iff.mpr ⟨Bytes.u8_eq_ok_iff.mp htag, holds⟩
  · rw [List.length_cons]
    omega

/-- An entry with one number behind the tag. -/
theorem entryAt_of_number {α : Type} {tag : UInt8} {number : Except Error α} {make : α → Constant}
    {digits : α → List UInt8} {width : Nat} (htag : bytes.u8 index = .ok tag)
    (h : (number >>= fun value => pure (make value, index + 1 + width)) = .ok (constant, next))
    (holds : ∀ value, number = .ok value → bytes.Holds (index + 1) (digits value))
    (length : ∀ value, (digits value).length = width)
    (stored : ∀ value, Constant.Stored (tag :: digits value) (make value)) :
    EntryAt bytes index constant next := by
  obtain ⟨value, found, h⟩ := exceptBind_eq_ok_iff.mp h
  obtain ⟨rfl, rfl⟩ := Prod.mk.inj (Except.ok.inj h)
  exact entryAt_of_contents htag (holds value found) (stored value) (by rw [length])

theorem entryAt_of_one {tag : UInt8} {make : UInt16 → Constant} (htag : bytes.u8 index = .ok tag)
    (h : one bytes (index + 1) make = .ok (constant, next))
    (stored : ∀ slot, Constant.Stored (tag :: u16 slot) (make slot)) :
    EntryAt bytes index constant next :=
  entryAt_of_number htag h (fun _ => Bytes.u16_eq_ok_iff.mp) (fun _ => length_ofNat _ _) stored

theorem entryAt_of_two {tag : UInt8} {make : UInt16 → UInt16 → Constant}
    (htag : bytes.u8 index = .ok tag)
    (h : two bytes (index + 1) make = .ok (constant, next))
    (stored : ∀ first second,
      Constant.Stored (tag :: (u16 first ++ u16 second)) (make first second)) :
    EntryAt bytes index constant next := by
  obtain ⟨first, hfirst, h⟩ := exceptBind_eq_ok_iff.mp h
  obtain ⟨second, hsecond, h⟩ := exceptBind_eq_ok_iff.mp h
  obtain ⟨rfl, rfl⟩ := Prod.mk.inj (Except.ok.inj h)
  have holds : bytes.Holds (index + 1) (u16 first ++ u16 second) :=
    Bytes.holds_append_iff.mpr ⟨Bytes.u16_eq_ok_iff.mp hfirst, Bytes.u16_eq_ok_iff.mp hsecond⟩
  exact entryAt_of_contents htag holds (stored first second) rfl

/-- Only complete entries are read. -/
theorem entryAt_of_readEntry (h : readEntry bytes index = .ok (constant, next)) :
    EntryAt bytes index constant next := by
  unfold readEntry at h
  obtain ⟨tag, htag, h⟩ := exceptBind_eq_ok_iff.mp h
  obtain ⟨rfl, h⟩ | ⟨-, h⟩ := ite_eq_iff.mp h
  · obtain ⟨length, hlength, h⟩ := exceptBind_eq_ok_iff.mp h
    obtain ⟨payload, hpayload, h⟩ := exceptBind_eq_ok_iff.mp h
    obtain ⟨text, htext, h⟩ := exceptBind_eq_ok_iff.mp h
    obtain ⟨rfl, rfl⟩ := Prod.mk.inj (Except.ok.inj h)
    obtain ⟨groups, splits⟩ := Text.ModifiedUtf8.decode_eq_ok_iff.mp htext
    obtain ⟨holds, hsize⟩ := Bytes.slice_eq_ok_iff.mp hpayload
    have hcount : bytes.Holds (index + 1) (ofNat 2 payload.length) := by
      rw [hsize]
      exact Bytes.u16_eq_ok_iff.mp hlength
    have short : payload.length ≤ 65535 := by
      have := length.toNat_lt
      omega
    refine entryAt_of_contents htag (Bytes.holds_append_iff.mpr ⟨hcount, ?_⟩)
      (.utf8 short splits) ?_
    · rwa [length_ofNat]
    · rw [List.length_append, length_ofNat]
      omega
  obtain ⟨rfl, h⟩ | ⟨-, h⟩ := ite_eq_iff.mp h
  · exact entryAt_of_number htag h (fun _ => Bytes.i32_eq_ok_iff.mp)
      (fun _ => length_ofNat _ _) .integer
  obtain ⟨rfl, h⟩ | ⟨-, h⟩ := ite_eq_iff.mp h
  · exact entryAt_of_number htag h (fun _ => Bytes.u32_eq_ok_iff.mp)
      (fun _ => length_ofNat _ _) .float
  obtain ⟨rfl, h⟩ | ⟨-, h⟩ := ite_eq_iff.mp h
  · exact entryAt_of_number htag h (fun _ => Bytes.i64_eq_ok_iff.mp)
      (fun _ => length_ofNat _ _) .long
  obtain ⟨rfl, h⟩ | ⟨-, h⟩ := ite_eq_iff.mp h
  · exact entryAt_of_number htag h (fun _ => Bytes.u64_eq_ok_iff.mp)
      (fun _ => length_ofNat _ _) .double
  obtain ⟨rfl, h⟩ | ⟨-, h⟩ := ite_eq_iff.mp h
  · exact entryAt_of_one htag h .classInfo
  obtain ⟨rfl, h⟩ | ⟨-, h⟩ := ite_eq_iff.mp h
  · exact entryAt_of_one htag h .string
  obtain ⟨rfl, h⟩ | ⟨-, h⟩ := ite_eq_iff.mp h
  · exact entryAt_of_two htag h .fieldRef
  obtain ⟨rfl, h⟩ | ⟨-, h⟩ := ite_eq_iff.mp h
  · exact entryAt_of_two htag h .methodRef
  obtain ⟨rfl, h⟩ | ⟨-, h⟩ := ite_eq_iff.mp h
  · exact entryAt_of_two htag h .interfaceMethodRef
  obtain ⟨rfl, h⟩ | ⟨-, h⟩ := ite_eq_iff.mp h
  · exact entryAt_of_two htag h .nameAndType
  obtain ⟨rfl, h⟩ | ⟨-, h⟩ := ite_eq_iff.mp h
  · obtain ⟨code, hcode, h⟩ := exceptBind_eq_ok_iff.mp h
    split at h
    · cases h
    · rename_i kind hkind
      obtain ⟨member, hmember, h⟩ := exceptBind_eq_ok_iff.mp h
      obtain ⟨rfl, rfl⟩ := Prod.mk.inj (Except.ok.inj h)
      obtain ⟨between, stands⟩ := HandleKind.ofCode?_eq_some_iff.mp hkind
      have holds : bytes.Holds (index + 1) (u8 code ++ u16 member) :=
        Bytes.holds_append_iff.mpr ⟨Bytes.u8_eq_ok_iff.mp hcode, Bytes.u16_eq_ok_iff.mp hmember⟩
      exact entryAt_of_contents htag holds (.methodHandle member between stands) rfl
  obtain ⟨rfl, h⟩ | ⟨-, h⟩ := ite_eq_iff.mp h
  · exact entryAt_of_one htag h .methodType
  obtain ⟨rfl, h⟩ | ⟨-, h⟩ := ite_eq_iff.mp h
  · exact entryAt_of_two htag h .invokeDynamic
  obtain ⟨rfl, h⟩ | ⟨-, h⟩ := ite_eq_iff.mp h
  · exact entryAt_of_one htag h .moduleInfo
  obtain ⟨rfl, h⟩ | ⟨-, h⟩ := ite_eq_iff.mp h
  · exact entryAt_of_one htag h .packageInfo
  · cases h

/-- The bytes are a count and complete entries that take all slots before it. -/
structure Stored (content : List UInt8) (parts : List (List UInt8)) (constants : List Constant) :
    Prop where
  entries : List.Forall₂ Constant.Stored parts constants
  counted : ∃ count : UInt16, content = u16 count ++ parts.flatten ∧
    (constants.map Constant.width).sum + 1 = count.toNat

/-- The table has these constants in order, each at the slot behind those before it, and none at any
other slot. -/
structure Lists (table : ConstantTable) (constants : List Constant) : Prop where
  toList : table.entries.toList = constants
  get : ∀ slot constant, table.get slot = .ok constant ↔
    ∃ before after, constants = before ++ constant :: after ∧
      slot.toNat = 1 + (before.map Constant.width).sum
  other : ∀ slot, (∀ constant, table.get slot ≠ .ok constant) →
    table.get slot = malformed (.noConstant slot)

variable {table : ConstantTable} {content : List UInt8} {parts : List (List UInt8)}
  {constants : List Constant} {count stop : Nat} {v found : SlotVector Constant}

theorem next_append (constants : List Constant) :
    ((SlotVector.startingAt 1).append constants).next = 1 + (constants.map Constant.width).sum :=
  SlotVector.next_append _ _

/-- Only complete entries are read, until the slots are taken. -/
theorem exists_of_readEntries (bound : index ≤ bytes.size)
    (h : readEntries bytes count index v = .ok (found, stop)) :
    ∃ parts constants, List.Forall₂ Constant.Stored parts constants ∧
      bytes.Holds index parts.flatten ∧ index + parts.flatten.length = stop ∧
        found = v.append constants := by
  fun_induction readEntries bytes count index v with
  | case1 => cases h
  | case2 index v less constant next hentry ih =>
      obtain ⟨part, stored, holds, rfl⟩ := entryAt_of_readEntry hentry
      obtain ⟨parts, constants, entries, hparts, rfl, rfl⟩ := ih holds.bound h
      refine ⟨part :: parts, constant :: constants, .cons stored entries, ?_, ?_, rfl⟩
      · exact Bytes.holds_append_iff.mpr ⟨holds, hparts⟩
      · rw [List.flatten_cons, List.length_append, Nat.add_assoc]
  | case3 index v _ =>
      obtain ⟨rfl, rfl⟩ := Prod.mk.inj (Except.ok.inj h)
      exact ⟨[], [], .nil, Bytes.holds_nil bound, rfl, rfl⟩

/-- A pool is read exactly where it stands. -/
theorem read_eq_ok_iff :
    read bytes index = .ok (table, stop) ↔
      ∃ content parts constants, bytes.Holds index content ∧ index + content.length = stop ∧
        Stored content parts constants ∧
          table.entries = (SlotVector.startingAt 1).append constants := by
  constructor
  · intro h
    obtain ⟨count, hcount, h⟩ := exceptBind_eq_ok_iff.mp h
    obtain ⟨⟨entries, after⟩, hentries, h⟩ := exceptBind_eq_ok_iff.mp h
    obtain ⟨hnext, h⟩ | ⟨-, h⟩ := ite_eq_iff.mp h
    · obtain ⟨rfl, rfl⟩ := Prod.mk.inj (Except.ok.inj h)
      have holds := Bytes.u16_eq_ok_iff.mp hcount
      obtain ⟨parts, constants, stored, hparts, rfl, rfl⟩ :=
        exists_of_readEntries (Bytes.bound_of_u16 hcount) hentries
      rw [next_append, Nat.add_comm] at hnext
      refine ⟨u16 count ++ parts.flatten, parts, constants, ?_, ?_,
        ⟨stored, count, rfl, hnext⟩, rfl⟩
      · exact Bytes.holds_append_iff.mpr ⟨holds, hparts⟩
      · rw [List.length_append, u16, length_ofNat, Nat.add_assoc]
    · cases h
  · rintro ⟨content, parts, constants, holds, rfl, ⟨entries, count, rfl, hcount⟩, htable⟩
    obtain ⟨table⟩ := table
    obtain rfl : table = _ := htable
    have hnext : ((SlotVector.startingAt 1).append constants).next = count.toNat := by
      rw [next_append, Nat.add_comm, hcount]
    have each : List.Forall₂ (fun constant part => ∀ index, bytes.Holds index part →
        readEntry bytes index = .ok (constant, index + part.length)) constants parts :=
      entries.flip.imp fun _ _ stored _ => readEntry_of_stored stored
    have hparts : bytes.Holds (index + 2) parts.flatten := holds.right
    have hread := readEntries_append each (.startingAt 1) hparts
    rw [hnext] at hread
    rw [read, holds.left.u16]
    simp only [bind, Except.bind, hread, hnext, if_true]
    rw [List.length_append, u16, length_ofNat, Nat.add_assoc]
    rfl

theorem lists_append (constants : List Constant) :
    Lists ⟨(SlotVector.startingAt 1).append constants⟩ constants where
  toList := by
    rw [SlotVector.toList_append]
    rfl
  get slot constant := by
    have strict := (SlotVector.strict_append 1 Constant.width_pos constants).1
    have found : ConstantTable.get ⟨(SlotVector.startingAt 1).append constants⟩ slot =
        .ok constant ↔
          (slot.toNat, constant) ∈ ((SlotVector.startingAt 1).append constants).entries.toList := by
      rw [get_eq_ok_iff]
      exact ⟨SlotVector.mem_of_get?, SlotVector.get?_of_mem strict⟩
    rw [found, SlotVector.mem_append_iff]
    exact or_iff_right List.not_mem_nil
  other slot := ConstantPool.get_eq_malformed_iff.mpr

/-- Lists of which each is no longer than its counterpart make up the same list only if they are
equal. -/
theorem flatten_eq_flatten_iff {first second : List (List UInt8)}
    (shorter : List.Forall₂ (fun a b => a.length ≤ b.length) first second) :
    first.flatten = second.flatten ↔ first = second := by
  have total {first second : List (List UInt8)}
      (shorter : List.Forall₂ (fun a b => a.length ≤ b.length) first second) :
      first.flatten.length ≤ second.flatten.length := by
    induction shorter with
    | nil => exact Nat.le_refl _
    | cons head tail ih =>
        rw [List.flatten_cons, List.flatten_cons, List.length_append, List.length_append]
        exact Nat.add_le_add head ih
  refine ⟨fun h => ?_, congrArg List.flatten⟩
  induction shorter with
  | nil => rfl
  | @cons a b first second head tail ih =>
      rw [List.flatten_cons, List.flatten_cons] at h
      have hlength : a.length = b.length := by
        have hsum := congrArg List.length h
        rw [List.length_append, List.length_append] at hsum
        have := total tail
        omega
      obtain ⟨rfl, hrest⟩ := List.append_inj h hlength
      rw [ih hrest]

/-- The entries are written again, each in at most as many bytes. -/
theorem Stored.exists_parts (stored : Stored content parts constants) :
    ∃ again, constants.mapM Constant.encode = .ok again ∧
      (again.flatten = parts.flatten ↔ ∀ part ∈ parts, Constant.Canonical part) := by
  obtain ⟨entries, -⟩ := stored
  suffices h : ∃ again, List.Forall₂ (fun constant part => constant.encode = .ok part) constants
      again ∧ List.Forall₂ (fun a b => a.length ≤ b.length) again parts ∧
        (again = parts ↔ ∀ part ∈ parts, Constant.Canonical part) by
    obtain ⟨again, hencode, shorter, canonical⟩ := h
    exact ⟨again, mapM_eq_ok_iff.mpr hencode, (flatten_eq_flatten_iff shorter).trans canonical⟩
  induction entries with
  | nil => exact ⟨[], .nil, .nil, by simp⟩
  | cons head tail ih =>
      obtain ⟨part, hencode, shorter, canonical⟩ := head.exists_encode
      obtain ⟨rest, hrest, shorterRest, canonicalRest⟩ := ih
      refine ⟨part :: rest, .cons hencode hrest, .cons shorter shorterRest, ?_⟩
      rw [List.cons.injEq, canonical, canonicalRest, List.forall_mem_cons]

/-- A pool with the entries of a table that was read is written, and read as that table. -/
theorem Stored.exists_encode (stored : Stored content parts constants)
    (htable : table.entries = (SlotVector.startingAt 1).append constants)
    (slots : Std.TreeMap (List UInt8) UInt16) :
    ∃ again, ConstantPool.encode ⟨table.entries, slots⟩ = .ok again ∧
      (∀ (other : Bytes) (start : Nat), other.Holds start again →
        read other start = .ok (table, start + again.length)) ∧
      (again = content ↔ ∀ part ∈ parts, Constant.Canonical part) := by
  obtain ⟨parts', hparts, canonical⟩ := stored.exists_parts
  obtain ⟨-, count, rfl, hcount⟩ := stored
  have hnext : table.entries.next = count.toNat := by
    rw [htable, next_append, Nat.add_comm, hcount]
  have hslotCount : ConstantPool.slotCount ⟨table.entries, slots⟩ = count := by
    rw [ConstantPool.slotCount, hnext, UInt16.ofNat_toNat]
  have htoList : table.entries.toList = constants := by
    rw [htable, SlotVector.toList_append]
    rfl
  have hencode : ConstantPool.encode ⟨table.entries, slots⟩ =
      .ok (u16 count ++ parts'.flatten) := by
    rw [ConstantPool.encode, htoList, hparts, hslotCount]
    rfl
  have writable : ConstantPool.Writable ⟨table.entries, slots⟩ :=
    ⟨⟨constants, htable⟩, hnext.trans_le (Nat.le_of_lt_succ count.toNat_lt)⟩
  refine ⟨_, hencode, fun other start holds => read_eq writable hencode holds, ?_⟩
  rw [List.append_cancel_left_eq, canonical]

/-- A pool is read from a count and complete entries that take all slots before it, and from nothing
else; the table has the constants of the entries, each at its slot. Written again, the entries are
read as the same table, and they are the bytes that were read exactly if every text there was
canonical. -/
theorem read_reads_entries (bytes : Bytes) (index stop : Nat) (table : ConstantTable) :
    (read bytes index = .ok (table, stop) ↔
      ∃ content parts constants, bytes.Holds index content ∧ index + content.length = stop ∧
        Stored content parts constants ∧
          table.entries = (SlotVector.startingAt 1).append constants) ∧
    ∀ content parts constants, Stored content parts constants →
      table.entries = (SlotVector.startingAt 1).append constants →
        table.Lists constants ∧
          ∀ slots, ∃ again, ConstantPool.encode ⟨table.entries, slots⟩ = .ok again ∧
            (∀ (other : Bytes) (start : Nat), other.Holds start again →
              read other start = .ok (table, start + again.length)) ∧
            (again = content ↔ ∀ part ∈ parts, Constant.Canonical part) := by
  refine ⟨read_eq_ok_iff, fun content parts constants stored htable => ⟨?_, fun slots => ?_⟩⟩
  · obtain ⟨entries⟩ := table
    obtain rfl : entries = _ := htable
    exact lists_append constants
  · exact stored.exists_encode htable slots

/-- A number that takes two slots and a letter in two bytes: the letter is at slot 3, and is written
again in one byte. -/
theorem read_reads_entries_long_letter :
    let number : List UInt8 := [5, 0, 0, 0, 0, 0, 0, 0, 7]
    let letter : List UInt8 := [1, 0, 2, 0xC1, 0x81]
    let content : List UInt8 := [0, 4] ++ [number, letter].flatten
    let table : ConstantTable := ⟨(SlotVector.startingAt 1).append [.long 7, .utf8 "A"]⟩
    Stored content [number, letter] [.long 7, .utf8 "A"] ∧
      read ([0xFF] ++ (content ++ [0])).toArray 1 = .ok (table, 17) ∧
      table.Lists [.long 7, .utf8 "A"] ∧
      ∃ again : List UInt8, ConstantPool.encode ⟨table.entries, ∅⟩ = .ok again ∧
        read again.toArray 0 = .ok (table, 0 + again.length) ∧
        (again = content ↔ ∀ part ∈ [number, letter], Constant.Canonical part) ∧
        again ≠ content := by
  intro number letter content table
  have splits : Text.ModifiedUtf8.Splits [0xC1, 0x81] [[0xC1, 0x81]]
      (Text.Utf16.encode "A".toList) :=
    ⟨rfl, .cons (.two (by decide) (by decide) ⟨by decide, by decide⟩ (by decide)) .nil⟩
  have stored : Stored content [number, letter] [.long 7, .utf8 "A"] :=
    ⟨.cons (.long 7) (.cons (.utf8 (by decide) splits) .nil), 4, rfl, rfl⟩
  have holds : Bytes.Holds ([0xFF] ++ (content ++ [0])).toArray 1 content :=
    ⟨[0xFF], [0], rfl, rfl⟩
  obtain ⟨reads, writes⟩ := read_reads_entries ([0xFF] ++ (content ++ [0])).toArray 1 17 table
  obtain ⟨lists, again⟩ := writes content _ _ stored rfl
  obtain ⟨again, hencode, hread, canonical⟩ := again ∅
  refine ⟨stored, reads.mpr ⟨content, _, _, holds, rfl, stored, rfl⟩, lists, again, hencode,
    hread _ 0 (Bytes.holds_all again), canonical, ?_⟩
  rintro rfl
  have short : ConstantPool.encode ⟨table.entries, ∅⟩ =
      .ok ([0, 4, 5, 0, 0, 0, 0, 0, 0, 0, 7, 1, 0, 1, 0x41] : List UInt8) := by decide +kernel
  exact absurd (Except.ok.inj (hencode.symm.trans short)) (by decide)

end ConstantTable

end JavaClass
