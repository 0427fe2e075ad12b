import Mathlib.Algebra.Ring.Nat
import Mathlib.Data.List.Forall2
import JavaClass.Bytes.Table
import JavaClass.ClassFile.Members

/-!
# Reading back what was written

A file holds some bytes at an index if they stand there. A number, a table or a
run of items that a file holds is read back from it, and reading goes on behind
what was read.

## Implementation notes

What a file holds is split along `++`, so each part of a written file is found
by the lengths of the parts before it. Items are read by any function that
reads back the bytes of each single item.
-/

namespace JavaClass

namespace BigEndian

private theorem foldl_digits (digits : List UInt8) (n : Nat) :
    digits.foldl (fun n digit => n * 256 + digit.toNat) n =
      n * 256 ^ digits.length + toNat digits := by
  induction digits generalizing n with
  | nil => simp [toNat]
  | cons digit rest ih =>
      simp only [toNat, List.foldl_cons, List.length_cons]
      rw [ih (n * 256 + digit.toNat), ih (0 * 256 + digit.toNat)]
      rw [Nat.pow_succ, Nat.add_mul, Nat.zero_mul, Nat.zero_add, Nat.mul_assoc,
        Nat.mul_comm 256, Nat.add_assoc]

theorem toNat_cons (digit : UInt8) (rest : List UInt8) :
    toNat (digit :: rest) = digit.toNat * 256 ^ rest.length + toNat rest := by
  have h := foldl_digits rest (0 * 256 + digit.toNat)
  simpa [toNat] using h

/-- Digits read back as the number, up to the width. -/
@[simp] theorem toNat_ofNat (width n : Nat) : toNat (ofNat width n) = n % 256 ^ width := by
  induction width with
  | zero => simp [ofNat, toNat, Nat.mod_one]
  | succ width ih =>
      have digit : n >>> (8 * width) = n / 256 ^ width := by
        rw [Nat.shiftRight_eq_div_pow, Nat.pow_mul]
      rw [ofNat, toNat_cons, ih, length_ofNat, digit, Nat.pow_succ, Nat.mod_mul]
      simp [Nat.mul_comm, Nat.add_comm]

end BigEndian

namespace Bytes

/-- The file has these bytes at the index. -/
def Holds (bytes : Bytes) (index : Nat) (content : List UInt8) : Prop :=
  ∃ before after, bytes.toList = before ++ (content ++ after) ∧ before.length = index

variable {bytes : Bytes} {index : Nat}

theorem holds_all (content : List UInt8) : Holds content.toArray 0 content :=
  ⟨[], [], by simp, rfl⟩

theorem holds_append_iff {first second : List UInt8} :
    bytes.Holds index (first ++ second) ↔
      bytes.Holds index first ∧ bytes.Holds (index + first.length) second := by
  constructor
  · rintro ⟨before, after, h, hindex⟩
    refine ⟨⟨before, second ++ after, ?_, hindex⟩, ⟨before ++ first, after, ?_, ?_⟩⟩
    · rw [h, List.append_assoc]
    · simp only [h, List.append_assoc]
    · rw [List.length_append, hindex]
  · rintro ⟨⟨before, after, h, hindex⟩, ⟨before', after', h', hindex'⟩⟩
    have hsplit : before ++ (first ++ after) = before' ++ (second ++ after') := h.symm.trans h'
    rw [← List.append_assoc] at hsplit
    obtain ⟨hbefore, hafter⟩ := List.append_inj hsplit (by simp [hindex, hindex'])
    refine ⟨before, after', ?_, hindex⟩
    rw [h, hafter, List.append_assoc]

theorem Holds.left {first second : List UInt8} (h : bytes.Holds index (first ++ second)) :
    bytes.Holds index first := (holds_append_iff.mp h).1

theorem Holds.right {first second : List UInt8} (h : bytes.Holds index (first ++ second)) :
    bytes.Holds (index + first.length) second := (holds_append_iff.mp h).2

theorem Holds.of_index {content : List UInt8} {other : Nat} (h : bytes.Holds index content)
    (heq : index = other) : bytes.Holds other content := heq ▸ h

theorem Holds.bound {content : List UInt8} (h : bytes.Holds index content) :
    index + content.length ≤ bytes.size := by
  obtain ⟨before, after, h, rfl⟩ := h
  have hsize : bytes.size = before.length + (content.length + after.length) := by
    rw [← Array.length_toList, h, List.length_append, List.length_append]
  omega

theorem Holds.check {content : List UInt8} (h : bytes.Holds index content) :
    bytes.check index content.length = .ok () := by
  rw [Bytes.check, if_pos h.bound]

theorem Holds.slice {content : List UInt8} (h : bytes.Holds index content) :
    bytes.slice index content.length = .ok content := by
  rw [Bytes.slice, if_pos h.bound]
  obtain ⟨before, after, h, rfl⟩ := h
  rw [Array.toList_extract, h, List.extract_eq_take_drop, Nat.add_sub_cancel_left,
    List.drop_left, List.take_left]

theorem Holds.number {width n : Nat} (h : bytes.Holds index (BigEndian.ofNat width n)) :
    bytes.number width index = .ok (n % 256 ^ width) := by
  have hslice := h.slice
  rw [BigEndian.length_ofNat] at hslice
  rw [Bytes.number, hslice, ← BigEndian.toNat_ofNat]
  rfl

theorem Holds.u8 {n : UInt8} (h : bytes.Holds index [n]) : bytes.u8 index = .ok n := by
  have hslice := h.slice
  rw [List.length_singleton] at hslice
  rw [Bytes.u8, Bytes.number, hslice]
  simp [Except.map, BigEndian.toNat]

theorem Holds.u16_ofNat {n : Nat} (h : bytes.Holds index (BigEndian.ofNat 2 n))
    (bound : n < 65536) : bytes.u16 index = .ok (UInt16.ofNat n) := by
  have hlt : n < 256 ^ 2 := bound
  rw [Bytes.u16, h.number, Nat.mod_eq_of_lt hlt]
  rfl

theorem Holds.u16 {n : UInt16} (h : bytes.Holds index (BigEndian.u16 n)) :
    bytes.u16 index = .ok n := by
  rw [Holds.u16_ofNat h n.toNat_lt, UInt16.ofNat_toNat]

/-- Of a number that is too large, the low 32 bits are read. -/
theorem Holds.u32_mod {n : Nat} (h : bytes.Holds index (BigEndian.ofNat 4 n)) :
    bytes.u32 index = .ok (UInt32.ofNat (n % 2 ^ 32)) := by
  rw [Bytes.u32, h.number]
  rfl

theorem Holds.u32_ofNat {n : Nat} (h : bytes.Holds index (BigEndian.ofNat 4 n))
    (bound : n < 2 ^ 32) : bytes.u32 index = .ok (UInt32.ofNat n) := by
  rw [h.u32_mod, Nat.mod_eq_of_lt bound]

theorem Holds.u32 {n : UInt32} (h : bytes.Holds index (BigEndian.u32 n)) :
    bytes.u32 index = .ok n := by
  rw [Holds.u32_ofNat h n.toNat_lt, UInt32.ofNat_toNat]

theorem Holds.u64 {n : UInt64} (h : bytes.Holds index (BigEndian.u64 n)) :
    bytes.u64 index = .ok n := by
  have hlt : n.toNat < 256 ^ 8 := n.toNat_lt
  have hnumber := Holds.number h
  rw [Nat.mod_eq_of_lt hlt] at hnumber
  rw [Bytes.u64, hnumber, Except.map, UInt64.ofNat_toNat]

theorem Holds.i8 {n : Int8} (h : bytes.Holds index (BigEndian.i8 n)) :
    bytes.i8 index = .ok n := by
  rw [Bytes.i8, Holds.u8 h]
  rfl

theorem Holds.i16 {n : Int16} (h : bytes.Holds index (BigEndian.i16 n)) :
    bytes.i16 index = .ok n := by
  rw [Bytes.i16, Holds.u16 h]
  rfl

theorem Holds.i32 {n : Int32} (h : bytes.Holds index (BigEndian.i32 n)) :
    bytes.i32 index = .ok n := by
  rw [Bytes.i32, Holds.u32 h]
  rfl

theorem Holds.i64 {n : Int64} (h : bytes.Holds index (BigEndian.i64 n)) :
    bytes.i64 index = .ok n := by
  rw [Bytes.i64, Holds.u64 h]
  rfl

end Bytes

section Related

variable {α β : Type} {relation other : α → β → Prop} {first : List α} {second : List β}

theorem exists_forall₂ (h : ∀ b ∈ second, ∃ a, relation a b) :
    ∃ first, List.Forall₂ relation first second := by
  induction second with
  | nil => exact ⟨[], .nil⟩
  | cons b second ih =>
      obtain ⟨a, ha⟩ := h b List.mem_cons_self
      obtain ⟨first, hfirst⟩ := ih fun c hc => h c (List.mem_cons_of_mem _ hc)
      exact ⟨a :: first, .cons ha hfirst⟩

theorem exists_left (h : List.Forall₂ relation first second) {b : β} (hb : b ∈ second) :
    ∃ a ∈ first, relation a b := by
  induction h with
  | nil => cases hb
  | cons hrel _ ih =>
      obtain rfl | hb := List.mem_cons.mp hb
      · exact ⟨_, List.mem_cons_self, hrel⟩
      · obtain ⟨a, ha, hrel⟩ := ih hb
        exact ⟨a, List.mem_cons_of_mem _ ha, hrel⟩

theorem exists_right (h : List.Forall₂ relation first second) {a : α} (ha : a ∈ first) :
    ∃ b ∈ second, relation a b :=
  exists_left h.flip ha

/-- Related items may be weakened with the knowledge of where they stand. -/
theorem forall₂_imp_mem (h : List.Forall₂ relation first second)
    (imp : ∀ a ∈ first, ∀ b ∈ second, relation a b → other a b) :
    List.Forall₂ other first second := by
  induction h with
  | nil => exact .nil
  | cons hrel _ ih =>
      refine .cons (imp _ List.mem_cons_self _ List.mem_cons_self hrel) (ih fun a ha b hb => ?_)
      exact imp a (List.mem_cons_of_mem _ ha) b (List.mem_cons_of_mem _ hb)

variable {γ : Type} {third : List γ}

/-- Relations between three lists go along one after the other. -/
theorem forall₂_trans {next : β → γ → Prop} {result : α → γ → Prop}
    (h : List.Forall₂ relation first second) (hnext : List.Forall₂ next second third)
    (trans : ∀ a b c, relation a b → next b c → result a c) :
    List.Forall₂ result first third := by
  induction h generalizing third with
  | nil =>
      cases hnext
      exact .nil
  | cons hrel _ ih =>
      obtain ⟨c, rest, hc, hrest, rfl⟩ := List.forall₂_cons_left_iff.mp hnext
      exact .cons (trans _ _ _ hrel hc) (ih hrest)

/-- What stands between related items makes up a list of its own. -/
theorem exists_between {before : α → γ → Prop} {after : γ → β → Prop}
    (h : List.Forall₂ (fun a b => ∃ c, before a c ∧ after c b) first second) :
    ∃ third, List.Forall₂ before first third ∧ List.Forall₂ after third second := by
  induction h with
  | nil => exact ⟨[], .nil, .nil⟩
  | cons hrel _ ih =>
      obtain ⟨c, hbefore, hafter⟩ := hrel
      obtain ⟨third, hfirst, hsecond⟩ := ih
      exact ⟨c :: third, .cons hbefore hfirst, .cons hafter hsecond⟩

/-- A list that is related to two lists one after the other falls into two parts. -/
theorem forall₂_append_left {more : List α}
    (h : List.Forall₂ relation (first ++ more) second) :
    ∃ left right, second = left ++ right ∧ List.Forall₂ relation first left ∧
      List.Forall₂ relation more right :=
  ⟨_, _, (List.take_append_drop first.length second).symm,
    (List.forall₂_take_append _ _ _ h.flip).flip, (List.forall₂_drop_append _ _ _ h.flip).flip⟩

end Related

theorem eq_ok_of_toOption {α : Type} {result : Except Error α} {a : α}
    (h : result.toOption = some a) : result = .ok a := by
  cases result with
  | error error => cases h
  | ok found =>
      cases h
      rfl

/-- Two results one after the other are right if both are. -/
theorem exceptBind_eq_ok_iff {α β : Type} {first : Except Error α} {next : α → Except Error β}
    {b : β} : first >>= next = .ok b ↔ ∃ a, first = .ok a ∧ next a = .ok b := by
  cases first with
  | error error => simp [bind, Except.bind]
  | ok a => simp [bind, Except.bind]

variable {bytes : Bytes} {index : Nat} {α : Type}

theorem readEach_go {read : Nat → Except Error α} {stride : Nat} {items : List α}
    {parts : List (List UInt8)}
    (each : List.Forall₂ (fun item part => part.length = stride ∧
      ∀ i, bytes.Holds i part → read i = .ok item) items parts)
    (holds : bytes.Holds index parts.flatten) (done : List α) :
    readEach.go read stride index parts.length done = .ok (done.reverse ++ items) := by
  induction each generalizing index done with
  | nil => simp [readEach.go]
  | @cons item part items parts first each ih =>
      obtain ⟨hlength, hread⟩ := first
      rw [List.flatten_cons] at holds
      rw [List.length_cons, readEach.go, hread index holds.left]
      have hrest := ih (hlength ▸ holds.right) (item :: done)
      simpa using hrest

/-- Items of one width are read back one after the other. -/
theorem readEach_eq {read : Nat → Except Error α} {stride : Nat} {items : List α}
    {parts : List (List UInt8)}
    (each : List.Forall₂ (fun item part => part.length = stride ∧
      ∀ i, bytes.Holds i part → read i = .ok item) items parts)
    (holds : bytes.Holds index parts.flatten) :
    readEach read stride index parts.length = .ok items := by
  rw [readEach, readEach_go each holds]
  rfl

/-- Items of any width are read one after the other, each related to what was written. -/
theorem readRun_eq {β : Type} {read : Nat → Except Error (α × Nat)} {relation : β → α → Prop}
    {written : List β} {parts : List (List UInt8)}
    (each : List.Forall₂ (fun b part => ∀ i, bytes.Holds i part →
      ∃ item, read i = .ok (item, i + part.length) ∧ relation b item) written parts)
    (holds : bytes.Holds index parts.flatten) (done : List α) :
    ∃ items, ClassFile.readRun read index parts.length done =
      .ok (done.reverse ++ items, index + parts.flatten.length) ∧
        List.Forall₂ relation written items := by
  induction each generalizing index done with
  | nil => exact ⟨[], by simp [ClassFile.readRun], .nil⟩
  | @cons b part written parts first each ih =>
      rw [List.flatten_cons] at holds
      obtain ⟨item, hitem, hrelation⟩ := first index holds.left
      obtain ⟨items, hrest, hrelated⟩ := ih holds.right (item :: done)
      refine ⟨item :: items, ?_, .cons hrelation hrelated⟩
      rw [List.length_cons, ClassFile.readRun, hitem]
      simp only
      rw [hrest]
      simp [Nat.add_assoc]

/-- A run goes on where a shorter one has stopped. -/
theorem readRun_add {read : Nat → Except Error (α × Nat)} {count stop : Nat} {done items : List α}
    (h : ClassFile.readRun read index count done = .ok (items, stop)) (more : Nat) :
    ClassFile.readRun read index (count + more) done =
      ClassFile.readRun read stop more items.reverse := by
  induction count generalizing index done with
  | zero =>
      obtain ⟨rfl, rfl⟩ := Prod.mk.inj (Except.ok.inj h)
      rw [Nat.zero_add, List.reverse_reverse]
  | succ count ih =>
      rw [ClassFile.readRun] at h
      rw [Nat.succ_add, ClassFile.readRun]
      cases hitem : read index with
      | error error =>
          rw [hitem] at h
          cases h
      | ok found =>
          rw [hitem] at h
          exact ih h

/-- Encoding all entries of a list gives the bytes of each. -/
theorem mapM_eq_ok_iff {β : Type} {f : α → Except Error β} {items : List α} {parts : List β} :
    items.mapM f = .ok parts ↔ List.Forall₂ (fun item part => f item = .ok part) items parts := by
  induction items generalizing parts with
  | nil =>
      rw [List.mapM_nil, List.forall₂_nil_left_iff]
      exact ⟨fun h => (Except.ok.inj h).symm, fun h => h ▸ rfl⟩
  | cons item items ih =>
      rw [List.mapM_cons]
      cases hitem : f item with
      | error error =>
          refine ⟨fun h => ?_, fun h => ?_⟩
          · cases h
          · cases h with
            | cons first rest => rw [hitem] at first; cases first
      | ok part =>
          cases hitems : items.mapM f with
          | error error =>
              refine ⟨fun h => ?_, fun h => ?_⟩
              · simp [bind, Except.bind] at h
              · cases h with
                | cons first rest => rw [ih.mpr rest] at hitems; cases hitems
          | ok rest =>
              refine ⟨fun h => ?_, fun h => ?_⟩
              · obtain rfl : part :: rest = parts := Except.ok.inj h
                exact .cons hitem (ih.mp hitems)
              · cases h with
                | cons first others =>
                    rw [ih.mpr others] at hitems
                    cases Except.ok.inj hitems
                    cases Except.ok.inj (hitem.symm.trans first)
                    rfl

/-- The bytes of a table: its count, and the bytes of each entry. -/
theorem encodeTable_eq_ok {encode : α → Except Error (List UInt8)} {entries : List α}
    {content : List UInt8} (h : encodeTable encode entries = .ok content) :
    entries.length < 65536 ∧ ∃ parts,
      List.Forall₂ (fun entry part => encode entry = .ok part) entries parts ∧
        content = BigEndian.ofNat 2 parts.length ++ parts.flatten := by
  unfold encodeTable at h
  split at h
  · cases h
  · rename_i hlength
    refine ⟨by simp only [countLimit] at hlength; omega, ?_⟩
    cases hparts : entries.mapM encode with
    | error error => rw [hparts] at h; cases h
    | ok parts =>
        rw [hparts] at h
        have hforall := mapM_eq_ok_iff.mp hparts
        exact ⟨parts, hforall, by rw [← hforall.length_eq]; exact (Except.ok.inj h).symm⟩

/-- A table of entries that can all be encoded. -/
theorem encodeTable_ok {encode : α → List UInt8} {entries : List α}
    (few : entries.length ≤ countLimit) :
    encodeTable (fun entry => .ok (encode entry)) entries =
      .ok (BigEndian.ofNat 2 entries.length ++ (entries.map encode).flatten) := by
  have hparts : entries.mapM (fun entry => (.ok (encode entry) : Except Error (List UInt8))) =
      .ok (entries.map encode) := by
    rw [mapM_eq_ok_iff, List.forall₂_map_right_iff, List.forall₂_same]
    exact fun _ _ => rfl
  rw [encodeTable, if_neg (Nat.not_lt.mpr few), hparts]
  rfl

theorem encodeTable_ok_eq_ok {parts : List (List UInt8)} {content : List UInt8}
    (h : encodeTable .ok parts = .ok content) :
    parts.length < 65536 ∧ content = BigEndian.ofNat 2 parts.length ++ parts.flatten := by
  obtain ⟨hbound, rest, hrest, rfl⟩ := encodeTable_eq_ok h
  obtain rfl : parts = rest := by
    rw [← List.forall₂_eq_eq_eq]
    exact hrest.imp fun _ _ heq => Except.ok.inj heq
  exact ⟨hbound, rfl⟩

theorem length_flatten_of_width {parts : List (List UInt8)} {width : Nat}
    (h : ∀ part ∈ parts, part.length = width) : parts.flatten.length = width * parts.length := by
  induction parts with
  | nil => rfl
  | cons part parts ih =>
      rw [List.flatten_cons, List.length_append, h part List.mem_cons_self,
        ih fun other hother => h other (List.mem_cons_of_mem _ hother), List.length_cons,
        Nat.mul_succ, Nat.add_comm]

/-- The size of a table whose entries have at most some width. -/
theorem length_encodeTable_le {encode : α → Except Error (List UInt8)} {entries : List α}
    {content : List UInt8} (width : Nat) (h : encodeTable encode entries = .ok content)
    (hwidth : ∀ entry ∈ entries, ∀ part, encode entry = .ok part → part.length ≤ width) :
    content.length ≤ 2 + width * 65535 := by
  obtain ⟨hbound, parts, hparts, rfl⟩ := encodeTable_eq_ok h
  have hlength : parts.flatten.length ≤ width * entries.length := by
    clear h hbound
    induction hparts with
    | nil => simp
    | cons first _ ih =>
        have hfirst := hwidth _ List.mem_cons_self _ first
        have hrest := ih fun entry hentry => hwidth entry (List.mem_cons_of_mem _ hentry)
        rw [List.flatten_cons, List.length_append, List.length_cons, Nat.mul_succ]
        omega
  have hmul : width * entries.length ≤ width * 65535 := Nat.mul_le_mul_left _ (by omega)
  rw [List.length_append, BigEndian.length_ofNat]
  omega

/-- A counted run is read, and reading goes on behind it. -/
theorem ClassFile.readCounted_eq {β : Type} {file : ClassFile}
    {read : Nat → Except Error (α × Nat)} {relation : β → α → Prop} {written : List β}
    {parts : List (List UInt8)}
    (each : List.Forall₂ (fun b part => ∀ i, file.bytes.Holds i part →
      ∃ item, read i = .ok (item, i + part.length) ∧ relation b item) written parts)
    (bound : parts.length < 65536)
    (holds : file.bytes.Holds index (BigEndian.ofNat 2 parts.length ++ parts.flatten)) :
    ∃ items, file.readCounted read index =
      .ok (items, index + (BigEndian.ofNat 2 parts.length ++ parts.flatten).length) ∧
        List.Forall₂ relation written items := by
  have hrun := holds.right
  rw [BigEndian.length_ofNat] at hrun
  obtain ⟨items, hread, hrelated⟩ := readRun_eq each hrun []
  refine ⟨items, ?_, hrelated⟩
  rw [ClassFile.readCounted, holds.left.u16_ofNat bound]
  change readRun read (index + 2) (UInt16.ofNat parts.length).toNat [] = _
  rw [UInt16.toNat_ofNat_of_lt' bound, hread]
  simp [Nat.add_assoc]

theorem length_of_readEach_go {read : Nat → Except Error α} {stride count : Nat}
    {done items : List α} (h : readEach.go read stride index count done = .ok items) :
    items.length = done.length + count := by
  induction count generalizing index done with
  | zero =>
      obtain rfl := Except.ok.inj h
      simp
  | succ count ih =>
      rw [readEach.go] at h
      split at h
      · cases h
      · have hlength := ih h
        rw [List.length_cons] at hlength
        omega

/-- As many items are read as there should be. -/
theorem length_of_readEach {read : Nat → Except Error α} {stride count : Nat} {items : List α}
    (h : readEach read stride index count = .ok items) : items.length = count := by
  have hlength := length_of_readEach_go h
  simpa using hlength

theorem exists_of_readEach_go {read : Nat → Except Error α} {stride count : Nat}
    {done items : List α} (h : readEach.go read stride index count done = .ok items) :
    ∃ more, items = done.reverse ++ more ∧
      ∀ {k : Nat} {item : α}, more[k]? = some item → read (index + stride * k) = .ok item := by
  induction count generalizing index done with
  | zero =>
      obtain rfl := Except.ok.inj h
      exact ⟨[], by simp, by simp⟩
  | succ count ih =>
      rw [readEach.go] at h
      split at h
      · cases h
      · rename_i first hfirst
        obtain ⟨more, rfl, hmore⟩ := ih h
        refine ⟨first :: more, by simp, fun {k item} hitem => ?_⟩
        cases k with
        | zero =>
            obtain rfl := Option.some.inj hitem
            exact hfirst
        | succ k =>
            rw [Nat.mul_succ, Nat.add_comm _ stride, ← Nat.add_assoc]
            exact hmore hitem

/-- Each item was read from its place. -/
theorem getElem?_of_readEach {read : Nat → Except Error α} {stride count : Nat} {items : List α}
    (h : readEach read stride index count = .ok items) {k : Nat} {item : α}
    (hitem : items[k]? = some item) : read (index + stride * k) = .ok item := by
  obtain ⟨more, rfl, hmore⟩ := exists_of_readEach_go h
  exact hmore hitem

/-- A number that was read lies within the file. -/
theorem Bytes.bound_of_u16 {n : UInt16} (h : bytes.u16 index = .ok n) : index + 2 ≤ bytes.size := by
  by_contra hbound
  rw [Bytes.u16, Bytes.number, Bytes.slice, if_neg hbound] at h
  cases h

/-- Items of one width that were read lie within the file. -/
theorem bound_of_readEach_go {read : Nat → Except Error α} {stride count limit : Nat}
    (hread : ∀ i item, read i = .ok item → i + stride ≤ limit) (hindex : index ≤ limit)
    {done items : List α} (h : readEach.go read stride index count done = .ok items) :
    index + stride * count ≤ limit := by
  induction count generalizing index done with
  | zero => simpa using hindex
  | succ count ih =>
      rw [readEach.go] at h
      split at h
      · cases h
      · rename_i item hitem
        have hrest := ih (hread index item hitem) h
        rw [Nat.mul_succ]
        omega

theorem length_of_readRun {read : Nat → Except Error (α × Nat)} {count stop : Nat}
    {done items : List α} (h : ClassFile.readRun read index count done = .ok (items, stop)) :
    items.length = done.length + count := by
  induction count generalizing index done with
  | zero =>
      obtain ⟨rfl, rfl⟩ := Prod.mk.inj (Except.ok.inj h)
      simp
  | succ count ih =>
      rw [ClassFile.readRun] at h
      split at h
      · cases h
      · have hlength := ih h
        rw [List.length_cons] at hlength
        omega

/-- As many items are read as the count says. -/
theorem ClassFile.length_of_readCounted {file : ClassFile} {read : Nat → Except Error (α × Nat)}
    {items : List α} {stop : Nat} (h : file.readCounted read index = .ok (items, stop)) :
    items.length ≤ 65535 := by
  unfold readCounted at h
  obtain ⟨count, -, h⟩ := exceptBind_eq_ok_iff.mp h
  have hlength := length_of_readRun h
  have hlt := count.toNat_lt
  rw [List.length_nil] at hlength
  omega

/-- Items that take some bytes of a file take no more than there are. -/
theorem sum_of_readRun {read : Nat → Except Error (α × Nat)} {size : α → Nat}
    {limit count stop : Nat}
    (hread : ∀ i item next, read i = .ok (item, next) → i + size item ≤ next ∧ next ≤ limit)
    (hindex : index ≤ limit) {done items : List α}
    (h : ClassFile.readRun read index count done = .ok (items, stop)) :
    ∃ more, items = done.reverse ++ more ∧ index + (more.map size).sum ≤ limit := by
  induction count generalizing index done with
  | zero =>
      obtain ⟨rfl, rfl⟩ := Prod.mk.inj (Except.ok.inj h)
      exact ⟨[], by simp, by simpa using hindex⟩
  | succ count ih =>
      rw [ClassFile.readRun] at h
      split at h
      · cases h
      · rename_i item next hitem
        obtain ⟨hnext, hlimit⟩ := hread index item next hitem
        obtain ⟨more, rfl, hsum⟩ := ih hlimit h
        refine ⟨item :: more, by simp, ?_⟩
        rw [List.map_cons, List.sum_cons]
        omega

end JavaClass
