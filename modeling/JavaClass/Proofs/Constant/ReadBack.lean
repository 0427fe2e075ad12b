import JavaClass.Proofs.Constant.Asking
import JavaClass.Proofs.Constant.Tables

/-!
# What a table gives back

A pool that was built by any run of requests is written and read back wherever
its bytes stand. Through the slot that a request gave, whatever was asked for
later, the table gives back what was asked for.

## Implementation notes

A part that is named by a slot stands for the text, the class or the name and
type for which that slot was given earlier, so a request is only read back if
all its slots were given by requests of the right kind. A handle is only read
back as a handle if its slot leads to a member, whichever request it came from.
-/

namespace JavaClass.ConstantPool

open Request

variable {pool : ConstantPool} {asks : List Ask}

/-- In a run from the empty pool, a request gave a slot. -/
def Gave (asks : List Ask) (ask : Ask) (slot : UInt16) : Prop :=
  ∃ before after, asks = before ++ ask :: after ∧
    ((empty.askAll before).2.settle ask.request).1 = .ok slot

/-- A run gave a slot for a text. -/
def GaveText (asks : List Ask) (text : String) (slot : UInt16) : Prop :=
  Gave asks (.entry (.utf8 text)) slot ∨ ∃ contents, Gave asks (.attributeName text contents) slot

/-- A run gave a slot for a class of this name. -/
def GaveClass (asks : List Ask) (name : String) (slot : UInt16) : Prop :=
  Gave asks (.classNamed name) slot ∨
    ∃ text, Gave asks (.entry (.classInfo text)) slot ∧ GaveText asks name text

/-- A run gave a slot for a name and a descriptor. -/
def GaveNameAndType (asks : List Ask) (name descriptor : String) (slot : UInt16) : Prop :=
  Gave asks (.nameAndType name descriptor) slot ∨
    ∃ first second, Gave asks (.entry (.nameAndType first second)) slot ∧
      GaveText asks name first ∧ GaveText asks descriptor second

/-- A run gave all slots that a request refers to, each for a part of the right kind. -/
def Ask.Supplied (asks : List Ask) : Ask → Prop
  | .entry (.classInfo text) => ∃ name, GaveText asks name text
  | .entry (.string text) => ∃ content, GaveText asks content text
  | .entry (.methodType text) => ∃ descriptor, GaveText asks descriptor text
  | .entry (.moduleInfo text) => ∃ name, GaveText asks name text
  | .entry (.packageInfo text) => ∃ name, GaveText asks name text
  | .entry (.nameAndType first second) =>
      (∃ name, GaveText asks name first) ∧ ∃ descriptor, GaveText asks descriptor second
  | .entry (.fieldRef owner member) =>
      (∃ name, GaveClass asks name owner) ∧
        ∃ name descriptor, GaveNameAndType asks name descriptor member
  | .entry (.methodRef owner member _) =>
      (∃ name, GaveClass asks name owner) ∧
        ∃ name descriptor, GaveNameAndType asks name descriptor member
  | .entry (.invokeDynamic _ member) =>
      ∃ name descriptor, GaveNameAndType asks name descriptor member
  | .entry (.methodHandle _ member) => ∃ ask, Gave asks ask member
  | _ => True

/-- A table has the constants of a pool where they start, and nothing anywhere else. -/
structure Shown (pool : ConstantPool) (table : ConstantTable) : Prop where
  get_eq_ok_iff : ∀ slot constant, table.get slot = .ok constant ↔
    (slot.toNat, constant) ∈ pool.entries.entries.toList
  zero : table.get 0 = malformed (.noConstant 0)
  second : ∀ start constant, (start, constant) ∈ pool.entries.entries.toList →
    constant.width = 2 → ∀ slot, slot.toNat = start + 1 →
      table.get slot = malformed (.noConstant slot)
  behind : ∀ slot, pool.slotCount ≤ slot → table.get slot = malformed (.noConstant slot)

/-- A table gives back what was asked for, through the slot that the request gave. -/
def Ask.ReadsBack (asks : List Ask) (table : ConstantTable) (slot : UInt16) : Ask → Prop
  | .entry (.utf8 text) => table.text slot = .ok text
  | .entry (.integer value) => table.literal slot = .ok (.int value)
  | .entry (.float bits) => table.literal slot = .ok (.float bits)
  | .entry (.long value) => table.literal slot = .ok (.long value)
  | .entry (.double bits) => table.literal slot = .ok (.double bits)
  | .entry (.string text) =>
      ∃ content, GaveText asks content text ∧ table.literal slot = .ok (.string content)
  | .entry (.methodType text) =>
      ∃ descriptor, GaveText asks descriptor text ∧
        table.literal slot = .ok (.methodType descriptor)
  | .entry (.classInfo text) =>
      ∃ name, GaveText asks name text ∧ table.className slot = .ok name ∧
        table.literal slot = .ok (.classRef name)
  | .entry (.nameAndType first second) =>
      ∃ name descriptor, GaveText asks name first ∧ GaveText asks descriptor second ∧
        table.nameAndType slot = .ok (name, descriptor)
  | .entry (.fieldRef owner member) =>
      ∃ className name descriptor, GaveClass asks className owner ∧
        GaveNameAndType asks name descriptor member ∧
        table.member slot = .ok ⟨className, name, descriptor, false⟩
  | .entry (.methodRef owner member isInterface) =>
      ∃ className name descriptor, GaveClass asks className owner ∧
        GaveNameAndType asks name descriptor member ∧
        table.member slot = .ok ⟨className, name, descriptor, isInterface⟩
  | .entry (.invokeDynamic bootstrap member) =>
      ∃ name descriptor, GaveNameAndType asks name descriptor member ∧
        table.callSite slot = .ok ⟨bootstrap, name, descriptor⟩
  | .entry (.methodHandle kind member) =>
      table.methodHandle slot = (table.member member).map fun found =>
        ⟨kind, found.owner, found.name, found.descriptor, found.isInterface⟩
  | .entry (.moduleInfo text) => table.get slot = .ok (.moduleInfo text)
  | .entry (.packageInfo text) => table.get slot = .ok (.packageInfo text)
  | .classNamed name => table.className slot = .ok name
  | .nameAndType name descriptor => table.nameAndType slot = .ok (name, descriptor)
  | .methodHandle handle => table.methodHandle slot = .ok handle.normal
  | .literal value => table.literal slot = .ok value.normal
  | .attributeName name _ => table.text slot = .ok name

section Table

variable {table : ConstantTable} (within : (empty.askAll asks).2.Within table)

include within

/-- What a run gave is shown by every table with the entries of the pool. -/
theorem Gave.shows {ask : Ask} {slot : UInt16} (gave : Gave asks ask slot) :
    ask.Shows table slot := by
  obtain ⟨before, after, rfl, hanswer⟩ := gave
  obtain ⟨valid₀, -⟩ := valid_empty.askAll before
  rw [askAll_append, askAll_cons] at within
  generalize (empty.askAll before).2 = pool at hanswer within valid₀
  obtain ⟨valid₁, -, hshows, -⟩ := ask.gives pool slot _ valid₀ (settle_eq_ok hanswer)
  exact hshows table (within.of_below (valid₁.askAll after).2)

theorem GaveText.text {text : String} {slot : UInt16} (gave : GaveText asks text slot) :
    table.text slot = .ok text := by
  obtain gave | ⟨contents, gave⟩ := gave
  · have hget : table.get slot = .ok (.utf8 text) := gave.shows within
    rw [ConstantTable.text, hget]
    rfl
  · exact gave.shows within

theorem GaveClass.className {name : String} {slot : UInt16} (gave : GaveClass asks name slot) :
    table.className slot = .ok name := by
  obtain gave | ⟨text, gave, gaveText⟩ := gave
  · exact gave.shows within
  · have hget : table.get slot = .ok (.classInfo text) := gave.shows within
    rw [ConstantTable.className, hget]
    exact gaveText.text within

theorem GaveNameAndType.nameAndType {name descriptor : String} {slot : UInt16}
    (gave : GaveNameAndType asks name descriptor slot) :
    table.nameAndType slot = .ok (name, descriptor) := by
  obtain gave | ⟨first, second, gave, gaveFirst, gaveSecond⟩ := gave
  · exact gave.shows within
  · have hget : table.get slot = .ok (.nameAndType first second) := gave.shows within
    rw [ConstantTable.nameAndType, hget]
    simp only [bind, Except.bind, gaveFirst.text within, gaveSecond.text within]
    rfl

/-- What was asked for with slots of the right kind is read back. -/
theorem Gave.readsBack {ask : Ask} {slot : UInt16} (gave : Gave asks ask slot)
    (supplied : ask.Supplied asks) : ask.ReadsBack asks table slot := by
  have shows := gave.shows within
  cases ask with
  | classNamed name => exact shows
  | nameAndType name descriptor => exact shows
  | methodHandle handle => exact shows
  | literal value => exact shows
  | attributeName name contents => exact shows
  | entry constant =>
      have hget : table.get slot = .ok constant := shows
      cases constant with
      | moduleInfo _ | packageInfo _ => exact hget
      | utf8 text =>
          simp only [Ask.ReadsBack, ConstantTable.text, hget]
          rfl
      | integer _ | float _ | long _ | double _ =>
          simp only [Ask.ReadsBack, ConstantTable.literal, hget]
          rfl
      | string text =>
          obtain ⟨content, gaveText⟩ := supplied
          refine ⟨content, gaveText, ?_⟩
          simp only [ConstantTable.literal, hget, bind, Except.bind, gaveText.text within]
          rfl
      | methodType text =>
          obtain ⟨descriptor, gaveText⟩ := supplied
          refine ⟨descriptor, gaveText, ?_⟩
          simp only [ConstantTable.literal, hget, bind, Except.bind, gaveText.text within]
          rfl
      | classInfo text =>
          obtain ⟨name, gaveText⟩ := supplied
          refine ⟨name, gaveText, ?_, ?_⟩
          · rw [ConstantTable.className, hget]
            exact gaveText.text within
          · simp only [ConstantTable.literal, hget, bind, Except.bind, gaveText.text within]
            rfl
      | nameAndType first second =>
          obtain ⟨⟨name, gaveName⟩, descriptor, gaveDescriptor⟩ := supplied
          exact ⟨name, descriptor, gaveName, gaveDescriptor, GaveNameAndType.nameAndType within
            (.inr ⟨first, second, gave, gaveName, gaveDescriptor⟩)⟩
      | fieldRef owner member =>
          obtain ⟨⟨className, gaveClass⟩, name, descriptor, gaveMember⟩ := supplied
          refine ⟨className, name, descriptor, gaveClass, gaveMember, ?_⟩
          rw [ConstantTable.member, hget]
          exact memberOf_eq false (gaveClass.className within) (gaveMember.nameAndType within)
      | methodRef owner member isInterface =>
          obtain ⟨⟨className, gaveClass⟩, name, descriptor, gaveMember⟩ := supplied
          refine ⟨className, name, descriptor, gaveClass, gaveMember, ?_⟩
          rw [ConstantTable.member, hget]
          exact memberOf_eq isInterface (gaveClass.className within)
            (gaveMember.nameAndType within)
      | invokeDynamic bootstrap member =>
          obtain ⟨name, descriptor, gaveMember⟩ := supplied
          refine ⟨name, descriptor, gaveMember, ?_⟩
          simp only [ConstantTable.callSite, hget, bind, Except.bind,
            gaveMember.nameAndType within]
          rfl
      | methodHandle kind member =>
          simp only [Ask.ReadsBack, ConstantTable.methodHandle, hget, bind, Except.bind]
          cases table.member member with
          | error error => rfl
          | ok found => rfl

end Table

/-- Each request of a run refers only to slots that the run gave before, for parts of the right
kind. -/
def Supplied (asks : List Ask) : Prop :=
  ∀ (k : Nat) (ask : Ask), asks[k]? = some ask → ask.Supplied (asks.take k)

section Append

variable {before : List Ask} (after : List Ask)

theorem Gave.append {ask : Ask} {slot : UInt16} (gave : Gave before ask slot) :
    Gave (before ++ after) ask slot := by
  obtain ⟨first, rest, rfl, hanswer⟩ := gave
  exact ⟨first, rest ++ after, by simp, hanswer⟩

theorem GaveText.append {text : String} {slot : UInt16} (gave : GaveText before text slot) :
    GaveText (before ++ after) text slot := by
  obtain gave | ⟨contents, gave⟩ := gave
  · exact .inl (gave.append after)
  · exact .inr ⟨contents, gave.append after⟩

theorem GaveClass.append {name : String} {slot : UInt16} (gave : GaveClass before name slot) :
    GaveClass (before ++ after) name slot := by
  obtain gave | ⟨text, gave, gaveText⟩ := gave
  · exact .inl (gave.append after)
  · exact .inr ⟨text, gave.append after, gaveText.append after⟩

theorem GaveNameAndType.append {name descriptor : String} {slot : UInt16}
    (gave : GaveNameAndType before name descriptor slot) :
    GaveNameAndType (before ++ after) name descriptor slot := by
  obtain gave | ⟨first, second, gave, gaveFirst, gaveSecond⟩ := gave
  · exact .inl (gave.append after)
  · exact .inr ⟨first, second, gave.append after, gaveFirst.append after,
      gaveSecond.append after⟩

/-- What was given once is given whatever comes later. -/
theorem Ask.Supplied.append {ask : Ask} (supplied : ask.Supplied before) :
    ask.Supplied (before ++ after) := by
  have text {slot : UInt16} : (∃ text, GaveText before text slot) →
      ∃ text, GaveText (before ++ after) text slot :=
    Exists.imp fun _ gave => gave.append after
  have owner {slot : UInt16} : (∃ name, GaveClass before name slot) →
      ∃ name, GaveClass (before ++ after) name slot :=
    Exists.imp fun _ gave => gave.append after
  have member {slot : UInt16} : (∃ name descriptor, GaveNameAndType before name descriptor slot) →
      ∃ name descriptor, GaveNameAndType (before ++ after) name descriptor slot :=
    Exists.imp fun _ => Exists.imp fun _ gave => gave.append after
  cases ask with
  | entry constant =>
      cases constant with
      | classInfo _ | string _ | methodType _ | moduleInfo _ | packageInfo _ =>
          exact text supplied
      | nameAndType _ _ => exact supplied.imp text text
      | fieldRef _ _ | methodRef _ _ _ => exact supplied.imp owner member
      | invokeDynamic _ _ => exact member supplied
      | methodHandle _ _ => exact supplied.imp fun _ gave => gave.append after
      | _ => trivial
  | _ => trivial

end Append

theorem get_eq_malformed_iff {table : ConstantTable} {slot : UInt16} :
    table.get slot = malformed (.noConstant slot) ↔ ∀ constant, table.get slot ≠ .ok constant := by
  unfold ConstantTable.get malformed
  cases table.entries.get? slot.toNat with
  | none => simp
  | some found => simp

/-- The slots of an entry come before those of another. -/
def EndsBefore (a b : Nat × Constant) : Prop := a.1 + a.2.width ≤ b.1

instance : Trans EndsBefore EndsBefore EndsBefore :=
  ⟨fun h h' => Nat.le_trans h (Nat.le_trans (Nat.le_add_right _ _) h')⟩

/-- The entry that starts earlier also ends before the other one starts. -/
theorem Interned.endsBefore (interned : pool.Interned) {a b : Nat × Constant}
    (ha : a ∈ pool.entries.entries.toList) (hb : b ∈ pool.entries.entries.toList)
    (hlt : a.1 < b.1) : EndsBefore a b := by
  have chain : pool.entries.entries.toList.IsChain EndsBefore :=
    interned.following.imp fun _ _ h => Nat.le_of_eq h.symm
  have spaced := chain.pairwise
  obtain ⟨i, hi, rfl⟩ := List.getElem_of_mem ha
  obtain ⟨j, hj, rfl⟩ := List.getElem_of_mem hb
  obtain hij | rfl | hji := Nat.lt_trichotomy i j
  · exact List.pairwise_iff_getElem.mp spaced i j hi hj hij
  · exact absurd hlt (Nat.lt_irrefl _)
  · have h := List.pairwise_iff_getElem.mp spaced j i hj hi hji
    exact absurd hlt (Nat.not_lt_of_le (Nat.le_of_add_right_le h))

/-- The table made of the entries of a pool shows it. -/
theorem Valid.shown (valid : pool.Valid) : pool.Shown ⟨pool.entries⟩ := by
  have interned := valid.interned
  have hget (slot : UInt16) (constant : Constant) :
      ConstantTable.get ⟨pool.entries⟩ slot = .ok constant ↔
        (slot.toNat, constant) ∈ pool.entries.entries.toList := by
    rw [ConstantTable.get_eq_ok_iff]
    exact ⟨SlotVector.mem_of_get?, SlotVector.get?_of_mem valid.strict.1⟩
  refine ⟨hget, ?_, ?_, ?_⟩
  · refine get_eq_malformed_iff.mpr fun constant h => ?_
    have hpos := (valid.strict.2 _ ((hget 0 constant).mp h)).1
    simp at hpos
  · intro start constant hmem hwidth slot hslot
    refine get_eq_malformed_iff.mpr fun other h => ?_
    have hle : start + constant.width ≤ slot.toNat :=
      interned.endsBefore hmem ((hget slot other).mp h) (by simp only; omega)
    omega
  · intro slot hslot
    refine get_eq_malformed_iff.mpr fun constant h => ?_
    have hlt := (valid.strict.2 _ ((hget slot constant).mp h)).2
    rw [UInt16.le_iff_toNat_le, interned.slotCount] at hslot
    simp only at hlt
    omega

/-- A valid pool can be written. -/
theorem Valid.encode_eq_ok (valid : pool.Valid) : ∃ part, pool.encode = .ok part := by
  obtain ⟨parts, hparts⟩ : ∃ parts, List.Forall₂ (fun part constant =>
      Constant.encode constant = .ok part) parts pool.entries.toList := by
    apply exists_forall₂
    intro constant hmem
    obtain ⟨⟨start, found⟩, hentry, rfl⟩ := List.mem_map.mp hmem
    obtain ⟨key, hkey, -⟩ := valid.complete hentry
    exact ⟨key, hkey⟩
  have hmapM := mapM_eq_ok_iff.mpr hparts.flip
  rw [encode, hmapM]
  exact ⟨_, rfl⟩

/-- A pool that was built by requests is written, and read back wherever its bytes stand: reading
ends where they end, the table has the same constants at the same slots and an error at all others,
and through each slot that was given it gives back what was asked for. -/
theorem read_askAll (asks : List Ask) (supplied : Supplied asks) :
    ∃ part, (empty.askAll asks).2.encode = .ok part ∧
      ∀ before after : List UInt8, ∃ table,
        ConstantTable.read (before ++ (part ++ after)).toArray before.length =
            .ok (table, before.length + part.length) ∧
          (empty.askAll asks).2.Shown table ∧
          ∀ ask slot, Gave asks ask slot → ask.ReadsBack asks table slot := by
  obtain ⟨valid, -⟩ := valid_empty.askAll asks
  obtain ⟨part, hpart⟩ := valid.encode_eq_ok
  refine ⟨part, hpart, fun before after => ?_⟩
  have holds : Bytes.Holds (before ++ (part ++ after)).toArray before.length part :=
    ⟨before, after, rfl, rfl⟩
  refine ⟨⟨(empty.askAll asks).2.entries⟩, ConstantTable.read_eq valid.writable hpart holds,
    valid.shown, fun ask slot gave => ?_⟩
  -- the slots that the request refers to were given before it, and stay given
  obtain ⟨first, rest, rfl, -⟩ := id gave
  have hfirst : ask.Supplied first := by
    simpa using supplied first.length ask (by simp)
  exact gave.readsBack valid.within_self (hfirst.append _)

/-- A field by its slots, a wide entry, and a handle that shares them and loses its flag. -/
theorem read_askAll_field_handle :
    let asks : List Ask :=
      [.entry (.utf8 "A"), .entry (.classInfo 1), .nameAndType "f" "J", .entry (.fieldRef 2 5),
        .literal (.long 7), .methodHandle ⟨.getField, "A", "f", "J", true⟩]
    Supplied asks ∧ ∃ part, (empty.askAll asks).2.encode = .ok part ∧
      ∃ table, ConstantTable.read ([202] ++ (part ++ [254])).toArray 1 =
          .ok (table, 1 + part.length) ∧
        table.get 8 = malformed (.noConstant 8) ∧
        table.methodHandle 9 = .ok ⟨.getField, "A", "f", "J", false⟩ := by
  intro asks
  have supplied : Supplied asks := by
    intro k ask h
    obtain ⟨hlt, rfl⟩ := List.getElem?_eq_some_iff.mp h
    have name : GaveText (asks.take 1) "A" 1 := .inl ⟨[], [], rfl, rfl⟩
    have owner : GaveClass (asks.take 3) "A" 2 :=
      .inr ⟨1, ⟨asks.take 1, _, rfl, rfl⟩, name.append _⟩
    have member : GaveNameAndType (asks.take 3) "f" "J" 5 :=
      .inl ⟨asks.take 2, [], rfl, rfl⟩
    match k with
    | 0 => trivial
    | 1 => exact ⟨"A", name⟩
    | 2 => trivial
    | 3 => exact ⟨⟨"A", owner⟩, "f", "J", member⟩
    | 4 => trivial
    | 5 => trivial
    | k + 6 =>
        have hlt' : k + 6 < 6 := hlt
        omega
  obtain ⟨part, hpart, hread⟩ := read_askAll asks supplied
  obtain ⟨table, htable, shown, readsBack⟩ := hread [202] [254]
  refine ⟨supplied, part, hpart, table, htable, ?_, ?_⟩
  · exact shown.second 7 (.long 7) (by decide) rfl 8 rfl
  · exact readsBack (.methodHandle ⟨.getField, "A", "f", "J", true⟩) 9 ⟨asks.take 5, [], rfl, rfl⟩

end JavaClass.ConstantPool
