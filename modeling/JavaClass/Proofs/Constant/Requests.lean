import JavaClass.Constant.Pool
import JavaClass.Proofs.Constant.Entries
import JavaClass.Proofs.SlotVector

/-!
# What requests give

A valid pool holds each constant once and knows where. A request on a valid
pool leaves a valid pool with all entries from before, and the slot that it
gives leads to what was asked for in every table that has the entries of the
pool, also if the pool grows later.

## Implementation notes

`Gives` says all of this of one request and is composed along `>>=`. Asking
again later gives the same slot, so what two requests gave is equal if the
requests are. A handle on a field is read back as one whose owner is no
interface, which is what `normal` says.
-/

namespace JavaClass

/-- The handle that the pool gives back: the owner of a field counts as a class. -/
def MethodHandle.normal (handle : MethodHandle) : MethodHandle :=
  if handle.kind.isField then { handle with isInterface := false } else handle

/-- The literal that the pool gives back. -/
def Literal.normal : Literal → Literal
  | .methodHandle handle => .methodHandle handle.normal
  | other => other

namespace ConstantPool

/-- The entries are laid out from slot 1 on, and the index finds each of them by its bytes. -/
structure Valid (pool : ConstantPool) : Prop where
  laidOut : ∃ constants, pool.entries = (SlotVector.startingAt 1).append constants
  next_le : pool.entries.next ≤ countLimit
  sound : ∀ {key : List UInt8} {slot : UInt16}, pool.slots[key]? = some slot →
    ∃ constant, constant.encode = .ok key ∧ (slot.toNat, constant) ∈ pool.entries.entries.toList
  complete : ∀ {start : Nat} {constant : Constant},
    (start, constant) ∈ pool.entries.entries.toList →
      ∃ key, constant.encode = .ok key ∧ pool.slots[key]? = some (UInt16.ofNat start)

/-- All entries of a pool are entries of another. -/
def Below (pool later : ConstantPool) : Prop :=
  pool.entries.entries.toList ⊆ later.entries.entries.toList

/-- A table has all entries of a pool. -/
def Within (pool : ConstantPool) (table : ConstantTable) : Prop :=
  ∀ start constant, (start, constant) ∈ pool.entries.entries.toList →
    table.entries.get? start = some constant

variable {pool later : ConstantPool} {table : ConstantTable}

theorem Below.refl (pool : ConstantPool) : pool.Below pool := List.Subset.refl _

theorem Below.trans {last : ConstantPool} (h : pool.Below later) (h' : later.Below last) :
    pool.Below last := List.Subset.trans h h'

theorem Within.of_below (h : later.Within table) (below : pool.Below later) : pool.Within table :=
  fun start constant hmem => h start constant (below hmem)

theorem valid_empty : empty.Valid where
  laidOut := ⟨[], rfl⟩
  next_le := by decide
  sound := by
    intro key slot h
    simp [empty] at h
  complete := by
    intro start constant h
    simp [empty, SlotVector.startingAt] at h

namespace Valid

variable (valid : pool.Valid)

include valid

theorem strict :
    pool.entries.entries.toList.Pairwise (fun a b => a.1 < b.1) ∧
      ∀ entry ∈ pool.entries.entries.toList, 1 ≤ entry.1 ∧ entry.1 < pool.entries.next := by
  obtain ⟨constants, h⟩ := valid.laidOut
  rw [h]
  exact SlotVector.strict_append 1 Constant.width_pos constants

/-- The table made of the entries of a pool has them all. -/
theorem within_self : pool.Within ⟨pool.entries⟩ := by
  intro start constant hmem
  exact SlotVector.get?_of_mem valid.strict.1 hmem

theorem toNat_start {start : Nat} {constant : Constant}
    (h : (start, constant) ∈ pool.entries.entries.toList) :
    (UInt16.ofNat start).toNat = start ∧ UInt16.ofNat start ≠ 0 := by
  obtain ⟨hpos, hlt⟩ := valid.strict.2 _ h
  have hnext := valid.next_le
  simp only [countLimit] at hnext
  have htoNat : (UInt16.ofNat start).toNat = start :=
    UInt16.toNat_ofNat_of_lt' (by change start < 65536; simp only at hlt; omega)
  refine ⟨htoNat, fun h => ?_⟩
  rw [h] at htoNat
  simp only [UInt16.toNat_zero] at htoNat
  omega

/-- A constant of the pool is found again, now and later. -/
theorem intern_of_mem {slot : UInt16} {constant : Constant}
    (h : (slot.toNat, constant) ∈ pool.entries.entries.toList) :
    Request.intern constant pool = .ok slot pool := by
  obtain ⟨key, hkey, hslot⟩ := valid.complete h
  rw [UInt16.ofNat_toNat] at hslot
  unfold Request.intern
  simp only [hkey, hslot]

/-- A new constant is put behind the last one. -/
theorem push {constant : Constant} {key : List UInt8} (hkey : constant.encode = .ok key)
    (hnew : pool.slots[key]? = none)
    (hroom : pool.entries.next + constant.width ≤ countLimit) :
    Valid ⟨pool.entries.push constant,
      pool.slots.insert key (UInt16.ofNat pool.entries.next)⟩ := by
  have hwidth := constant.width_pos
  have hnext : (UInt16.ofNat pool.entries.next).toNat = pool.entries.next := by
    simp only [countLimit] at hroom
    exact UInt16.toNat_ofNat_of_lt' (by change _ < 65536; omega)
  refine ⟨?_, hroom, fun {other slot} h => ?_, fun {start other} h => ?_⟩
  · obtain ⟨constants, h⟩ := valid.laidOut
    exact ⟨constants ++ [constant], by rw [SlotVector.append_append, ← h]; rfl⟩
  · rw [Std.TreeMap.getElem?_insert] at h
    split at h
    · rename_i hcompare
      obtain rfl := Std.LawfulEqCmp.eq_of_compare hcompare
      obtain rfl := Option.some.inj h
      refine ⟨constant, hkey, ?_⟩
      simp [SlotVector.push, hnext]
    · obtain ⟨found, hfound, hmem⟩ := valid.sound h
      exact ⟨found, hfound, by simp [SlotVector.push, hmem]⟩
  · simp only [SlotVector.push, Array.toList_push, List.mem_append, List.mem_singleton] at h
    obtain h | h := h
    · obtain ⟨found, hfound, hslot⟩ := valid.complete h
      refine ⟨found, hfound, ?_⟩
      rw [Std.TreeMap.getElem?_insert, if_neg]
      · exact hslot
      · intro hcompare
        rw [Std.LawfulEqCmp.eq_of_compare hcompare, hslot] at hnew
        cases hnew
    · obtain ⟨rfl, rfl⟩ := Prod.mk.inj h
      exact ⟨key, hkey, by simp⟩

end Valid

namespace Request

variable {α β : Type} {ask : Request α} {next : α → Request β}
  {post post' : ConstantTable → α → Prop} {later : ConstantTable → β → Prop}

/-- The request keeps a pool valid and its entries in place, what it gives is right in every table
with the entries of the pool, and it gives the same again. -/
def Gives (ask : Request α) (post : ConstantTable → α → Prop) : Prop :=
  ∀ pool value pool', pool.Valid → ask pool = .ok value pool' →
    pool'.Valid ∧ pool.Below pool' ∧ (∀ table, pool'.Within table → post table value) ∧
      ∀ grown, grown.Valid → pool'.Below grown → ask grown = .ok value grown

theorem Gives.weaken (gives : Gives ask post) (h : ∀ table value, post table value →
    post' table value) : Gives ask post' := by
  intro pool value pool' valid hask
  obtain ⟨valid', below, hpost, again⟩ := gives pool value pool' valid hask
  exact ⟨valid', below, fun table within => h table value (hpost table within), again⟩

theorem gives_pure (value : α) (h : ∀ table, post table value) : Gives (pure value) post := by
  intro pool value' pool' valid hask
  cases hask
  exact ⟨valid, .refl _, fun table _ => h table, fun grown _ _ => rfl⟩

theorem gives_return (value : α) : Gives (pure value) fun _ result => result = value :=
  gives_pure value fun _ => rfl

theorem Gives.bind {middle : α → ConstantTable → β → Prop} (first : Gives ask post)
    (second : ∀ value, Gives (next value) (middle value))
    (h : ∀ table value result, post table value → middle value table result →
      later table result) : Gives (ask >>= next) later := by
  intro pool result pool'' valid hask
  simp only [Bind.bind, EStateM.bind] at hask
  split at hask
  · rename_i value pool' hfirst
    obtain ⟨valid', below, hpost, again⟩ := first pool value pool' valid hfirst
    obtain ⟨valid'', below', hmiddle, again'⟩ := second value pool' result pool'' valid' hask
    refine ⟨valid'', below.trans below', fun table within => ?_, fun grown hgrown hbelow => ?_⟩
    · exact h table value result (hpost table (within.of_below below')) (hmiddle table within)
    · simp only [Bind.bind, EStateM.bind, again grown hgrown (below'.trans hbelow)]
      exact again' grown hgrown hbelow
  · cases hask

/-- A slot that leads to a constant; it is never 0. -/
def LeadsTo (constant : Constant) (table : ConstantTable) (slot : UInt16) : Prop :=
  slot ≠ 0 ∧ table.get slot = .ok constant

theorem leadsTo_of_mem {pool : ConstantPool} {table : ConstantTable} {slot : UInt16}
    {constant : Constant} (valid : pool.Valid) (within : pool.Within table)
    (h : (slot.toNat, constant) ∈ pool.entries.entries.toList) :
    LeadsTo constant table slot := by
  constructor
  · rintro rfl
    have hpos := (valid.strict.2 _ h).1
    simp at hpos
  · rw [ConstantTable.get, within _ _ h]

theorem gives_intern (constant : Constant) : Gives (intern constant) (LeadsTo constant) := by
  intro pool slot pool' valid hask
  have hkeep {pool' : ConstantPool} (valid' : pool'.Valid)
      (hmem : (slot.toNat, constant) ∈ pool'.entries.entries.toList) :
      (∀ table, pool'.Within table → LeadsTo constant table slot) ∧
        ∀ grown, grown.Valid → pool'.Below grown → intern constant grown = .ok slot grown :=
    ⟨fun table within => leadsTo_of_mem valid' within hmem,
      fun grown hgrown below => hgrown.intern_of_mem (below hmem)⟩
  unfold intern at hask
  split at hask
  · cases hask
  · rename_i key hkey
    split at hask
    · rename_i found hfound
      cases hask
      obtain ⟨other, hother, hmem⟩ := valid.sound hfound
      obtain rfl := Constant.encode_injective hother hkey
      exact ⟨valid, .refl _, hkeep valid hmem⟩
    · rename_i hnew
      simp only at hask
      split at hask
      · cases hask
      · rename_i hroom
        cases hask
        have valid' := valid.push hkey hnew (Nat.le_of_not_lt hroom)
        have hmem : (pool.entries.next, constant) ∈
            (pool.entries.push constant).entries.toList := by simp [SlotVector.push]
        have hnext := (valid'.toNat_start hmem).1
        exact ⟨valid', fun entry hentry => by simp [SlotVector.push, hentry],
          hkeep valid' (hnext.symm ▸ hmem)⟩

theorem gives_text (content : String) :
    Gives (text content) fun table slot => slot ≠ 0 ∧ table.text slot = .ok content := by
  refine (gives_intern _).weaken fun table slot h => ⟨h.1, ?_⟩
  rw [ConstantTable.text, h.2]
  rfl

theorem gives_classNamed (name : String) :
    Gives (classNamed name) fun table slot => slot ≠ 0 ∧ table.className slot = .ok name := by
  refine (gives_text name).bind (fun slot => gives_intern (.classInfo slot)) ?_
  intro table text slot htext h
  refine ⟨h.1, ?_⟩
  rw [ConstantTable.className, h.2]
  exact htext.2

theorem gives_optionalClass (name : Option String) :
    Gives (optionalClass name) fun table slot => table.optionalClassName slot = .ok name := by
  cases name with
  | none => exact gives_pure 0 fun table => rfl
  | some name =>
      refine (gives_classNamed name).weaken fun table slot h => ?_
      rw [ConstantTable.optionalClassName, if_neg h.1, h.2]
      rfl

theorem gives_nameAndType (name descriptor : String) :
    Gives (nameAndType name descriptor) fun table slot =>
      table.nameAndType slot = .ok (name, descriptor) := by
  have hmember (first : UInt16) :
      Gives (do intern (.nameAndType first (← text descriptor))) fun table slot =>
        ∃ second, table.text second = .ok descriptor ∧
          LeadsTo (.nameAndType first second) table slot :=
    (gives_text descriptor).bind (fun second => gives_intern (.nameAndType first second))
      fun table second slot hsecond h => ⟨second, hsecond.2, h⟩
  refine (gives_text name).bind hmember ?_
  rintro table first slot hfirst ⟨second, hsecond, h⟩
  rw [ConstantTable.nameAndType, h.2]
  simp only [bind, Except.bind, hfirst.2, hsecond]
  rfl

/-- A class, and a name with a descriptor, that are asked for before what refers to both. -/
theorem gives_member (make : UInt16 → UInt16 → Constant) (owner name descriptor : String) :
    Gives (do
      let owner ← classNamed owner
      let member ← nameAndType name descriptor
      intern (make owner member)) fun table slot => ∃ first second,
        table.className first = .ok owner ∧ table.nameAndType second = .ok (name, descriptor) ∧
          LeadsTo (make first second) table slot := by
  have hmember (first : UInt16) :
      Gives (do intern (make first (← nameAndType name descriptor))) fun table slot =>
        ∃ second, table.nameAndType second = .ok (name, descriptor) ∧
          LeadsTo (make first second) table slot :=
    (gives_nameAndType name descriptor).bind (fun second => gives_intern (make first second))
      fun table second slot hsecond h => ⟨second, hsecond, h⟩
  refine (gives_classNamed owner).bind hmember ?_
  rintro table first slot hfirst ⟨second, hsecond, h⟩
  exact ⟨first, second, hfirst.2, hsecond, h⟩

theorem memberOf_eq {table : ConstantTable} {first second : UInt16}
    {owner name descriptor : String} (isInterface : Bool)
    (hfirst : table.className first = .ok owner)
    (hsecond : table.nameAndType second = .ok (name, descriptor)) :
    table.memberOf first second isInterface = .ok ⟨owner, name, descriptor, isInterface⟩ := by
  unfold ConstantTable.memberOf
  simp only [bind, Except.bind, hfirst, hsecond]
  rfl

theorem gives_field (owner name descriptor : String) :
    Gives (field owner name descriptor) fun table slot =>
      table.member slot = .ok ⟨owner, name, descriptor, false⟩ := by
  refine (gives_member .fieldRef owner name descriptor).weaken ?_
  rintro table slot ⟨first, second, hfirst, hsecond, h⟩
  rw [ConstantTable.member, h.2]
  exact memberOf_eq false hfirst hsecond

theorem gives_method (owner name descriptor : String) (isInterface : Bool) :
    Gives (method owner name descriptor isInterface) fun table slot =>
      table.member slot = .ok ⟨owner, name, descriptor, isInterface⟩ := by
  refine (gives_member (.methodRef · · isInterface) owner name descriptor).weaken ?_
  rintro table slot ⟨first, second, hfirst, hsecond, h⟩
  rw [ConstantTable.member, h.2]
  exact memberOf_eq isInterface hfirst hsecond

/-- The field or the method that a handle names. -/
def handleMember (handle : MethodHandle) : Request UInt16 :=
  if handle.kind.isField then field handle.owner handle.name handle.descriptor
  else method handle.owner handle.name handle.descriptor handle.isInterface

theorem methodHandle_eq (handle : MethodHandle) :
    methodHandle handle =
      handleMember handle >>= fun member => intern (.methodHandle handle.kind member) := by
  unfold methodHandle handleMember
  split <;> rfl

theorem gives_handleMember (handle : MethodHandle) :
    Gives (handleMember handle) fun table slot => table.member slot =
      .ok ⟨handle.owner, handle.name, handle.descriptor, handle.normal.isInterface⟩ := by
  unfold handleMember MethodHandle.normal
  split
  · exact gives_field handle.owner handle.name handle.descriptor
  · exact gives_method handle.owner handle.name handle.descriptor handle.isInterface

/-- A handle is read back in its normal form. -/
theorem gives_methodHandle (handle : MethodHandle) :
    Gives (methodHandle handle) fun table slot =>
      (∃ member, table.get slot = .ok (.methodHandle handle.kind member)) ∧
        table.methodHandle slot = .ok handle.normal := by
  rw [methodHandle_eq]
  refine (gives_handleMember handle).bind
    (fun member => gives_intern (.methodHandle handle.kind member)) ?_
  intro table member slot hmember h
  refine ⟨⟨member, h.2⟩, ?_⟩
  rw [ConstantTable.methodHandle, h.2]
  simp only [bind, Except.bind, hmember]
  unfold MethodHandle.normal
  split <;> rfl

theorem gives_callSite (bootstrap : UInt16) (name descriptor : String) :
    Gives (callSite bootstrap name descriptor) fun table slot =>
      table.callSite slot = .ok ⟨bootstrap, name, descriptor⟩ := by
  refine (gives_nameAndType name descriptor).bind
    (fun member => gives_intern (.invokeDynamic bootstrap member)) ?_
  intro table member slot hmember h
  rw [ConstantTable.callSite, h.2]
  simp only [bind, Except.bind, hmember]
  rfl

/-- A literal is read back in its normal form. -/
theorem gives_literal (value : Literal) :
    Gives (literal value) fun table slot => table.literal slot = .ok value.normal := by
  cases value with
  | int value =>
      refine (gives_intern (.integer value)).weaken fun table slot h => ?_
      rw [ConstantTable.literal, h.2]
      rfl
  | float bits =>
      refine (gives_intern (.float bits)).weaken fun table slot h => ?_
      rw [ConstantTable.literal, h.2]
      rfl
  | long value =>
      refine (gives_intern (.long value)).weaken fun table slot h => ?_
      rw [ConstantTable.literal, h.2]
      rfl
  | double bits =>
      refine (gives_intern (.double bits)).weaken fun table slot h => ?_
      rw [ConstantTable.literal, h.2]
      rfl
  | string contents =>
      refine (gives_text contents).bind (fun text => gives_intern (.string text)) ?_
      intro table text slot htext h
      rw [ConstantTable.literal, h.2]
      simp only [bind, Except.bind, htext.2]
      rfl
  | classRef name =>
      refine (gives_text name).bind (fun text => gives_intern (.classInfo text)) ?_
      intro table text slot htext h
      rw [ConstantTable.literal, h.2]
      simp only [bind, Except.bind, htext.2]
      rfl
  | methodType descriptor =>
      refine (gives_text descriptor).bind (fun text => gives_intern (.methodType text)) ?_
      intro table text slot htext h
      rw [ConstantTable.literal, h.2]
      simp only [bind, Except.bind, htext.2]
      rfl
  | methodHandle handle =>
      refine (gives_methodHandle handle).weaken ?_
      rintro table slot ⟨⟨member, hget⟩, h⟩
      rw [ConstantTable.literal, hget]
      simp only [bind, Except.bind, h]
      rfl

theorem gives_each_go {request : α → Request UInt16} {relation : α → ConstantTable → UInt16 → Prop}
    (gives : ∀ item, Gives (request item) (relation item)) (items : List α)
    (done : List UInt16) :
    Gives (each.go request items done) fun table slots => ∃ more, slots = done.reverse ++ more ∧
      List.Forall₂ (fun item slot => relation item table slot) items more := by
  induction items generalizing done with
  | nil => exact gives_pure done.reverse fun table => ⟨[], by simp, .nil⟩
  | cons item items ih =>
      refine (gives item).bind (fun slot => ih (slot :: done)) ?_
      rintro table slot slots hslot ⟨more, rfl, hmore⟩
      exact ⟨slot :: more, by simp, .cons hslot hmore⟩

/-- Each slot of a list is right for its item. -/
theorem gives_each {request : α → Request UInt16} {relation : α → ConstantTable → UInt16 → Prop}
    (gives : ∀ item, Gives (request item) (relation item)) (items : List α) :
    Gives (each request items) fun table slots =>
      List.Forall₂ (fun item slot => relation item table slot) items slots := by
  refine (gives_each_go gives items []).weaken ?_
  rintro table slots ⟨more, rfl, hmore⟩
  exact hmore

/-- A handle and its normal form are the same request. -/
theorem methodHandle_normal (handle : MethodHandle) :
    methodHandle handle.normal = methodHandle handle := by
  unfold MethodHandle.normal
  split
  · rename_i h
    simp only [methodHandle, h, if_true]
  · rfl

theorem literal_normal (value : Literal) : literal value.normal = literal value := by
  cases value with
  | methodHandle handle => exact methodHandle_normal handle
  | _ => rfl

end Request

end ConstantPool

end JavaClass
