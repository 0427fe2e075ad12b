import Mathlib.Data.List.Chain
import JavaClass.Proofs.Assembly.Parts

/-!
# Runs of requests

A pool is asked for one entry after the other, and goes on after a request that
failed, also if it failed half way. It never holds a constant twice, its index
finds each entry by its bytes and nothing else, the entries follow each other
without gaps from slot 1 on, and a slot that was given once leads to the same
constant for good.

## Implementation notes

A request for a single constant names its parts by slots, whatever is there. A
request for an attribute asks for the name alone; the contents may have failed.
-/

namespace JavaClass

/-- A constant that has bytes: if it is a text, then one of at most 65535 encoded bytes. -/
def Constant.Fits (constant : Constant) : Prop :=
  ∀ text, constant = .utf8 text → (Text.ModifiedUtf8.encode text).length ≤ 65535

theorem Constant.Fits.encode {constant : Constant} (fits : constant.Fits) :
    ∃ key, constant.encode = .ok key := by
  cases constant with
  | utf8 text =>
      have hlength : ¬ countLimit < (Text.ModifiedUtf8.encode text).length :=
        Nat.not_lt_of_le (fits text rfl)
      simp only [Constant.encode, contents, if_neg hlength]
      exact ⟨_, rfl⟩
  | _ => exact ⟨_, rfl⟩

theorem ConstantTable.get_eq_ok_iff {table : ConstantTable} {slot : UInt16}
    {constant : Constant} :
    table.get slot = .ok constant ↔ table.entries.get? slot.toNat = some constant := by
  unfold ConstantTable.get malformed
  cases table.entries.get? slot.toNat with
  | none => simp
  | some found => simp

namespace ConstantPool

/-- A request for an entry. -/
inductive Ask where
  /-- One constant, its parts given by their slots. -/
  | entry (constant : Constant)
  | classNamed (name : String)
  | nameAndType (name descriptor : String)
  | methodHandle (handle : MethodHandle)
  | literal (value : Literal)
  /-- The name of an attribute whose contents are encoded, or could not be. -/
  | attributeName (name : String) (contents : Except Error (List UInt8))

/-- What is asked of the pool. -/
def Ask.request : Ask → Request UInt16
  | .entry constant => Request.intern constant
  | .classNamed name => Request.classNamed name
  | .nameAndType name descriptor => Request.nameAndType name descriptor
  | .methodHandle handle => Request.methodHandle handle
  | .literal value => Request.literal value
  | .attributeName name contents => do return (← Request.named name contents).name

/-- What a request gives, and the pool as the request leaves it, be it answered or refused. -/
def settle {α : Type} (pool : ConstantPool) (request : Request α) :
    Except Error α × ConstantPool :=
  match request pool with
  | .ok value pool => (.ok value, pool)
  | .error error pool => (.error error, pool)

/-- Asks for one entry after the other, also after some were refused. -/
def askAll (pool : ConstantPool) : List Ask → List (Except Error UInt16) × ConstantPool
  | [] => ([], pool)
  | first :: rest =>
      let (answer, pool) := pool.settle first.request
      let (answers, pool) := pool.askAll rest
      (answer :: answers, pool)

variable {pool : ConstantPool}

namespace Request

variable {α β : Type} {ask : Request α} {next : α → Request β}

/-- Answered or refused, the request keeps a pool valid and its entries in place. -/
def Keeps (ask : Request α) : Prop :=
  ∀ pool : ConstantPool, pool.Valid →
    (pool.settle ask).2.Valid ∧ pool.Below (pool.settle ask).2

theorem keeps_pure (value : α) : Keeps (pure value) := fun _ valid => ⟨valid, .refl _⟩

theorem keeps_throw (error : Error) : Keeps (throw error : Request α) :=
  fun _ valid => ⟨valid, .refl _⟩

theorem Keeps.bind (first : Keeps ask) (second : ∀ value, Keeps (next value)) :
    Keeps (ask >>= next) := by
  intro pool valid
  have kept := first pool valid
  simp only [settle, Bind.bind, EStateM.bind] at kept ⊢
  cases hask : ask pool with
  | error error pool' =>
      rw [hask] at kept
      exact kept
  | ok value pool' =>
      rw [hask] at kept
      have kept' := second value pool' kept.1
      exact ⟨kept'.1, kept.2.trans kept'.2⟩

theorem keeps_intern (constant : Constant) : Keeps (intern constant) := by
  intro pool valid
  unfold settle
  cases hintern : intern constant pool with
  | ok slot pool' =>
      obtain ⟨valid', below, -⟩ := gives_intern constant pool slot pool' valid hintern
      exact ⟨valid', below⟩
  | error error pool' =>
      have hsame : pool' = pool := by
        unfold intern at hintern
        split at hintern
        · cases hintern
          rfl
        · split at hintern
          · cases hintern
          · simp only at hintern
            split at hintern <;> cases hintern
            rfl
      subst hsame
      exact ⟨valid, .refl _⟩

theorem keeps_classNamed (name : String) : Keeps (classNamed name) :=
  (keeps_intern _).bind fun _ => keeps_intern _

theorem keeps_nameAndType (name descriptor : String) : Keeps (nameAndType name descriptor) :=
  (keeps_intern _).bind fun _ => (keeps_intern _).bind fun _ => keeps_intern _

/-- A class, and a name with a descriptor, before what refers to both. -/
theorem keeps_member (make : UInt16 → UInt16 → Constant) (owner name descriptor : String) :
    Keeps (do
      let owner ← classNamed owner
      let member ← nameAndType name descriptor
      intern (make owner member)) :=
  (keeps_classNamed owner).bind fun _ =>
    (keeps_nameAndType name descriptor).bind fun _ => keeps_intern _

theorem keeps_field (owner name descriptor : String) : Keeps (field owner name descriptor) :=
  keeps_member .fieldRef owner name descriptor

theorem keeps_method (owner name descriptor : String) (isInterface : Bool) :
    Keeps (method owner name descriptor isInterface) :=
  keeps_member (.methodRef · · isInterface) owner name descriptor

theorem keeps_optionalClass (name : Option String) : Keeps (optionalClass name) := by
  cases name with
  | none => exact keeps_pure 0
  | some name => exact keeps_classNamed name

theorem keeps_callSite (bootstrap : UInt16) (name descriptor : String) :
    Keeps (callSite bootstrap name descriptor) :=
  (keeps_nameAndType name descriptor).bind fun _ => keeps_intern _

theorem keeps_methodHandle (handle : MethodHandle) : Keeps (methodHandle handle) := by
  rw [methodHandle_eq]
  refine Keeps.bind ?_ fun _ => keeps_intern _
  unfold handleMember
  split
  · exact keeps_field _ _ _
  · exact keeps_method _ _ _ _

theorem keeps_literal (value : Literal) : Keeps (literal value) := by
  cases value with
  | int value => exact keeps_intern (.integer value)
  | float bits => exact keeps_intern (.float bits)
  | long value => exact keeps_intern (.long value)
  | double bits => exact keeps_intern (.double bits)
  | string contents => exact (keeps_intern _).bind fun _ => keeps_intern _
  | classRef name => exact keeps_classNamed name
  | methodType descriptor => exact (keeps_intern _).bind fun _ => keeps_intern _
  | methodHandle handle => exact keeps_methodHandle handle

theorem keeps_each {α : Type} {request : α → Request UInt16} (keeps : ∀ item, Keeps (request item))
    (items : List α) : Keeps (each request items) := by
  have hgo (items : List α) (done : List UInt16) : Keeps (each.go request items done) := by
    induction items generalizing done with
    | nil => exact keeps_pure _
    | cons item rest ih => exact (keeps item).bind fun slot => ih (slot :: done)
  exact hgo items []

theorem keeps_named (name : String) (contents : Except Error (List UInt8)) :
    Keeps (named name contents) := by
  refine (keeps_intern _).bind fun slot => ?_
  cases contents with
  | ok contents => exact keeps_pure _
  | error error => exact keeps_throw error

end Request

namespace Ask

open Request

theorem keeps (ask : Ask) : Keeps ask.request := by
  cases ask with
  | entry constant => exact keeps_intern constant
  | classNamed name => exact keeps_classNamed name
  | nameAndType name descriptor => exact keeps_nameAndType name descriptor
  | methodHandle handle => exact keeps_methodHandle handle
  | literal value => exact keeps_literal value
  | attributeName name contents => exact (keeps_named name contents).bind fun _ => keeps_pure _

/-- What is read in a table at the slot that a request gave. -/
def Shows : Ask → ConstantTable → UInt16 → Prop
  | .entry constant, table, slot => table.get slot = .ok constant
  | .classNamed name, table, slot => table.className slot = .ok name
  | .nameAndType name descriptor, table, slot => table.nameAndType slot = .ok (name, descriptor)
  | .methodHandle handle, table, slot => table.methodHandle slot = .ok handle.normal
  | .literal value, table, slot => table.literal slot = .ok value.normal
  | .attributeName name _, table, slot => table.text slot = .ok name

theorem gives (ask : Ask) : Gives ask.request ask.Shows := by
  cases ask with
  | entry constant => exact (gives_intern constant).weaken fun _ _ h => h.2
  | classNamed name => exact (gives_classNamed name).weaken fun _ _ h => h.2
  | nameAndType name descriptor => exact gives_nameAndType name descriptor
  | methodHandle handle => exact (gives_methodHandle handle).weaken fun _ _ h => h.2
  | literal value => exact gives_literal value
  | attributeName name contents =>
      refine (gives_named name contents).bind (fun a => gives_return a.name) ?_
      rintro table a slot ⟨htext, -⟩ rfl
      exact htext

/-- Whatever is read at a slot, there is a constant. -/
theorem Shows.get {ask : Ask} {table : ConstantTable} {slot : UInt16}
    (shows : ask.Shows table slot) : ∃ constant, table.get slot = .ok constant := by
  have hbind {α : Type} {next : Constant → Except Error α} {value : α}
      (h : (table.get slot >>= next) = .ok value) : ∃ constant, table.get slot = .ok constant := by
    cases hget : table.get slot with
    | ok constant => exact ⟨constant, rfl⟩
    | error error => rw [hget] at h; cases h
  cases ask with
  | entry constant => exact ⟨constant, shows⟩
  | classNamed name => exact hbind shows
  | nameAndType name descriptor => exact hbind shows
  | methodHandle handle => exact hbind shows
  | literal value => exact hbind shows
  | attributeName name contents => exact hbind shows

end Ask

theorem settle_eq_ok {α : Type} {request : Request α} {value : α}
    (h : (pool.settle request).1 = .ok value) :
    request pool = .ok value (pool.settle request).2 := by
  unfold settle at h ⊢
  split at h
  · rename_i found pool' heq
    obtain rfl := Except.ok.inj h
    rw [heq]
  · cases h

theorem askAll_cons (pool : ConstantPool) (first : Ask) (rest : List Ask) :
    pool.askAll (first :: rest) =
      ((pool.settle first.request).1 :: ((pool.settle first.request).2.askAll rest).1,
        ((pool.settle first.request).2.askAll rest).2) := rfl

theorem askAll_append (pool : ConstantPool) (before after : List Ask) :
    pool.askAll (before ++ after) =
      ((pool.askAll before).1 ++ ((pool.askAll before).2.askAll after).1,
        ((pool.askAll before).2.askAll after).2) := by
  induction before generalizing pool with
  | nil => rfl
  | cons first rest ih => simp only [List.cons_append, askAll_cons, ih]

/-- A run of requests keeps a pool valid and its entries in place. -/
theorem Valid.askAll (valid : pool.Valid) (asks : List Ask) :
    (pool.askAll asks).2.Valid ∧ pool.Below (pool.askAll asks).2 := by
  induction asks generalizing pool with
  | nil => exact ⟨valid, .refl pool⟩
  | cons first rest ih =>
      obtain ⟨valid', below⟩ := first.keeps pool valid
      obtain ⟨valid'', below'⟩ := ih valid'
      exact ⟨valid'', below.trans below'⟩

/-- The entries are different constants, laid out without gaps from slot 1 on, and the index holds
the bytes of each entry with its slot and nothing else. -/
structure Interned (pool : ConstantPool) : Prop where
  nodup : pool.entries.toList.Nodup
  slots_eq_some_iff : ∀ (key : List UInt8) (slot : UInt16), pool.slots[key]? = some slot ↔
    ∃ constant, constant.encode = .ok key ∧ (slot.toNat, constant) ∈ pool.entries.entries.toList
  complete : ∀ entry ∈ pool.entries.entries.toList,
    ∃ key slot, entry.2.encode = .ok key ∧ slot.toNat = entry.1 ∧ pool.slots[key]? = some slot
  first : ∀ entry ∈ pool.entries.entries.toList.head?, entry.1 = 1
  following : pool.entries.entries.toList.IsChain fun a b => b.1 = a.1 + a.2.width
  next : pool.entries.next = 1 + (pool.entries.toList.map Constant.width).sum
  next_le : pool.entries.next ≤ 65535
  slotCount : pool.slotCount.toNat = pool.entries.next

theorem Valid.interned (valid : pool.Valid) : pool.Interned := by
  obtain ⟨constants, hlaidOut⟩ := valid.laidOut
  have following := SlotVector.isChain_entries 1 constants
  have first := SlotVector.fst_head?_entries 1 constants
  have hnext : ((SlotVector.startingAt 1).append constants).next =
      1 + (constants.map Constant.width).sum := SlotVector.next_append _ _
  have hlist : pool.entries.toList = constants := by
    rw [hlaidOut, SlotVector.toList_append]
    rfl
  rw [← hlaidOut] at following first hnext
  have hle := valid.next_le
  simp only [countLimit] at hle
  -- a constant has one form, and a form has one slot
  have unique {start start' : Nat} {constant : Constant}
      (h : (start, constant) ∈ pool.entries.entries.toList)
      (h' : (start', constant) ∈ pool.entries.entries.toList) : start = start' := by
    obtain ⟨key, hkey, hslot⟩ := valid.complete h
    obtain ⟨key', hkey', hslot'⟩ := valid.complete h'
    obtain rfl : key = key' := Except.ok.inj (hkey.symm.trans hkey')
    have heq := Option.some.inj (hslot.symm.trans hslot')
    rw [← (valid.toNat_start h).1, ← (valid.toNat_start h').1, heq]
  exact {
    nodup := by
      refine List.pairwise_map.mpr (valid.strict.1.imp_of_mem ?_)
      rintro ⟨start, constant⟩ ⟨start', constant'⟩ h h' hlt rfl
      exact Nat.ne_of_lt hlt (unique h h')
    slots_eq_some_iff := by
      intro key slot
      constructor
      · exact valid.sound
      · rintro ⟨constant, hkey, hmem⟩
        obtain ⟨key', hkey', hslot⟩ := valid.complete hmem
        obtain rfl : key' = key := Except.ok.inj (hkey'.symm.trans hkey)
        rw [hslot, UInt16.ofNat_toNat]
    complete := by
      rintro ⟨start, constant⟩ hmem
      obtain ⟨key, hkey, hslot⟩ := valid.complete hmem
      exact ⟨key, _, hkey, (valid.toNat_start hmem).1, hslot⟩
    first
    following
    next := by rw [hlist]; exact hnext
    next_le := hle
    slotCount := UInt16.toNat_ofNat_of_lt' (by change _ < 65536; omega) }

/-- Asking for one constant finds its entry, or adds one behind the last if there is room. -/
structure AnswersOne (pool : ConstantPool) : Prop where
  present : ∀ entry ∈ pool.entries.entries.toList, ∃ slot, slot.toNat = entry.1 ∧
    Request.intern entry.2 pool = .ok slot pool
  overflow_iff : ∀ constant, constant.Fits → constant ∉ pool.entries.toList →
    (Request.intern constant pool = .error (.poolOverflow constant pool.slotCount) pool ↔
      65535 < pool.slotCount.toNat + constant.width)
  added : ∀ constant, constant.Fits → constant ∉ pool.entries.toList →
    pool.slotCount.toNat + constant.width ≤ 65535 →
      ∃ pool', Request.intern constant pool = .ok pool.slotCount pool' ∧
        pool'.entries.entries.toList =
          pool.entries.entries.toList ++ [(pool.slotCount.toNat, constant)]

/-- A new constant is added exactly if it leaves room for the count. -/
theorem Interned.intern_new (interned : pool.Interned) {constant : Constant}
    (fits : constant.Fits) (new : constant ∉ pool.entries.toList) :
    ∃ key, Request.intern constant pool =
      if 65535 < pool.slotCount.toNat + constant.width then
        .error (.poolOverflow constant pool.slotCount) pool
      else
        .ok pool.slotCount
          ⟨pool.entries.push constant, pool.slots.insert key pool.slotCount⟩ := by
  obtain ⟨key, hkey⟩ := fits.encode
  have habsent : pool.slots[key]? = none := by
    rw [Option.eq_none_iff_forall_ne_some]
    intro slot hslot
    obtain ⟨other, hother, hmem⟩ := (interned.slots_eq_some_iff key slot).mp hslot
    obtain rfl := Constant.encode_injective hother hkey
    exact new (List.mem_map_of_mem hmem)
  refine ⟨key, ?_⟩
  rw [interned.slotCount]
  simp only [Request.intern, hkey, habsent]
  rfl

theorem Valid.answersOne (valid : pool.Valid) : pool.AnswersOne := by
  have interned := valid.interned
  exact {
    present := by
      rintro ⟨start, constant⟩ hmem
      obtain ⟨htoNat, -⟩ := valid.toNat_start hmem
      exact ⟨UInt16.ofNat start, htoNat, valid.intern_of_mem (htoNat.symm ▸ hmem)⟩
    overflow_iff := by
      intro constant fits new
      obtain ⟨key, hintern⟩ := interned.intern_new fits new
      rw [hintern]
      split <;> simp_all
    added := by
      intro constant fits new hroom
      obtain ⟨key, hintern⟩ := interned.intern_new fits new
      rw [if_neg (Nat.not_lt_of_le hroom)] at hintern
      exact ⟨_, hintern, by simp [SlotVector.push, interned.slotCount]⟩ }

/-- Whatever was asked for before, also in part: the entries are different constants without gaps
between them, the index holds the bytes of each entry with its slot and nothing else, one constant
is found or added as long as there is room, and a slot that was given leads to the same constant
ever after, to the one that was asked for if it was asked for by itself. -/
theorem askAll_interns (asks : List Ask) :
    (empty.askAll asks).2.Interned ∧ (empty.askAll asks).2.AnswersOne ∧
      ∀ before ask after slot, asks = before ++ ask :: after →
        ((empty.askAll before).2.settle ask.request).1 = .ok slot →
          ∃ constant, ((empty.askAll before).2.settle ask.request).2.entries.get? slot.toNat =
              some constant ∧
            (empty.askAll asks).2.entries.get? slot.toNat = some constant ∧
            ∀ wanted, ask = .entry wanted → constant = wanted := by
  obtain ⟨valid, -⟩ := valid_empty.askAll asks
  refine ⟨valid.interned, valid.answersOne, ?_⟩
  rintro before ask after slot rfl hanswer
  obtain ⟨valid₀, -⟩ := valid_empty.askAll before
  rw [askAll_append, askAll_cons] at valid ⊢
  generalize (empty.askAll before).2 = pool at hanswer valid valid₀ ⊢
  obtain ⟨valid₁, -, hshows, -⟩ := ask.gives pool slot _ valid₀ (settle_eq_ok hanswer)
  have shows := hshows _ valid₁.within_self
  obtain ⟨constant, hget⟩ := shows.get
  have hfound := ConstantTable.get_eq_ok_iff.mp hget
  obtain ⟨-, below⟩ := valid₁.askAll after
  refine ⟨constant, hfound, ?_, ?_⟩
  · exact SlotVector.get?_of_mem valid.strict.1 (below (SlotVector.mem_of_get? hfound))
  · rintro wanted rfl
    exact Except.ok.inj (hget.symm.trans shows)

/-- Not-a-number payloads stay apart, and so do methods and interface methods. -/
example :
    (empty.askAll [.literal (.float 0x7fc00000), .entry (.methodRef 1 2 false),
      .literal (.float 0x7fc00001), .entry (.methodRef 1 2 true),
      .entry (.float 0x7fc00000)]).1 = [.ok 1, .ok 2, .ok 3, .ok 4, .ok 1] := rfl

end ConstantPool

end JavaClass
