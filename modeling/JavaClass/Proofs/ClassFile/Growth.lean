import JavaClass.Proofs.ClassFile.Extent
import JavaClass.Proofs.ClassDef.Stability

/-!
# Class files with more bytes behind them

A class file that is told without a failure is told in the same way when more
bytes follow it. Everything that it tells was read from where it says that it
stands, and none of these readings looks at how many bytes there are.
-/

namespace JavaClass

open Bytecode

namespace Bytes

variable {α β : Type}

/-- What the reading gives for some bytes, it gives for all bytes that begin with them. -/
def Persists (read : Bytes → Except Error α) : Prop :=
  ∀ (bytes more : Bytes) (a : α), read bytes = .ok a → read (bytes ++ more) = .ok a

/-- A reading persists if it only goes as far as it needs. -/
theorem persists_of_reaches {read : Bytes → Except Error α}
    (reaches : ∀ (bytes : Bytes) a, read bytes = .ok a →
      ∃ start stop, start ≤ bytes.size ∧ bytes.Reaches read a start stop) : Persists read := by
  intro bytes more a found
  obtain ⟨start, stop, le, h⟩ := reaches bytes a found
  exact h.agrees _ (upTo_append bytes more (h.stop_le found le))

theorem persists_const (result : Except Error α) : Persists fun _ => result :=
  fun _ _ _ found => found

theorem Persists.bind {read : Bytes → Except Error α} {next : Bytes → α → Except Error β}
    (first : Persists read) (rest : ∀ a, Persists fun bytes => next bytes a) :
    Persists fun bytes => read bytes >>= next bytes := by
  intro bytes more b found
  obtain ⟨a, hfirst, hrest⟩ := exceptBind_eq_ok_iff.mp found
  exact exceptBind_eq_ok_iff.mpr ⟨a, first bytes more a hfirst, rest a bytes more b hrest⟩

theorem Persists.map {read : Bytes → Except Error α} (h : Persists read) (f : α → β) :
    Persists fun bytes => (read bytes).map f := by
  intro bytes more b found
  obtain ⟨a, hread, rfl⟩ := exceptMap_eq_ok_iff.mp found
  exact exceptMap_eq_ok_iff.mpr ⟨a, h bytes more a hread, rfl⟩

theorem persists_mapM {read : Bytes → β → Except Error α} {places : List β}
    (each : ∀ place ∈ places, Persists fun bytes => read bytes place) :
    Persists fun bytes => places.mapM (read bytes) := by
  intro bytes more items found
  rw [mapM_eq_ok_iff] at found ⊢
  induction found with
  | nil => exact .nil
  | cons first _ ih =>
      obtain ⟨here, others⟩ := List.forall_mem_cons.mp each
      exact .cons (here bytes more _ first) (ih others)

theorem persists_u16 (index : Nat) : Persists (·.u16 index) :=
  persists_of_reaches fun _ _ found => ⟨0, _, Nat.zero_le _, reaches_u16 found (Nat.zero_le _)⟩

/-- The name or value at the slot that stands at an index. -/
theorem persists_lookUp (find : UInt16 → Except Error α) (index : Nat) :
    Persists fun bytes => (do find (← bytes.u16 index)) :=
  (persists_u16 index).bind fun _ => persists_const _

end Bytes

namespace ClassFile

open Bytes

variable {file : ClassFile} {extents : ClassLayout}

theorem persists_version (index : Nat) : Persists (Version.read · index) := by
  unfold Version.read
  apply (persists_u16 index).bind
  intro minor
  apply (persists_u16 (index + 2)).bind
  intro major
  exact persists_const _

theorem persists_opening : Persists opening :=
  persists_of_reaches fun _ _ found => ⟨0, _, Nat.zero_le _, reaches_opening found⟩

theorem persists_classNames (file : ClassFile) (index : Nat) :
    Persists fun bytes => (file.withBytes bytes).classNames index := by
  apply persists_of_reaches
  intro bytes names found
  exact ⟨0, _, Nat.zero_le _, reaches_classNames found (Nat.zero_le _)⟩

theorem persists_header (file : ClassFile) :
    Persists fun bytes => (file.withBytes bytes).header := by
  unfold header interfaces name flags superName
  apply (file.persists_classNames (file.headerStart + 6)).bind
  intro interfaces
  apply (persists_lookUp file.constants.className (file.headerStart + 2)).bind
  intro name
  apply ((persists_u16 file.headerStart).map _).bind
  intro flags
  apply (persists_lookUp file.constants.optionalClassName (file.headerStart + 4)).bind
  intro super
  exact persists_const
    (.ok (Event.header file.version flags name super interfaces, interfaces.length))

theorem persists_readCounted {α : Type} (read : ClassFile → Nat → Except Error (α × Nat))
    (reaches : ∀ (file : ClassFile) i item next, read file i = .ok (item, next) →
      file.bytes.Reaches (fun bytes => read (file.withBytes bytes) i) (item, next) i next)
    (file : ClassFile) (index : Nat) : Persists fun bytes =>
      (file.withBytes bytes).readCounted (read (file.withBytes bytes)) index := by
  apply persists_of_reaches
  rintro bytes ⟨items, stop⟩ found
  exact ⟨0, stop, Nat.zero_le _,
    reaches_readCounted read (reaches (file.withBytes bytes)) found (Nat.zero_le _)⟩

theorem persists_layout (file : ClassFile) (interfaceCount : Nat) :
    Persists fun bytes => (file.withBytes bytes).layout interfaceCount := by
  have readMembers (index : Nat) :
      Persists fun bytes => (file.withBytes bytes).readMembers index :=
    persists_readCounted readMember (fun _ _ _ _ => reaches_readMember) file index
  unfold layout
  apply (readMembers (file.headerStart + 8 + 2 * interfaceCount)).bind
  rintro ⟨fields, methodStart⟩
  apply (readMembers methodStart).bind
  rintro ⟨methods, attributeStart⟩
  apply (persists_readCounted readAttribute (fun _ _ _ _ => reaches_readAttribute) file _).bind
  rintro ⟨attributes, stop⟩
  exact persists_const _

theorem persists_readBootstraps (file : ClassFile) (range : AttributeRange) :
    Persists fun bytes => (file.withBytes bytes).readBootstraps range :=
  (persists_readCounted readBootstrap (fun _ _ _ _ found => (reaches_readBootstrap found).2) file
    range.start).bind fun _ => persists_const _

theorem persists_readField (file : ClassFile) (member : MemberRange) :
    Persists fun bytes => (file.withBytes bytes).readField member := by
  unfold readField
  apply (persists_u16 _).bind
  intro flags
  apply (persists_u16 _).bind
  intro nameSlot
  apply (persists_const (file.constants.text nameSlot)).bind
  intro name
  apply (persists_u16 _).bind
  intro descriptorSlot
  apply (persists_const (file.constants.text descriptorSlot)).bind
  intro descriptor
  split
  · exact persists_const _
  · apply (persists_u16 _).bind
    intro valueSlot
    apply (persists_const (file.constants.literal valueSlot)).bind
    intro value
    exact persists_const _

theorem persists_readMethod (file : ClassFile) (member : MemberRange) :
    Persists fun bytes => (file.withBytes bytes).readMethod member := by
  unfold readMethod
  apply (persists_u16 _).bind
  intro flags
  apply (persists_u16 _).bind
  intro nameSlot
  apply (persists_const (file.constants.text nameSlot)).bind
  intro name
  apply (persists_u16 _).bind
  intro descriptorSlot
  apply (persists_const (file.constants.text descriptorSlot)).bind
  intro descriptor
  apply (persists_mapM fun range _ => file.persists_classNames range.start).bind
  intro exceptions
  exact persists_const _

theorem persists_readBody (file : ClassFile) (range : AttributeRange) :
    Persists fun bytes => (file.withBytes bytes).readBody range := by
  apply persists_of_reaches
  intro bytes body found
  have reads := readBody_eq_ok_iff.mp found
  obtain ⟨nested, stop, parts, tables⟩ := reads.exists_tables
  have bound : range.start + 2 ≤ bytes.size := Bytes.bound_of_u16 reads.maxStack
  exact ⟨range.start, _, by omega, reaches_readBody reads tables⟩

/-- The same file with more bytes behind it. -/
def followedBy (file : ClassFile) (more : Bytes) : ClassFile :=
  file.withBytes (file.bytes ++ more)

theorem read_append {bytes : Bytes} (h : ClassFile.read bytes = .ok file) (more : Bytes) :
    ClassFile.read (bytes ++ more) = .ok (file.followedBy more) := by
  obtain ⟨rfl, hopening⟩ := opening_of_read h
  rw [read_eq_map, persists_opening _ more _ hopening]
  rfl

theorem tellClassAttribute_followedBy {range : AttributeRange} {events : List Event}
    (h : file.tellClassAttribute range = .tell events) (more : Bytes) :
    (file.followedBy more).tellClassAttribute range = .tell events := by
  unfold tellClassAttribute at h ⊢
  split
  · rename_i hname
    rw [if_pos hname, Transcript.withResult_eq_tell_iff] at h
    obtain ⟨text, found, h⟩ := h
    exact Transcript.withResult_eq_tell_iff.mpr
      ⟨text, persists_lookUp file.constants.text _ _ more _ found, h⟩
  · rename_i hname
    rw [if_neg hname] at h
    split
    · rename_i htable
      rw [if_pos htable, Transcript.withResult_eq_tell_iff] at h
      obtain ⟨entries, found, h⟩ := h
      exact Transcript.withResult_eq_tell_iff.mpr
        ⟨entries, file.persists_readBootstraps range _ more _ found, h⟩
    · rename_i htable
      rwa [if_neg htable] at h

theorem bootstraps_followedBy {attributes : List AttributeRange} {events : List Event}
    (h : Transcript.concat (attributes.map file.tellClassAttribute) = .tell events)
    (more : Bytes) :
    (file.followedBy more).bootstraps attributes = file.bootstraps attributes := by
  unfold bootstraps
  cases hlast : (attributes.filter (·.name = "BootstrapMethods")).getLast? with
  | none => rfl
  | some range =>
      obtain ⟨entries, found⟩ := exists_readBootstraps h (List.mem_of_getLast? hlast)
      have found' : (file.followedBy more).readBootstraps range = .ok entries :=
        file.persists_readBootstraps range _ more _ found
      simp only [found, found']

theorem TellsMethod.followedBy {bootstraps : Array Bootstrap} {story : MethodStory}
    {member : MemberRange} (tells : file.TellsMethod bootstraps story member) (more : Bytes) :
    (file.followedBy more).TellsMethod bootstraps story member where
  header := file.persists_readMethod member _ more _ tells.header
  code := by
    have code := tells.code
    generalize story.code = listing at code
    cases code with
    | absent missing => exact .absent missing
    | told found reads shows proper =>
        exact .told found (file.persists_readBody _ _ more _ reads) shows proper

/-- A file tells the same story when more bytes follow it. -/
theorem Tells.followedBy {story : ClassStory} (tells : file.Tells extents story) (more : Bytes) :
    (file.followedBy more).Tells extents story where
  header := file.persists_header _ more _ tells.header
  layout := file.persists_layout _ _ more _ tells.layout
  sources := by
    rw [← tells.sources]
    refine congrArg _ (List.map_congr_left fun range mem => ?_)
    obtain ⟨part, told⟩ := Transcript.tell_of_concat tells.sources mem
    rw [told, tellClassAttribute_followedBy told more]
  fields := tells.fields.imp fun _ member found =>
    file.persists_readField member _ more _ found
  methods := by
    rw [bootstraps_followedBy tells.sources more]
    exact tells.methods.imp fun _ _ told => told.followedBy more

end ClassFile

/-- A definition is decoded from all bytes that begin with a class file that it is decoded from. -/
theorem ClassDef.decode_append {bytes : Bytes} {c : ClassDef} (h : decode bytes = .ok c)
    (more : Bytes) : decode (bytes ++ more) = .ok c := by
  obtain ⟨file, p, hread, hbuilt, hdeliver⟩ := exists_deliver_of_decode h
  have htell : file.transcript = .tell file.transcript.events :=
    Transcript.eq_tell_of_failure (Receiver.deliver_eq_ok_iff.mp hdeliver).1
  obtain ⟨extents, story, tells, hevents⟩ := ClassFile.transcript_eq_tell_iff.mp htell
  have htell' : (file.followedBy more).transcript = file.transcript := by
    rw [htell]
    exact ClassFile.transcript_eq_tell_iff.mpr ⟨extents, story, tells.followedBy more, hevents⟩
  unfold decode
  rw [ClassFile.read_append hread more]
  simp only [bind, Except.bind]
  rw [htell', hbuilt]

end JavaClass
