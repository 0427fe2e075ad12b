import JavaClass.ClassFile.Transcript
import JavaClass.Proofs.ClassFile.Records
import JavaClass.Proofs.Event.Story

/-!
# Stories of class files

A class file that is told without a failure tells a story. Which story it is
can be read off its header, its members and its class attributes one by one.

## Implementation notes

The equivalences serve two ends. Whatever a file tells is put together from the
stories of its members, and a file whose members are known tells them.
-/

namespace JavaClass

open Bytecode Transcript

namespace ClassFile

variable {file : ClassFile} {bootstraps : Array Bootstrap} {member : MemberRange}
  {events : List Event}

/-- The event of a field. -/
def fieldEvent (field : FieldDef) : Event :=
  .field field.flags field.name field.descriptor field.value

theorem tellField_eq_tell_iff :
    file.tellField member = Transcript.tell events ↔
      ∃ field, file.readField member = .ok (fieldEvent field) ∧ events = field.events := by
  rw [tellField, withResult_eq_tell_iff]
  constructor
  · rintro ⟨event, hevent, h⟩
    obtain ⟨field, rfl⟩ : ∃ field, event = fieldEvent field := by
      unfold readField at hevent
      obtain ⟨flags, -, hevent⟩ := exceptBind_eq_ok_iff.mp hevent
      obtain ⟨_, -, hevent⟩ := exceptBind_eq_ok_iff.mp hevent
      obtain ⟨name, -, hevent⟩ := exceptBind_eq_ok_iff.mp hevent
      obtain ⟨_, -, hevent⟩ := exceptBind_eq_ok_iff.mp hevent
      obtain ⟨descriptor, -, hevent⟩ := exceptBind_eq_ok_iff.mp hevent
      split at hevent
      · exact ⟨⟨.ofBits _ flags, name, descriptor, none⟩, (Except.ok.inj hevent).symm⟩
      · obtain ⟨_, -, hevent⟩ := exceptBind_eq_ok_iff.mp hevent
        obtain ⟨value, -, hevent⟩ := exceptBind_eq_ok_iff.mp hevent
        exact ⟨⟨.ofBits _ flags, name, descriptor, some value⟩, (Except.ok.inj hevent).symm⟩
    exact ⟨field, hevent, (tell_inj h).symm⟩
  · rintro ⟨field, hfield, rfl⟩
    exact ⟨_, hfield, rfl⟩

/-- The code of a method is told as a listing, or there is none to tell. -/
inductive TellsCode (file : ClassFile) (bootstraps : Array Bootstrap) (member : MemberRange) :
    Option (Listing LabelToken) → Prop where
  | absent (missing : member.attributes.find? (·.name = "Code") = none) :
      TellsCode file bootstraps member none
  | told {range : AttributeRange} {body : BodyRecord} {o : Outline}
      (found : member.attributes.find? (·.name = "Code") = some range)
      (reads : file.readBody range = .ok body)
      (shows : body.Shows file.constants bootstraps o) (proper : o.Proper) :
      TellsCode file bootstraps member (some (o.arrange.map body.tokenAt))

theorem tellCode_eq_tell_iff :
    file.tellCode bootstraps member = Transcript.tell events ↔
      ∃ code, file.TellsCode bootstraps member code ∧ events = code.elim [] Listing.events := by
  unfold tellCode
  constructor
  · intro h
    cases hfound : member.attributes.find? (·.name = "Code") with
    | none =>
        simp only [hfound] at h
        exact ⟨none, .absent hfound, done_eq_tell_iff.mp h⟩
    | some range =>
        simp only [hfound] at h
        obtain ⟨body, hread, htell⟩ := withResult_eq_tell_iff.mp h
        have reads := readBody_eq_ok_iff.mp hread
        obtain ⟨sorted, regular⟩ := reads.sorted
        obtain ⟨o, shows, proper⟩ := exists_shows sorted reads.small reads.placeable
          (fun item hitem i hi => ((regular item hitem).tells hi).1) htell
        refine ⟨_, .told hfound hread shows proper, ?_⟩
        exact tell_inj (htell.symm.trans (tellBody_eq shows proper))
  · rintro ⟨code, tells, rfl⟩
    cases tells with
    | absent missing =>
        simp only [missing]
        rfl
    | told found reads shows proper =>
        simp only [found]
        rw [reads]
        exact tellBody_eq shows proper

/-- A method of a file is told. -/
structure TellsMethod (file : ClassFile) (bootstraps : Array Bootstrap) (story : MethodStory)
    (member : MemberRange) : Prop where
  header : file.readMethod member =
    .ok ⟨story.flags, story.name, story.descriptor, story.exceptions⟩
  code : file.TellsCode bootstraps member story.code

theorem tellMethod_eq_tell_iff :
    file.tellMethod bootstraps member = Transcript.tell events ↔
      ∃ story, file.TellsMethod bootstraps story member ∧ events = story.events := by
  rw [tellMethod, withResult_eq_tell_iff]
  constructor
  · rintro ⟨header, hheader, h⟩
    obtain ⟨_, _, hfirst, hrest, rfl⟩ := andThen_eq_tell_iff.mp h
    obtain ⟨_, _, hcode, hend, rfl⟩ := andThen_eq_tell_iff.mp hrest
    obtain ⟨code, tells, rfl⟩ := tellCode_eq_tell_iff.mp (mapFailure_eq_tell_iff.mp hcode)
    refine ⟨⟨header.flags, header.name, header.descriptor, header.exceptions, code⟩,
      ⟨hheader, tells⟩, ?_⟩
    rw [← tell_inj hfirst, ← tell_inj hend]
    rfl
  · rintro ⟨story, ⟨hheader, tells⟩, rfl⟩
    refine ⟨_, hheader, ?_⟩
    have hcode := tellCode_eq_tell_iff.mpr ⟨_, tells, rfl⟩
    rw [mapFailure_eq_tell_iff.mpr hcode]
    simp [Transcript.tell, andThen, MethodStory.events]

/-- Attributes of a class tell nothing but source files. -/
theorem tellClassAttribute_eq_tell {range : AttributeRange}
    (h : file.tellClassAttribute range = Transcript.tell events) :
    ∃ sources : List String, events = sources.map .source := by
  unfold tellClassAttribute at h
  split at h
  · obtain ⟨text, -, h⟩ := withResult_eq_tell_iff.mp h
    exact ⟨[text], (tell_inj h).symm⟩
  · split at h
    · obtain ⟨_, -, h⟩ := withResult_eq_tell_iff.mp h
      exact ⟨[], done_eq_tell_iff.mp h⟩
    · exact ⟨[], done_eq_tell_iff.mp h⟩

theorem exists_sources {attributes : List AttributeRange}
    (h : concat (attributes.map file.tellClassAttribute) = Transcript.tell events) :
    ∃ sources : List String, events = sources.map .source := by
  induction attributes generalizing events with
  | nil => exact ⟨[], done_eq_tell_iff.mp h⟩
  | cons range rest ih =>
      rw [List.map_cons, concat_cons] at h
      obtain ⟨_, _, hfirst, hrest, rfl⟩ := andThen_eq_tell_iff.mp h
      obtain ⟨first, rfl⟩ := tellClassAttribute_eq_tell hfirst
      obtain ⟨others, rfl⟩ := ih hrest
      exact ⟨first ++ others, List.map_append.symm⟩

/-- The event of a header. -/
def headerEvent (story : ClassStory) : Event :=
  .header story.version story.flags story.name story.super story.interfaces

theorem header_eq_ok {event : Event} {count : Nat} (h : file.header = .ok (event, count)) :
    ∃ flags name super interfaces,
      event = .header file.version flags name super interfaces ∧ count = interfaces.length := by
  unfold header at h
  obtain ⟨interfaces, -, h⟩ := exceptBind_eq_ok_iff.mp h
  obtain ⟨name, -, h⟩ := exceptBind_eq_ok_iff.mp h
  obtain ⟨flags, -, h⟩ := exceptBind_eq_ok_iff.mp h
  obtain ⟨super, -, h⟩ := exceptBind_eq_ok_iff.mp h
  obtain ⟨rfl, rfl⟩ := Prod.mk.inj (Except.ok.inj h)
  exact ⟨flags, name, super, interfaces, rfl, rfl⟩

/-- A class file tells a story. -/
structure Tells (file : ClassFile) (extents : ClassLayout) (story : ClassStory) : Prop where
  header : file.header = .ok (headerEvent story, story.interfaces.length)
  layout : file.layout story.interfaces.length = .ok extents
  sources : concat (extents.attributes.map file.tellClassAttribute) =
    Transcript.tell (story.sources.map .source)
  fields : List.Forall₂ (fun field member => file.readField member = .ok (fieldEvent field))
    story.fields extents.fields
  methods : List.Forall₂ (file.TellsMethod (file.bootstraps extents.attributes)) story.methods
    extents.methods

theorem Tells.version {extents : ClassLayout} {story : ClassStory}
    (tells : file.Tells extents story) : story.version = file.version := by
  obtain ⟨flags, name, super, interfaces, hevent, -⟩ := header_eq_ok tells.header
  exact (Event.header.inj hevent).1

/-- A file is told without a failure exactly if it tells a story. -/
theorem transcript_eq_tell_iff :
    file.transcript = Transcript.tell events ↔
      ∃ extents story, file.Tells extents story ∧ events = story.events := by
  rw [transcript, withResult_eq_tell_iff]
  constructor
  · rintro ⟨⟨event, count⟩, hheader, h⟩
    obtain ⟨_, _, hevent, hbody, rfl⟩ := andThen_eq_tell_iff.mp h
    obtain ⟨extents, hlayout, hparts⟩ := withResult_eq_tell_iff.mp hbody
    obtain ⟨_, _, hattributes, hmembers, rfl⟩ := andThen_eq_tell_iff.mp hparts
    obtain ⟨_, _, hfieldEvents, hothers, rfl⟩ := andThen_eq_tell_iff.mp hmembers
    obtain ⟨_, _, hmethodEvents, hend, rfl⟩ := andThen_eq_tell_iff.mp hothers
    obtain ⟨sources, rfl⟩ := exists_sources hattributes
    obtain ⟨fields, hfields, rfl⟩ :=
      (concat_map_eq_tell_iff fun _ _ => tellField_eq_tell_iff).mp hfieldEvents
    obtain ⟨methods, hmethods, rfl⟩ :=
      (concat_map_eq_tell_iff fun _ _ => tellMethod_eq_tell_iff).mp hmethodEvents
    obtain ⟨flags, name, super, interfaces, rfl, rfl⟩ := header_eq_ok hheader
    refine ⟨extents, ⟨file.version, flags, name, super, interfaces, sources, fields, methods⟩,
      ⟨hheader, hlayout, hattributes, hfields, hmethods⟩, ?_⟩
    rw [← tell_inj hevent, ← tell_inj hend]
    rfl
  · rintro ⟨extents, story, tells, rfl⟩
    refine ⟨_, tells.header, ?_⟩
    have hfields := (concat_map_eq_tell_iff fun _ _ => tellField_eq_tell_iff).mpr
      ⟨_, tells.fields, rfl⟩
    have hmethods := (concat_map_eq_tell_iff fun _ _ => tellMethod_eq_tell_iff).mpr
      ⟨_, tells.methods, rfl⟩
    simp only
    rw [tells.layout, withResult, tells.sources, hfields, hmethods]
    simp [Transcript.tell, andThen, ClassStory.events, headerEvent]

end ClassFile

/-- A bootstrap method was read for a call. -/
structure Bootstrap.Reads (table : ConstantTable) (entry : Bootstrap) (call : BootstrapCall) :
    Prop where
  method : table.methodHandle entry.method = .ok call.1
  arguments : entry.arguments.mapM table.literal = .ok call.2

/-- The bytes of an entry of a bootstrap table. -/
def Bootstrap.size (entry : Bootstrap) : Nat :=
  4 + 2 * entry.arguments.length

namespace ClassFile

variable {file : ClassFile} {bootstraps : Array Bootstrap} {member : MemberRange}

/-- Code is told in an arrangement of regular instructions. -/
theorem TellsCode.arranged {listing : Listing LabelToken}
    (tells : file.TellsCode bootstraps member (some listing)) :
    ∃ o, listing.Arranged o ∧ ∀ i ∈ o.instructions, i.Documented := by
  cases tells with
  | @told range body o found hread shows proper =>
      have reads := readBody_eq_ok_iff.mp hread
      refine ⟨o, reads.arranged shows proper, fun i hi => ?_⟩
      obtain ⟨item, hitem, htells⟩ := exists_right
        (List.forall₂_map_left_iff.mp shows.reads.instructions) hi
      rw [← Instruction.documented_map body.startAt]
      exact ((reads.sorted.2 item hitem).tells htells).2

/-- Every instruction that is told was decoded from code. -/
theorem TellsCode.exists_item {listing : Listing LabelToken}
    (tells : file.TellsCode bootstraps member (some listing)) {i : Instruction LabelToken}
    (hi : i ∈ listing.instructions) (coded : i.isPseudo = false) :
    ∃ range body, member.attributes.find? (·.name = "Code") = some range ∧
      file.readBody range = .ok body ∧ ∃ item ∈ body.instructions, ∃ source : Instruction Nat,
        i = source.map body.tokenAt ∧
          item.2.Tells file.constants bootstraps (source.map body.startAt) := by
  cases tells with
  | @told range body o found read shows proper =>
      obtain ⟨source, hsource, rfl⟩ := List.mem_map.mp hi
      rw [Instruction.isPseudo_map] at coded
      obtain ⟨item, hitem, told⟩ := exists_right
        (List.forall₂_map_left_iff.mp shows.reads.instructions)
        (Outline.mem_of_mem_arrange proper hsource coded)
      exact ⟨range, body, found, read, item, hitem, source, rfl, told⟩

/-- Every call in code names a bootstrap method of the class. -/
theorem TellsCode.calls {listing : Listing LabelToken}
    (tells : file.TellsCode bootstraps member (some listing)) {i : Instruction LabelToken}
    (hi : i ∈ listing.instructions) {call : BootstrapCall} (hcall : call ∈ i.calls) :
    ∃ entry ∈ bootstraps.toList, entry.Reads file.constants call := by
  obtain ⟨range, body, -, read, item, hitem, source, rfl, told⟩ :=
    tells.exists_item hi (Instruction.isPseudo_of_mem_calls hcall)
  rw [Instruction.calls_map, ← Instruction.calls_map body.startAt] at hcall
  have regular := (readBody_eq_ok_iff.mp read).sorted.2 item hitem
  obtain ⟨entry, hentry, hmethod, harguments⟩ := regular.tells_call told hcall
  exact ⟨entry, hentry, hmethod, harguments⟩

/-- Every call in a class names one of its bootstrap methods. -/
theorem Tells.calls {extents : ClassLayout} {story : ClassStory} (tells : file.Tells extents story)
    {call : BootstrapCall} (h : call ∈ story.calls) :
    ∃ entry ∈ (file.bootstraps extents.attributes).toList, entry.Reads file.constants call := by
  obtain ⟨method, hmethod, hcall⟩ := List.mem_flatMap.mp h
  obtain ⟨member, -, hmember⟩ := exists_right tells.methods hmethod
  unfold MethodStory.calls at hcall
  cases hcode : method.code with
  | none =>
      rw [hcode] at hcall
      cases hcall
  | some listing =>
      rw [hcode] at hcall
      obtain ⟨i, hi, hcall⟩ := List.mem_flatMap.mp hcall
      have hcodeTells := hmember.code
      rw [hcode] at hcodeTells
      exact hcodeTells.calls hi hcall

theorem sum_of_readBootstraps {range : AttributeRange} {entries : List Bootstrap}
    (h : file.readBootstraps range = .ok entries) :
    2 + (entries.map Bootstrap.size).sum ≤ file.bytes.size := by
  unfold readBootstraps at h
  obtain ⟨⟨found, stop⟩, hcounted, h⟩ := exceptBind_eq_ok_iff.mp h
  obtain rfl := Except.ok.inj h
  unfold readCounted at hcounted
  obtain ⟨count, hcount, hrun⟩ := exceptBind_eq_ok_iff.mp hcounted
  have hsum := @sum_of_readRun _ _ _ Bootstrap.size file.bytes.size _ _ ?_
    (Bytes.bound_of_u16 hcount) _ _ hrun
  · obtain ⟨more, rfl, hsum⟩ := hsum
    omega
  · intro i entry next hentry
    obtain ⟨method, -, hentry⟩ := exceptBind_eq_ok_iff.mp hentry
    obtain ⟨n, hn, hentry⟩ := exceptBind_eq_ok_iff.mp hentry
    obtain ⟨arguments, harguments, hentry⟩ := exceptBind_eq_ok_iff.mp hentry
    obtain ⟨rfl, rfl⟩ := Prod.mk.inj (Except.ok.inj hentry)
    have hbound := bound_of_readEach_go (fun _ _ => Bytes.bound_of_u16)
      (Bytes.bound_of_u16 hn) harguments
    have hlength := length_of_readEach harguments
    simp only [Bootstrap.size]
    omega

/-- A bootstrap table takes no more bytes than its file. -/
theorem sum_bootstraps (file : ClassFile) (attributes : List AttributeRange)
    (small : file.bytes.size < 2 ^ 32) :
    2 + ((file.bootstraps attributes).toList.map Bootstrap.size).sum < 2 ^ 32 := by
  unfold bootstraps
  cases (attributes.filter (·.name = "BootstrapMethods")).getLast? with
  | none => simp
  | some range =>
      cases hread : file.readBootstraps range with
      | error error => simp [hread]
      | ok entries =>
          simp only [hread]
          exact Nat.lt_of_le_of_lt (sum_of_readBootstraps hread) small

end ClassFile

end JavaClass
