import JavaClass.Proofs.Assembly.Classes
import JavaClass.Proofs.Assembly.Entries
import JavaClass.Proofs.ClassFile.Opening
import JavaClass.Proofs.Constant.Tables

/-!
# Class files that were written

The file made of the parts of a class is read back, and what it tells is what
the parts show. So whatever was told to a class draft is told again by the file
that the draft gives, up to normal forms and the arrangement of code.
-/

namespace JavaClass

open BigEndian

/-- What a class file tells of a method that was told to a class draft. -/
structure MethodStory.Recovered (story story' : MethodStory) : Prop where
  flags : story'.flags = story.flags
  name : story'.name = story.name
  descriptor : story'.descriptor = story.descriptor
  exceptions : story'.exceptions = story.exceptions
  code : Option.Rel (fun listing listing' =>
    listing.Placed ∧ listing'.Arranged listing.outline.normal) story.code story'.code

/-- What a class file tells of a class that was told to a class draft. -/
structure ClassStory.Recovered (story story' : ClassStory) : Prop where
  version : story'.version = story.version
  flags : story'.flags = story.flags
  name : story'.name = story.name
  super : story'.super = story.super
  interfaces : story'.interfaces = story.interfaces
  sources : story'.sources = story.sources.getLast?.toList
  fields : story'.fields = story.fields.map FieldDef.normal
  methods : List.Forall₂ MethodStory.Recovered story.methods story'.methods

section Members

variable {table : ConstantTable} {bootstraps : Array Bootstrap} {file : ClassFile}
  {part : EncodedMember} {member : MemberRange}

/-- The contents of an attribute whose name is known. -/
theorem EncodedAttribute.Starts.name_eq {a : EncodedAttribute} {range : AttributeRange}
    {name : String} (starts : a.Starts file range) (h : file.constants.text a.name = .ok name) :
    range.name = name :=
  Except.ok.inj (starts.name.symm.trans h)

theorem EncodedAttribute.Starts.slot {a : EncodedAttribute} {range : AttributeRange}
    {slot : UInt16} (starts : a.Starts file range) (h : a.contents = u16 slot) :
    file.bytes.u16 range.start = .ok slot := by
  have holds := starts.holds
  rw [h] at holds
  exact holds.u16

theorem readable_slot {a : EncodedAttribute} {name : String} {slot : UInt16}
    (hname : table.text a.name = .ok name) (h : a.contents = u16 slot) : a.Readable table :=
  ⟨⟨name, hname⟩, by rw [h, u16, length_ofNat]; decide⟩

theorem FieldShown.readable {field : FieldDef} (shown : FieldShown table field part) :
    ∀ a ∈ part.attributes, a.Readable table := by
  have hvalue := shown.value
  cases hfield : field.value with
  | none =>
      rw [hfield] at hvalue
      rw [show part.attributes = [] from hvalue]
      exact fun a ha => absurd ha List.not_mem_nil
  | some value =>
      rw [hfield] at hvalue
      obtain ⟨a, slot, hattributes, hname, hcontents, -⟩ := hvalue
      rw [hattributes]
      intro other hother
      rw [List.mem_singleton.mp hother]
      exact readable_slot hname hcontents

/-- A field is read back. -/
theorem FieldShown.readField_eq {field : FieldDef} (shown : FieldShown file.constants field part)
    (covers : part.At file member) :
    file.readField member = .ok (ClassFile.fieldEvent field.normal) := by
  have hattributes := covers.attributes
  have hvalue := shown.value
  unfold ClassFile.readField
  simp only [covers.flags, covers.name, covers.descriptor, shown.flags, shown.name,
    shown.descriptor, bind, Except.bind, AccessFlags.ofBits_bits]
  cases hfield : field.value with
  | none =>
      rw [hfield] at hvalue
      rw [show part.attributes = [] from hvalue, List.forall₂_nil_left_iff] at hattributes
      rw [hattributes, List.find?_nil]
      simp [ClassFile.fieldEvent, FieldDef.normal, hfield]
      rfl
  | some value =>
      rw [hfield] at hvalue
      obtain ⟨a, slot, hone, hname, hcontents, hliteral⟩ := hvalue
      rw [hone] at hattributes
      obtain ⟨range, rest, hrange, hrest, heq⟩ := List.forall₂_cons_left_iff.mp hattributes
      rw [heq, List.find?_cons_of_pos (by simp [hrange.starts.name_eq hname])]
      simp only [hrange.starts.slot hcontents, hliteral]
      simp [ClassFile.fieldEvent, FieldDef.normal, hfield]
      rfl

theorem ExceptionsShown.readable {exceptions : List String} {attributes : List EncodedAttribute}
    (shown : ExceptionsShown table exceptions attributes) : ∀ a ∈ attributes, a.Readable table := by
  obtain ⟨-, rfl⟩ | ⟨a, slots, rfl, hname, hcontents, -⟩ := shown
  · exact fun a ha => absurd ha List.not_mem_nil
  · intro other hother
    rw [List.mem_singleton.mp hother]
    have hlength := length_encodeTable_le 2 hcontents fun slot _ part hpart => by
      rw [← Except.ok.inj hpart, u16, length_ofNat]
    exact ⟨⟨_, hname⟩, by omega⟩

theorem CodeShown.readable {code : Option (Listing LabelToken)}
    {attributes : List EncodedAttribute} (shown : CodeShown table bootstraps code attributes) :
    ∀ a ∈ attributes, a.Readable table := by
  cases code with
  | none =>
      rw [show attributes = [] from shown]
      exact fun a ha => absurd ha List.not_mem_nil
  | some listing =>
      obtain ⟨a, rfl, readable, -⟩ := shown
      intro other hother
      rwa [List.mem_singleton.mp hother]

theorem MethodShown.readable {story : MethodStory}
    (shown : MethodShown table bootstraps story part) :
    ∀ a ∈ part.attributes, a.Readable table := by
  obtain ⟨code, exceptions, hattributes, hcode, hexceptions⟩ := shown.attributes
  rw [hattributes]
  intro a ha
  obtain ha | ha := List.mem_append.mp ha
  · exact hcode.readable a ha
  · exact hexceptions.readable a ha

/-- Attributes for declared exceptions are found by their name. -/
theorem ExceptionsShown.readExceptions_eq {exceptions : List String}
    {attributes : List EncodedAttribute} {ranges : List AttributeRange}
    (shown : ExceptionsShown file.constants exceptions attributes)
    (covers : List.Forall₂ (EncodedAttribute.At file) attributes ranges) :
    (∃ tables, (ranges.filter (·.name = "Exceptions")).mapM
      (fun range => file.classNames range.start) = .ok tables ∧ tables.flatten = exceptions) ∧
        ranges.find? (·.name = "Code") = none := by
  obtain ⟨rfl, rfl⟩ | ⟨a, slots, rfl, hname, hcontents, hslots⟩ := shown
  · rw [List.forall₂_nil_left_iff.mp covers]
    exact ⟨⟨[], rfl, rfl⟩, rfl⟩
  · obtain ⟨range, rest, hrange, hrest, rfl⟩ := List.forall₂_cons_left_iff.mp covers
    rw [List.forall₂_nil_left_iff.mp hrest]
    have hrangeName := hrange.starts.name_eq hname
    have hread := ClassFile.classNames_eq hslots hcontents hrange.holds
    refine ⟨⟨[exceptions], ?_, by simp⟩, by simp [hrangeName]⟩
    rw [List.filter_cons_of_pos (by simp [hrangeName]), List.filter_nil, mapM_eq_ok_iff]
    exact .cons hread .nil

/-- Among attributes is one in whose code a listing is spelled, or there is none for code. -/
inductive ClassFile.SpellsCode (file : ClassFile) (bootstraps : Array Bootstrap)
    (ranges : List AttributeRange) : Option (Listing LabelToken) → Prop where
  | absent (missing : ranges.find? (·.name = "Code") = none) :
      SpellsCode file bootstraps ranges none
  | spelled {listing : Listing LabelToken} {range : AttributeRange} {body : BodyRecord}
      (found : ranges.find? (·.name = "Code") = some range) (reads : file.readBody range = .ok body)
      (placed : listing.Placed)
      (shows : body.Shows file.constants bootstraps listing.outline.normal)
      (spelled : List.Forall₂ ((file.window range body.length).Spelled bootstraps)
        (listing.instructions.filter (!·.isPseudo)) body.instructions) :
      SpellsCode file bootstraps ranges (some listing)

/-- Code that is spelled is told in an arrangement. -/
theorem ClassFile.SpellsCode.exists_tells {code : Option (Listing LabelToken)}
    (spells : file.SpellsCode bootstraps member.attributes code) :
    ∃ code', file.TellsCode bootstraps member code' ∧
      Option.Rel (fun listing listing' => listing.Placed ∧
        listing'.Arranged listing.outline.normal) code code' := by
  cases spells with
  | absent missing => exact ⟨none, .absent missing, .none⟩
  | @spelled listing range body found reads placed shows _ =>
      have proper := listing.proper_outline.normal
      exact ⟨_, .told found reads shows proper,
        .some ⟨placed, (ClassFile.readBody_eq_ok_iff.mp reads).arranged shows proper⟩⟩

/-- Attributes for code are found by their name. -/
theorem CodeShown.spellsCode {code : Option (Listing LabelToken)}
    {attributes : List EncodedAttribute} {ranges others : List AttributeRange}
    (shown : CodeShown file.constants bootstraps code attributes)
    (covers : List.Forall₂ (EncodedAttribute.At file) attributes ranges)
    (uncoded : others.find? (·.name = "Code") = none) :
    file.SpellsCode bootstraps (ranges ++ others) code ∧
      ranges.filter (·.name = "Exceptions") = [] := by
  cases code with
  | none =>
      rw [show attributes = [] from shown, List.forall₂_nil_left_iff] at covers
      rw [covers]
      exact ⟨.absent uncoded, rfl⟩
  | some listing =>
      obtain ⟨a, rfl, readable, hname, placed, hbody⟩ := shown
      obtain ⟨range, rest, hrange, hrest, rfl⟩ := List.forall₂_cons_left_iff.mp covers
      rw [List.forall₂_nil_left_iff.mp hrest]
      have hrangeName := hrange.starts.name_eq hname
      obtain ⟨body, hread, shows, spelled⟩ := hbody file range rfl hrange
      refine ⟨.spelled ?_ hread placed shows spelled, by simp [hrangeName]⟩
      rw [List.singleton_append, List.find?_cons_of_pos (by simp [hrangeName])]

/-- A method is read back with its code spelled. -/
theorem MethodShown.reads {story : MethodStory}
    (shown : MethodShown file.constants bootstraps story part) (covers : part.At file member) :
    file.readMethod member =
        .ok ⟨story.flags, story.name, story.descriptor, story.exceptions⟩ ∧
      file.SpellsCode bootstraps member.attributes story.code := by
  obtain ⟨code, exceptions, hattributes, hcode, hexceptions⟩ := shown.attributes
  have hranges := covers.attributes
  rw [hattributes] at hranges
  obtain ⟨codeRanges, exceptionRanges, hmember, hcodeRanges, hexceptionRanges⟩ :=
    forall₂_append_left hranges
  obtain ⟨⟨tables, htables, hflatten⟩, hnoCode⟩ := hexceptions.readExceptions_eq hexceptionRanges
  obtain ⟨spells, hnoExceptions⟩ := hcode.spellsCode hcodeRanges hnoCode
  refine ⟨?_, by rwa [hmember]⟩
  unfold ClassFile.readMethod
  simp only [covers.flags, covers.name, covers.descriptor, shown.flags, shown.name,
    shown.descriptor, bind, Except.bind, AccessFlags.ofBits_bits, hmember, List.filter_append,
    hnoExceptions, List.nil_append, htables, hflatten]
  rfl

/-- A method is read back, and its code is told in an arrangement. -/
theorem MethodShown.tells {story : MethodStory}
    (shown : MethodShown file.constants bootstraps story part) (covers : part.At file member) :
    ∃ story', story.Recovered story' ∧ file.TellsMethod bootstraps story' member := by
  obtain ⟨header, spells⟩ := shown.reads covers
  obtain ⟨code', htells, hrelated⟩ := spells.exists_tells
  exact ⟨⟨story.flags, story.name, story.descriptor, story.exceptions, code'⟩,
    ⟨rfl, rfl, rfl, rfl, hrelated⟩, header, htells⟩

end Members

/-- A file holds the parts of a class up to an index. -/
structure ClassParts.In (file : ClassFile) (stop : Nat) (parts : ClassParts) : Prop where
  version : file.version = parts.header.version
  constants : file.constants = ⟨parts.pool.entries⟩
  flags : file.bytes.u16 file.headerStart = .ok parts.header.flags.bits
  thisClass : file.bytes.u16 (file.headerStart + 2) = .ok parts.header.thisClass
  superClass : file.bytes.u16 (file.headerStart + 4) = .ok parts.header.superClass
  rest : ∃ interfaces fields methods attributes,
    encodeSlots parts.header.interfaces = .ok interfaces ∧
    encodeTable EncodedMember.encode parts.fields = .ok fields ∧
    encodeTable EncodedMember.encode parts.methods = .ok methods ∧
    encodeTable (fun a => .ok (EncodedAttribute.encode a)) parts.attributes = .ok attributes ∧
    file.bytes.Holds (file.headerStart + 6) (interfaces ++ (fields ++ (methods ++ attributes))) ∧
    stop = file.headerStart + 6 + (interfaces ++ (fields ++ (methods ++ attributes))).length

/-- A class file that was written starts with what it was written from. -/
theorem ClassParts.opens {parts : ClassParts} (writable : parts.pool.Writable)
    {content : List UInt8} (h : parts.encode = .ok content) {bytes : Bytes}
    (holds : bytes.Holds 0 content) :
    ∃ file : ClassFile, file.Opens bytes ∧ parts.In file content.length := by
  unfold encode at h
  obtain ⟨pool, hpool, h⟩ := exceptBind_eq_ok_iff.mp h
  obtain ⟨interfaces, hinterfaces, h⟩ := exceptBind_eq_ok_iff.mp h
  obtain ⟨fields, hfields, h⟩ := exceptBind_eq_ok_iff.mp h
  obtain ⟨methods, hmethods, h⟩ := exceptBind_eq_ok_iff.mp h
  obtain ⟨attributes, hattributes, h⟩ := exceptBind_eq_ok_iff.mp h
  obtain rfl := Except.ok.inj h
  simp only [List.append_assoc] at holds
  have hversion := holds.right.left
  have hpoolRead : ConstantTable.read bytes 8 = .ok (⟨parts.pool.entries⟩, 8 + pool.length) :=
    ConstantTable.read_eq writable hpool holds.right.right.left
  have hheader := holds.right.right.right
  have hrest := hheader.right.right.right
  refine ⟨⟨bytes, parts.header.version, ⟨parts.pool.entries⟩, 8 + pool.length⟩,
    ⟨rfl, holds.left.u32, hversion.left.u16, hversion.right.u16, hpoolRead⟩,
    ⟨rfl, rfl, hheader.left.u16, hheader.right.left.u16, hheader.right.right.left.u16,
      interfaces, fields, methods, attributes, hinterfaces, hfields, hmethods, hattributes, hrest,
      ?_⟩⟩
  simp only [List.length_append, Version.encode, u16, u32, length_ofNat]
  omega

/-- What is read from a class file that was written is what it was written from. -/
theorem ClassParts.in_of_read {parts : ClassParts} (writable : parts.pool.Writable)
    {content : List UInt8} (h : parts.encode = .ok content) {bytes : Bytes}
    (holds : bytes.Holds 0 content) {file : ClassFile} (hread : ClassFile.read bytes = .ok file) :
    parts.In file content.length := by
  obtain ⟨found, opens, within⟩ := ClassParts.opens writable h holds
  rwa [(ClassFile.read_eq_ok_iff.mp hread).1.unique opens]

/-- A class file that was written is opened again. -/
theorem ClassParts.read_eq {parts : ClassParts} (writable : parts.pool.Writable)
    (supported : parts.header.version.major ≤ Version.latestMajor) {content : List UInt8}
    (h : parts.encode = .ok content) {bytes : Bytes} (holds : bytes.Holds 0 content) :
    ∃ file, ClassFile.read bytes = .ok file ∧ parts.In file content.length := by
  obtain ⟨file, opens, within⟩ := ClassParts.opens writable h holds
  exact ⟨file, ClassFile.read_eq_ok_iff.mpr ⟨opens, within.version ▸ supported⟩, within⟩

section Classes

variable {file : ClassFile} {stop : Nat} {parts : ClassParts} {bootstraps : Array Bootstrap}
  {story : ClassStory}

theorem ClassParts.In.name_eq (within : parts.In file stop)
    (shown : HeaderShown file.constants story parts.header) : file.name = .ok story.name := by
  unfold ClassFile.name
  simp only [within.thisClass, bind, Except.bind, shown.name]

theorem ClassParts.In.superName_eq (within : parts.In file stop)
    (shown : HeaderShown file.constants story parts.header) :
    file.superName = .ok story.super := by
  unfold ClassFile.superName
  simp only [within.superClass, bind, Except.bind, shown.super]

theorem ClassParts.In.interfaces_eq (within : parts.In file stop)
    (shown : HeaderShown file.constants story parts.header) :
    file.interfaces = .ok story.interfaces := by
  obtain ⟨interfaces, _, _, _, hinterfaces, -, -, -, holds, -⟩ := within.rest
  exact ClassFile.classNames_eq shown.interfaces hinterfaces holds.left

/-- The header is read back. -/
theorem ClassParts.In.header_eq (within : parts.In file stop)
    (shown : HeaderShown file.constants story parts.header) :
    file.header = .ok (ClassFile.headerEvent story, story.interfaces.length) := by
  have hflags : file.flags = .ok story.flags := by
    rw [ClassFile.flags, within.flags, ← shown.flags]
    exact congrArg Except.ok (AccessFlags.ofBits_bits _)
  unfold ClassFile.header
  simp only [within.interfaces_eq shown, within.name_eq shown, hflags, within.superName_eq shown,
    bind, Except.bind]
  rw [ClassFile.headerEvent, ← shown.version, ← within.version]
  rfl

/-- The size of a table of slots. -/
theorem length_encodeSlots {slots : List UInt16} {content : List UInt8}
    (h : encodeSlots slots = .ok content) : content.length = 2 + 2 * slots.length := by
  obtain ⟨-, encoded, hencoded, rfl⟩ := encodeTable_eq_ok h
  have hwidth : encoded.flatten.length = 2 * encoded.length := by
    refine length_flatten_of_width fun part hpart => ?_
    obtain ⟨slot, -, hslot⟩ := exists_left hencoded hpart
    rw [← Except.ok.inj hslot, u16, length_ofNat]
  rw [List.length_append, length_ofNat, hwidth, hencoded.length_eq]

/-- The fields and the methods are found, and the attributes of the class stand behind them. -/
theorem ClassParts.In.exists_members (within : parts.In file stop)
    (hfields : ∀ part ∈ parts.fields, ∀ a ∈ part.attributes, a.Readable file.constants)
    (hmethods : ∀ part ∈ parts.methods, ∀ a ∈ part.attributes, a.Readable file.constants) :
    ∃ fields methodStart methods attributeStart attributes,
      file.readMembers (file.headerStart + 8 + 2 * parts.header.interfaces.length) =
        .ok (fields, methodStart) ∧
      file.readMembers methodStart = .ok (methods, attributeStart) ∧
      List.Forall₂ (EncodedMember.At file) parts.fields fields ∧
      List.Forall₂ (EncodedMember.At file) parts.methods methods ∧
      encodeTable (fun a => .ok (EncodedAttribute.encode a)) parts.attributes = .ok attributes ∧
      file.bytes.Holds attributeStart attributes ∧ stop = attributeStart + attributes.length := by
  obtain ⟨interfaces, fields, methods, attributes, hslots, hfieldTable, hmethodTable,
    hattributeTable, holds, hstop⟩ := within.rest
  have hlength := length_encodeSlots hslots
  have hstart : file.headerStart + 6 + interfaces.length =
      file.headerStart + 8 + 2 * parts.header.interfaces.length := by omega
  have hmembers := holds.right
  rw [hstart] at hmembers
  obtain ⟨fieldRanges, hreadFields, hfieldsAt⟩ :=
    ClassFile.readMembers_eq hfields hfieldTable hmembers.left
  obtain ⟨methodRanges, hreadMethods, hmethodsAt⟩ :=
    ClassFile.readMembers_eq hmethods hmethodTable hmembers.right.left
  refine ⟨fieldRanges, _, methodRanges, _, attributes, hreadFields, hreadMethods, hfieldsAt,
    hmethodsAt, hattributeTable, hmembers.right.right, ?_⟩
  rw [hstop]
  simp only [List.length_append]
  omega

/-- The extents of all members and attributes are found if the attributes of the class are. -/
theorem ClassParts.In.exists_layout (within : parts.In file stop)
    {R : EncodedAttribute → AttributeRange → Prop}
    (hfields : ∀ part ∈ parts.fields, ∀ a ∈ part.attributes, a.Readable file.constants)
    (hmethods : ∀ part ∈ parts.methods, ∀ a ∈ part.attributes, a.Readable file.constants)
    (hattributes : ∀ {part index},
      encodeTable (fun a => .ok (EncodedAttribute.encode a)) parts.attributes = .ok part →
        file.bytes.Holds index part → ∃ ranges stop,
          file.readAttributes index = .ok (ranges, stop) ∧
            List.Forall₂ R parts.attributes ranges) :
    ∃ extents, file.layout parts.header.interfaces.length = .ok extents ∧
      List.Forall₂ (EncodedMember.At file) parts.fields extents.fields ∧
      List.Forall₂ (EncodedMember.At file) parts.methods extents.methods ∧
      List.Forall₂ R parts.attributes extents.attributes := by
  obtain ⟨fields, methodStart, methods, attributeStart, part, hreadFields, hreadMethods, hfieldsAt,
    hmethodsAt, htable, holds, -⟩ := within.exists_members hfields hmethods
  obtain ⟨ranges, stop, hreadAttributes, hattributesAt⟩ := hattributes htable holds
  refine ⟨⟨fields, methods, ranges⟩, ?_, hfieldsAt, hmethodsAt, hattributesAt⟩
  unfold ClassFile.layout
  simp only [hreadFields, hreadMethods, hreadAttributes, bind, Except.bind]
  rfl

/-- The extents of all members and attributes are found. -/
theorem ClassParts.In.layout_eq (within : parts.In file stop)
    (hfields : ∀ part ∈ parts.fields, ∀ a ∈ part.attributes, a.Readable file.constants)
    (hmethods : ∀ part ∈ parts.methods, ∀ a ∈ part.attributes, a.Readable file.constants)
    (hattributes : ∀ a ∈ parts.attributes, a.Readable file.constants) :
    ∃ extents, file.layout parts.header.interfaces.length = .ok extents ∧
      List.Forall₂ (EncodedMember.At file) parts.fields extents.fields ∧
      List.Forall₂ (EncodedMember.At file) parts.methods extents.methods ∧
      List.Forall₂ (EncodedAttribute.At file) parts.attributes extents.attributes := by
  refine within.exists_layout hfields hmethods fun h holds => ?_
  obtain ⟨ranges, hranges, hcovers⟩ := ClassFile.readAttributes_eq hattributes h holds
  exact ⟨ranges, _, hranges, hcovers⟩

/-- The size of a table of bootstrap methods. -/
theorem length_encodeTable_bootstraps {entries : List Bootstrap} {content : List UInt8}
    (h : encodeTable Bootstrap.encode entries = .ok content) :
    content.length = 2 + (entries.map Bootstrap.size).sum := by
  obtain ⟨-, encoded, hencoded, rfl⟩ := encodeTable_eq_ok h
  rw [List.length_append, length_ofNat]
  refine congrArg (2 + ·) ?_
  clear h
  induction hencoded with
  | nil => rfl
  | @cons entry part entries encoded hpart _ ih =>
      unfold Bootstrap.encode at hpart
      cases hslots : encodeSlots entry.arguments with
      | error error => rw [hslots] at hpart; cases hpart
      | ok slots =>
          rw [hslots] at hpart
          obtain rfl := Except.ok.inj hpart
          have hlength := length_encodeSlots hslots
          rw [List.flatten_cons, List.length_append, ih, List.map_cons, List.sum_cons,
            List.length_append, u16, length_ofNat, Bootstrap.size]
          omega

variable {attributes : List EncodedAttribute} {ranges : List AttributeRange}

theorem SourceShown.readable {table : ConstantTable} {source : Option String}
    (shown : SourceShown table source attributes) : ∀ a ∈ attributes, a.Readable table := by
  cases source with
  | none =>
      rw [show attributes = [] from shown]
      exact fun a ha => absurd ha List.not_mem_nil
  | some text =>
      obtain ⟨a, slot, rfl, hname, hcontents, -⟩ := shown
      intro other hother
      rw [List.mem_singleton.mp hother]
      exact readable_slot hname hcontents

theorem BootstrapsShown.readable {table : ConstantTable} {entries : List Bootstrap}
    (shown : BootstrapsShown table entries attributes)
    (small : 2 + (entries.map Bootstrap.size).sum < 2 ^ 32) :
    ∀ a ∈ attributes, a.Readable table := by
  obtain ⟨-, rfl⟩ | ⟨a, rfl, hname, hcontents⟩ := shown
  · exact fun a ha => absurd ha List.not_mem_nil
  · intro other hother
    rw [List.mem_singleton.mp hother]
    exact ⟨⟨_, hname⟩, by rwa [length_encodeTable_bootstraps hcontents]⟩

/-- The source file is told. -/
theorem SourceShown.tells {source : Option String}
    (shown : SourceShown file.constants source attributes)
    (starts : List.Forall₂ (EncodedAttribute.Starts file) attributes ranges) :
    Transcript.concat (ranges.map file.tellClassAttribute) =
        .tell (source.toList.map .source) ∧
      ranges.filter (·.name = "BootstrapMethods") = [] := by
  cases source with
  | none =>
      rw [show attributes = [] from shown, List.forall₂_nil_left_iff] at starts
      rw [starts]
      exact ⟨rfl, rfl⟩
  | some text =>
      obtain ⟨a, slot, rfl, hname, hcontents, htext⟩ := shown
      obtain ⟨range, rest, hrange, hrest, rfl⟩ := List.forall₂_cons_left_iff.mp starts
      rw [List.forall₂_nil_left_iff.mp hrest]
      have hrangeName := hrange.name_eq hname
      refine ⟨?_, by simp [hrangeName]⟩
      rw [List.map_singleton, Transcript.concat_cons, ClassFile.tellClassAttribute,
        if_pos hrangeName]
      simp only [hrange.slot hcontents, htext, bind, Except.bind]
      rfl

/-- The bootstrap methods are found, and nothing is told. -/
theorem BootstrapsShown.tells (shown : BootstrapsShown file.constants bootstraps.toList attributes)
    (starts : List.Forall₂ (EncodedAttribute.Starts file) attributes ranges) :
    Transcript.concat (ranges.map file.tellClassAttribute) = .done ∧
      ∀ others : List AttributeRange, others.filter (·.name = "BootstrapMethods") = [] →
        file.bootstraps (others ++ ranges) = bootstraps := by
  obtain ⟨hnil, rfl⟩ | ⟨a, rfl, hname, hcontents⟩ := shown
  · rw [List.forall₂_nil_left_iff.mp starts]
    refine ⟨rfl, fun others hothers => ?_⟩
    rw [ClassFile.bootstraps, List.append_nil, hothers]
    exact (Array.toList_eq_nil_iff.mp hnil).symm
  · obtain ⟨range, rest, hrange, hrest, rfl⟩ := List.forall₂_cons_left_iff.mp starts
    rw [List.forall₂_nil_left_iff.mp hrest]
    have hrangeName := hrange.name_eq hname
    have hread := ClassFile.readBootstraps_eq hcontents hrange
    constructor
    · rw [List.map_singleton, Transcript.concat_cons, ClassFile.tellClassAttribute,
        if_neg (by rw [hrangeName]; decide), if_pos hrangeName, hread]
      rfl
    · intro others hothers
      rw [ClassFile.bootstraps, List.filter_append, hothers,
        List.filter_cons_of_pos (by simp [hrangeName])]
      simp [hread]

theorem FrameShown.readable_fields {table : ConstantTable}
    (shown : FrameShown table bootstraps story parts) :
    ∀ part ∈ parts.fields, ∀ a ∈ part.attributes, a.Readable table := by
  intro part hpart
  obtain ⟨field, -, hfield⟩ := exists_left shown.fields hpart
  exact hfield.readable

theorem FrameShown.readable_attributes {table : ConstantTable}
    (shown : FrameShown table bootstraps story parts)
    (small : 2 + (bootstraps.toList.map Bootstrap.size).sum < 2 ^ 32) :
    ∀ a ∈ parts.attributes, a.Readable table := by
  obtain ⟨source, entries, hattributes, hsource, hentries⟩ := shown.attributes
  rw [hattributes]
  intro a ha
  obtain ha | ha := List.mem_append.mp ha
  · exact hsource.readable a ha
  · exact hentries.readable small a ha

theorem ClassShown.readable_methods {table : ConstantTable}
    (shown : ClassShown table bootstraps story parts) :
    ∀ part ∈ parts.methods, ∀ a ∈ part.attributes, a.Readable table := by
  intro part hpart
  obtain ⟨method, -, hmethod⟩ := exists_left shown.methods hpart
  exact hmethod.readable

/-- The bootstrap methods of a class are found among its attributes. -/
theorem FrameShown.bootstraps_eq (shown : FrameShown file.constants bootstraps story parts)
    (starts : List.Forall₂ (EncodedAttribute.Starts file) parts.attributes ranges) :
    file.bootstraps ranges = bootstraps := by
  obtain ⟨source, entries, hattributes, hsource, hentries⟩ := shown.attributes
  rw [hattributes] at starts
  obtain ⟨first, second, rfl, hfirst, hsecond⟩ := forall₂_append_left starts
  exact (hentries.tells hsecond).2 first (hsource.tells hfirst).2

/-- A file in which the parts of a class are found tells it. -/
theorem ClassShown.tells_of_layout (within : parts.In file stop)
    (shown : ClassShown file.constants bootstraps story parts) {extents : ClassLayout}
    (hlayout : file.layout parts.header.interfaces.length = .ok extents)
    (hfieldsAt : List.Forall₂ (EncodedMember.At file) parts.fields extents.fields)
    (hmethodsAt : List.Forall₂ (EncodedMember.At file) parts.methods extents.methods)
    (hstarts : List.Forall₂ (EncodedAttribute.Starts file) parts.attributes extents.attributes) :
    ∃ story', file.Tells extents story' ∧ story.Recovered story' := by
  have hbootstraps := shown.bootstraps_eq hstarts
  obtain ⟨source, entries, hattributes, hsource, hentries⟩ := shown.attributes
  rw [hattributes] at hstarts
  obtain ⟨first, second, hranges, hfirst, hsecond⟩ := forall₂_append_left hstarts
  obtain ⟨hsourceTold, -⟩ := hsource.tells hfirst
  obtain ⟨hentriesTold, -⟩ := hentries.tells hsecond
  have hfields := forall₂_trans shown.fields hfieldsAt fun field part member hshown hat =>
    hshown.readField_eq hat
  obtain ⟨methods, hrecovered, hmethods⟩ := exists_between <|
    forall₂_trans shown.methods hmethodsAt fun story part member hshown hat => hshown.tells hat
  have hheader := within.header_eq shown.header
  refine ⟨⟨story.version, story.flags, story.name, story.super, story.interfaces,
    story.sources.getLast?.toList, story.fields.map FieldDef.normal, methods⟩,
    ⟨hheader, ?_, ?_, ?_, ?_⟩, ⟨rfl, rfl, rfl, rfl, rfl, rfl, rfl, hrecovered⟩⟩
  · simp only
    rwa [shown.header.interfaces.length_eq]
  · rw [hranges, List.map_append, Transcript.concat_append, hsourceTold, hentriesTold]
    simp [Transcript.andThen, Transcript.tell, Transcript.done]
  · exact List.forall₂_map_left_iff.mpr hfields
  · rwa [hbootstraps]

/-- A file that holds the parts of a class tells it. -/
theorem ClassShown.tells (within : parts.In file stop)
    (shown : ClassShown file.constants bootstraps story parts)
    (small : 2 + (bootstraps.toList.map Bootstrap.size).sum < 2 ^ 32) :
    ∃ extents story', file.Tells extents story' ∧ story.Recovered story' := by
  obtain ⟨extents, hlayout, hfieldsAt, hmethodsAt, hattributesAt⟩ :=
    within.layout_eq shown.readable_fields shown.readable_methods (shown.readable_attributes small)
  exact ⟨extents, shown.tells_of_layout within hlayout hfieldsAt hmethodsAt
    (hattributesAt.imp fun _ _ covers => covers.starts)⟩

/-- What was told to a class draft is told again by the file that the draft gives. -/
theorem ClassStory.told_again {draft : ClassDraft} {content : List UInt8}
    (proper : ∀ method ∈ story.methods, method.Proper)
    (supported : story.version.major ≤ Version.latestMajor)
    (small : bootstrapTableSize story.calls < 2 ^ 32)
    (takes : Receiver.Takes ClassDraft.receive story.events .empty draft)
    (hbytes : draft.bytes = .ok content) :
    ∃ file story', ClassFile.read content.toArray = .ok file ∧
      file.transcript = .tell story'.events ∧ story.Recovered story' := by
  obtain ⟨parts, bootstraps, hencode, valid, shown, nodup, hfrom⟩ :=
    ClassDraft.takes_class proper takes hbytes
  rw [← shown.header.version] at supported
  obtain ⟨file, hread, within⟩ :=
    ClassParts.read_eq valid.writable supported hencode (Bytes.holds_all content)
  have hsmall := Nat.lt_of_le_of_lt (sum_entries_le valid nodup hfrom) small
  rw [← within.constants] at shown
  obtain ⟨extents, story', tells, recovered⟩ := shown.tells within hsmall
  exact ⟨file, story', hread, ClassFile.transcript_eq_tell_iff.mpr ⟨extents, story', tells, rfl⟩,
    recovered⟩

theorem BootstrapsShown.named {table : ConstantTable} {entries : List Bootstrap}
    (shown : BootstrapsShown table entries attributes) :
    attributes.length ≤ 1 ∧ ∀ a ∈ attributes, table.text a.name = .ok "BootstrapMethods" := by
  obtain ⟨-, rfl⟩ | ⟨a, rfl, hname, -⟩ := shown
  · exact ⟨Nat.zero_le _, fun a ha => absurd ha List.not_mem_nil⟩
  · refine ⟨Nat.le_refl _, fun other hother => ?_⟩
    rwa [List.mem_singleton.mp hother]

/-- The bootstrap table comes last, so the extents of a file are found however long that table
is. -/
theorem ClassShown.exists_extents (within : parts.In file stop)
    (shown : ClassShown file.constants bootstraps story parts) :
    ∃ extents, file.layout parts.header.interfaces.length = .ok extents ∧
      List.Forall₂ (EncodedMember.At file) parts.fields extents.fields ∧
      List.Forall₂ (EncodedMember.At file) parts.methods extents.methods ∧
      List.Forall₂ (EncodedAttribute.Starts file) parts.attributes extents.attributes := by
  obtain ⟨source, entries, hattributes, hsource, hentries⟩ := shown.attributes
  refine within.exists_layout shown.readable_fields shown.readable_methods fun h holds => ?_
  rw [hattributes] at h ⊢
  exact ClassFile.exists_readAttributes hsource.readable
    (fun a mem => ⟨_, hentries.named.2 a mem⟩) hentries.named.1 h holds

/-- A file tells its class however long its bootstrap table is. -/
theorem ClassShown.exists_tells (within : parts.In file stop)
    (shown : ClassShown file.constants bootstraps story parts) :
    ∃ extents story', file.Tells extents story' ∧ story.Recovered story' := by
  obtain ⟨extents, hlayout, hfieldsAt, hmethodsAt, hstarts⟩ := shown.exists_extents within
  exact ⟨extents, shown.tells_of_layout within hlayout hfieldsAt hmethodsAt hstarts⟩

/-- A file that a draft gives, and that can be opened, tells again what was told to the draft. -/
theorem ClassStory.told_again_of_read {draft : ClassDraft} {content : List UInt8}
    {file : ClassFile} (proper : ∀ method ∈ story.methods, method.Proper)
    (takes : Receiver.Takes ClassDraft.receive story.events .empty draft)
    (hbytes : draft.bytes = .ok content) (hread : ClassFile.read content.toArray = .ok file) :
    ∃ story', file.transcript = .tell story'.events ∧ story.Recovered story' := by
  obtain ⟨parts, bootstraps, hencode, valid, shown, -⟩ := ClassDraft.takes_class proper takes hbytes
  have within := ClassParts.in_of_read valid.writable hencode (Bytes.holds_all content) hread
  rw [← within.constants] at shown
  obtain ⟨extents, story', tells, recovered⟩ := shown.exists_tells within
  exact ⟨story', ClassFile.transcript_eq_tell_iff.mpr ⟨extents, story', tells, rfl⟩, recovered⟩

end Classes

end JavaClass
