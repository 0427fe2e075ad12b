import JavaClass.Proofs.Assembly.Files
import JavaClass.Proofs.Listing.Labels
import JavaClass.Proofs.Spelling.Bodies

/-!
# Spellings of classes

A class file with some bodies spells out a class. Attributes are found by their
names, wherever they stand among others. Whichever spellings were chosen, the
file is read, and it tells the class with one token for each position that is
named in the code.

## Implementation notes

The constants may stand in any order in the pool, so the slots that refer to them
are part of the choice.
-/

namespace JavaClass

open BigEndian

/-- A method whose code has positions for labels. -/
structure MethodOutline where
  flags : MethodFlags
  name : String
  descriptor : String
  exceptions : List String
  code : Option Outline

/-- A class whose code has positions for labels. -/
structure ClassOutline where
  version : Version
  flags : ClassFlags
  name : String
  super : Option String
  interfaces : List String
  sources : List String
  fields : List FieldDef
  methods : List MethodOutline

/-- The story is the method with a token for each position. -/
structure MethodOutline.Told (method : MethodOutline) (story : MethodStory) : Prop where
  flags : story.flags = method.flags
  name : story.name = method.name
  descriptor : story.descriptor = method.descriptor
  exceptions : story.exceptions = method.exceptions
  code : Option.Rel (fun o listing => listing.Arranges o) method.code story.code

/-- The story that tells a class, given how its methods are told. -/
def ClassOutline.story (c : ClassOutline) (methods : List MethodStory) : ClassStory :=
  ⟨c.version, c.flags, c.name, c.super, c.interfaces, c.sources, c.fields, methods⟩

/-- The story is the class with a token for each position in a method. -/
def ClassOutline.Told (c : ClassOutline) (story : ClassStory) : Prop :=
  ∃ methods, List.Forall₂ MethodOutline.Told c.methods methods ∧ story = c.story methods

/-- Whether an attribute has this name. -/
def EncodedAttribute.isNamed (table : ConstantTable) (name : String) (a : EncodedAttribute) :
    Bool :=
  match table.text a.name with
  | .ok text => text = name
  | .error _ => false

/-- A spelling of a field. -/
structure FieldDef.SpelledAs (table : ConstantTable) (field : FieldDef) (part : EncodedMember) :
    Prop where
  flags : AccessFlags.ofBits _ part.flags = field.flags
  name : table.text part.name = .ok field.name
  descriptor : table.text part.descriptor = .ok field.descriptor
  readable : ∀ a ∈ part.attributes, a.Readable table
  value : Option.Rel (fun value a => ∃ slot, a.contents = u16 slot ∧
    table.literal slot = .ok value) field.value
      (part.attributes.find? (·.isNamed table "ConstantValue"))

/-- A spelling of a table of declared exceptions. -/
def ExceptionsSpelled (table : ConstantTable) (exceptions : List String) (a : EncodedAttribute) :
    Prop :=
  ∃ slots, encodeSlots slots = .ok a.contents ∧
    List.Forall₂ (fun name slot => table.className slot = .ok name) exceptions slots

/-- A spelling of a method. -/
structure MethodOutline.SpelledAs (table : ConstantTable) (bootstraps : Array Bootstrap)
    (method : MethodOutline) (part : EncodedMember) : Prop where
  flags : AccessFlags.ofBits _ part.flags = method.flags
  name : table.text part.name = .ok method.name
  descriptor : table.text part.descriptor = .ok method.descriptor
  readable : ∀ a ∈ part.attributes, a.Readable table
  exceptions : ∃ tables, List.Forall₂ (ExceptionsSpelled table) tables
    (part.attributes.filter (·.isNamed table "Exceptions")) ∧ method.exceptions = tables.flatten
  code : Option.Rel (fun o a => ∃ body, o.SpelledAs table bootstraps body ∧
    a.contents = body.contents o) method.code (part.attributes.find? (·.isNamed table "Code"))

/-- A spelling of the attributes of a class. All source files are told, and of the bootstrap tables
the last one counts. -/
structure ClassAttributesSpelled (table : ConstantTable) (sources : List String)
    (tables : List (List Bootstrap)) (attributes : List EncodedAttribute) : Prop where
  readable : ∀ a ∈ attributes, a.Readable table
  sources : List.Forall₂ (fun source a => ∃ slot, a.contents = u16 slot ∧
    table.text slot = .ok source) sources (attributes.filter (·.isNamed table "SourceFile"))
  bootstraps : List.Forall₂ (fun entries a => encodeTable Bootstrap.encode entries = .ok a.contents)
    tables (attributes.filter (·.isNamed table "BootstrapMethods"))

/-- A spelling of a class with these bootstrap tables, the constants being those of the pool. -/
structure ClassOutline.SpelledWith (c : ClassOutline) (tables : List (List Bootstrap))
    (parts : ClassParts) : Prop where
  pool : parts.pool.Writable
  supported : c.version.major ≤ Version.latestMajor
  version : parts.header.version = c.version
  flags : parts.header.flags = c.flags
  name : ConstantTable.className ⟨parts.pool.entries⟩ parts.header.thisClass = .ok c.name
  super : ConstantTable.optionalClassName ⟨parts.pool.entries⟩ parts.header.superClass = .ok c.super
  interfaces : List.Forall₂ (fun name slot =>
    ConstantTable.className ⟨parts.pool.entries⟩ slot = .ok name) c.interfaces
      parts.header.interfaces
  attributes : ClassAttributesSpelled ⟨parts.pool.entries⟩ c.sources tables parts.attributes
  fields : List.Forall₂ (FieldDef.SpelledAs ⟨parts.pool.entries⟩) c.fields parts.fields
  methods : List.Forall₂
    (MethodOutline.SpelledAs ⟨parts.pool.entries⟩ (tables.getLast?.getD []).toArray) c.methods
      parts.methods

/-- A spelling of a class. -/
def ClassOutline.SpelledAs (c : ClassOutline) (parts : ClassParts) : Prop :=
  ∃ tables, c.SpelledWith tables parts

section Attributes

variable {file : ClassFile} {attributes : List EncodedAttribute} {ranges : List AttributeRange}

theorem EncodedAttribute.At.isNamed_eq {a : EncodedAttribute} {range : AttributeRange}
    (covers : a.At file range) (name : String) :
    a.isNamed file.constants name = decide (range.name = name) := by
  rw [isNamed, covers.name]

/-- The attributes with some name stand where the extents with this name are. -/
theorem forall₂_filter_named (covers : List.Forall₂ (EncodedAttribute.At file) attributes ranges)
    (name : String) :
    List.Forall₂ (EncodedAttribute.At file) (attributes.filter (·.isNamed file.constants name))
      (ranges.filter (·.name = name)) := by
  apply List.rel_filter _ covers
  intro a range h
  simp only [h.isNamed_eq name]

/-- What is found first of two lists that go together goes together. -/
theorem rel_head? {α β : Type} {R : α → β → Prop} {first : List α} {second : List β}
    (h : List.Forall₂ R first second) : Option.Rel R first.head? second.head? := by
  cases h with
  | nil => exact .none
  | cons head _ => exact .some head

theorem rel_find?_named (covers : List.Forall₂ (EncodedAttribute.At file) attributes ranges)
    (name : String) :
    Option.Rel (EncodedAttribute.At file) (attributes.find? (·.isNamed file.constants name))
      (ranges.find? (·.name = name)) := by
  have h := rel_head? (forall₂_filter_named covers name)
  rwa [List.head?_filter, List.head?_filter] at h

end Attributes

section Members

variable {file : ClassFile} {bootstraps : Array Bootstrap} {part : EncodedMember}
  {member : MemberRange}

/-- A field is read, whichever spelling was chosen. -/
theorem FieldDef.SpelledAs.readField_eq {field : FieldDef}
    (spelled : field.SpelledAs file.constants part) (covers : part.At file member) :
    file.readField member = .ok (ClassFile.fieldEvent field) := by
  have hvalue := spelled.value
  have hfound := rel_find?_named covers.attributes "ConstantValue"
  unfold ClassFile.readField ClassFile.fieldEvent
  simp only [covers.flags, covers.name, covers.descriptor, spelled.flags, spelled.name,
    spelled.descriptor, bind, Except.bind]
  generalize part.attributes.find? (·.isNamed file.constants "ConstantValue") = found
    at hvalue hfound
  generalize member.attributes.find? (·.name = "ConstantValue") = foundRange at hfound
  generalize field.value = value at hvalue
  cases hvalue with
  | none =>
      cases hfound
      rfl
  | some h =>
      obtain ⟨slot, hcontents, hliteral⟩ := h
      cases hfound with
      | some hrange =>
          simp only [hrange.starts.slot hcontents, hliteral]
          rfl

/-- Declared exceptions are read from all of their tables. -/
theorem exists_mapM_classNames {tables : List (List String)} {attributes : List EncodedAttribute}
    {ranges : List AttributeRange}
    (spelled : List.Forall₂ (ExceptionsSpelled file.constants) tables attributes)
    (covers : List.Forall₂ (EncodedAttribute.At file) attributes ranges) :
    ranges.mapM (fun range => file.classNames range.start) = .ok tables := by
  rw [mapM_eq_ok_iff]
  apply List.Forall₂.flip
  exact forall₂_trans spelled covers fun names a range h hat => by
    obtain ⟨slots, hcontents, hslots⟩ := h
    exact ClassFile.classNames_eq hslots hcontents hat.holds

/-- Code is read and told, whichever spelling was chosen. -/
theorem exists_tellsCode {code : Option Outline} {found : Option EncodedAttribute}
    (spelled : Option.Rel (fun o a => ∃ body, o.SpelledAs file.constants bootstraps body ∧
      a.contents = body.contents o) code found)
    (covers : Option.Rel (EncodedAttribute.At file) found
      (member.attributes.find? (·.name = "Code"))) :
    ∃ told, file.TellsCode bootstraps member told ∧
      Option.Rel (fun o listing => listing.Arranges o) code told := by
  cases hfound : member.attributes.find? (·.name = "Code") with
  | none =>
      rw [hfound] at covers
      cases covers
      cases spelled
      exact ⟨none, .absent hfound, .none⟩
  | some range =>
      rw [hfound] at covers
      cases covers with
      | some hat =>
          cases spelled with
          | some h =>
              obtain ⟨body, hbody, hcontents⟩ := h
              obtain ⟨record, hread, shows⟩ := hbody.exists_readBody hcontents hat
              have proper := hbody.proper
              have arranged := (ClassFile.readBody_eq_ok_iff.mp hread).arranged shows proper
              exact ⟨_, .told hfound hread shows proper, .some arranged.arranges⟩

/-- A method is read and told, whichever spelling was chosen. -/
theorem MethodOutline.SpelledAs.exists_told {method : MethodOutline}
    (spelled : method.SpelledAs file.constants bootstraps part) (covers : part.At file member) :
    ∃ story, method.Told story ∧ file.TellsMethod bootstraps story member := by
  obtain ⟨tables, htables, hexceptions⟩ := spelled.exceptions
  have hread := exists_mapM_classNames htables (forall₂_filter_named covers.attributes "Exceptions")
  obtain ⟨code, tells, told⟩ :=
    exists_tellsCode spelled.code (rel_find?_named covers.attributes "Code")
  refine ⟨⟨method.flags, method.name, method.descriptor, method.exceptions, code⟩,
    ⟨rfl, rfl, rfl, rfl, told⟩, ⟨?_, tells⟩⟩
  unfold ClassFile.readMethod
  simp only [covers.flags, covers.name, covers.descriptor, spelled.flags, spelled.name,
    spelled.descriptor, bind, Except.bind, hread, hexceptions]
  rfl

end Members

section ClassAttributes

variable {file : ClassFile} {sources : List String} {tables : List (List Bootstrap)}
  {attributes : List EncodedAttribute} {ranges : List AttributeRange}

/-- The source files are told, and everything else is passed over. -/
theorem ClassAttributesSpelled.tell_eq
    (spelled : ClassAttributesSpelled file.constants sources tables attributes)
    (covers : List.Forall₂ (EncodedAttribute.At file) attributes ranges) :
    Transcript.concat (ranges.map file.tellClassAttribute) = .tell (sources.map .source) := by
  obtain ⟨-, hsources, hbootstraps⟩ := spelled
  induction covers generalizing sources tables with
  | nil =>
      cases hsources
      rfl
  | @cons a range attributes ranges hat _ ih =>
      have hsource := hat.isNamed_eq "SourceFile"
      have htable := hat.isNamed_eq "BootstrapMethods"
      rw [List.filter_cons, hsource] at hsources
      rw [List.filter_cons, htable] at hbootstraps
      rw [List.map_cons, Transcript.concat_cons, ClassFile.tellClassAttribute]
      by_cases hname : range.name = "SourceFile"
      · have hother : ¬ range.name = "BootstrapMethods" := by
          rw [hname]
          decide
        rw [if_pos (decide_eq_true hname)] at hsources
        rw [if_neg (by simpa using hother)] at hbootstraps
        obtain ⟨source, rest, ⟨slot, hcontents, htext⟩, hrest, rfl⟩ :=
          List.forall₂_cons_right_iff.mp hsources
        rw [if_pos hname, ih hrest hbootstraps]
        simp only [hat.starts.slot hcontents, htext, bind, Except.bind]
        rfl
      · rw [if_neg (by simpa using hname)] at hsources
        rw [if_neg hname]
        by_cases hname' : range.name = "BootstrapMethods"
        · rw [if_pos (decide_eq_true hname')] at hbootstraps
          obtain ⟨entries, rest, hentries, hrest, rfl⟩ := List.forall₂_cons_right_iff.mp hbootstraps
          rw [if_pos hname', ClassFile.readBootstraps_eq hentries hat.starts, ih hsources hrest]
          rfl
        · rw [if_neg (by simpa using hname')] at hbootstraps
          rw [if_neg hname', ih hsources hbootstraps]
          rfl

theorem rel_getLast? {α β : Type} {R : α → β → Prop} {first : List α} {second : List β}
    (h : List.Forall₂ R first second) : Option.Rel R first.getLast? second.getLast? := by
  rw [List.getLast?_eq_head?_reverse, List.getLast?_eq_head?_reverse]
  exact rel_head? (List.rel_reverse h)

/-- The last bootstrap table is found. -/
theorem ClassAttributesSpelled.bootstraps_eq
    (spelled : ClassAttributesSpelled file.constants sources tables attributes)
    (covers : List.Forall₂ (EncodedAttribute.At file) attributes ranges) :
    file.bootstraps ranges = (tables.getLast?.getD []).toArray := by
  have hread : List.Forall₂ (fun entries range => file.readBootstraps range = .ok entries) tables
      (ranges.filter (·.name = "BootstrapMethods")) :=
    forall₂_trans spelled.bootstraps (forall₂_filter_named covers "BootstrapMethods")
      fun _ _ _ h hat => ClassFile.readBootstraps_eq h hat.starts
  have hlast := rel_getLast? hread
  unfold ClassFile.bootstraps
  generalize (ranges.filter (·.name = "BootstrapMethods")).getLast? = last at hlast
  generalize tables.getLast? = entries at hlast
  cases hlast with
  | none => rfl
  | some h =>
      simp only [h]
      rfl

end ClassAttributes

/-- A class file is read and told, whichever spellings were chosen. -/
theorem ClassOutline.SpelledAs.exists_told {c : ClassOutline} {parts : ClassParts}
    (spelled : c.SpelledAs parts) {content : List UInt8} (encoded : parts.encode = .ok content) :
    ∃ file extents story, ClassFile.read content.toArray = .ok file ∧ file.Tells extents story ∧
      c.Told story := by
  obtain ⟨tables, spelled⟩ := spelled
  have supported := spelled.supported
  rw [← spelled.version] at supported
  obtain ⟨file, hread, within⟩ :=
    ClassParts.read_eq spelled.pool supported encoded (Bytes.holds_all content)
  have hfields := spelled.fields
  have hmethods := spelled.methods
  have hattributes := spelled.attributes
  have hname := spelled.name
  have hsuper := spelled.super
  have hinterfaces := spelled.interfaces
  rw [← within.constants] at hfields hmethods hattributes hname hsuper hinterfaces
  obtain ⟨extents, hlayout, hfieldsAt, hmethodsAt, hattributesAt⟩ := within.layout_eq
    (fun part hpart => by
      obtain ⟨field, -, hfield⟩ := exists_left hfields hpart
      exact hfield.readable)
    (fun part hpart => by
      obtain ⟨method, -, hmethod⟩ := exists_left hmethods hpart
      exact hmethod.readable)
    hattributes.readable
  obtain ⟨methods, htold, htells⟩ := exists_between <|
    forall₂_trans hmethods hmethodsAt fun _ _ _ h hat => h.exists_told hat
  have hheader : HeaderShown file.constants (c.story methods) parts.header :=
    ⟨spelled.version, spelled.flags, hname, hsuper, hinterfaces⟩
  refine ⟨file, extents, c.story methods, hread, ?_, methods, htold, rfl⟩
  constructor
  case header => exact within.header_eq hheader
  case layout =>
    rw [hinterfaces.length_eq.symm] at hlayout
    exact hlayout
  case sources => exact hattributes.tell_eq hattributesAt
  case fields => exact forall₂_trans hfields hfieldsAt fun _ _ _ h hat => h.readField_eq hat
  case methods =>
    rw [hattributes.bootstraps_eq hattributesAt]
    exact htells

end JavaClass
