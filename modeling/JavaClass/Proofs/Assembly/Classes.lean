import JavaClass.Proofs.Assembly.Members
import JavaClass.Proofs.Constant.Additions

/-!
# Classes of a class draft

The events of a whole class leave a draft whose parts are encoded. In the table
of constants that is written with them these parts show the class that was
told.
-/

namespace JavaClass

open BigEndian ConstantPool

/-- The attributes of a class for its source file. -/
def SourceShown (table : ConstantTable) (source : Option String)
    (attributes : List EncodedAttribute) : Prop :=
  match source with
  | none => attributes = []
  | some file => ∃ a slot, attributes = [a] ∧ table.text a.name = .ok "SourceFile" ∧
      a.contents = u16 slot ∧ table.text slot = .ok file

/-- The attributes of a class for its bootstrap methods. -/
def BootstrapsShown (table : ConstantTable) (bootstraps : List Bootstrap)
    (attributes : List EncodedAttribute) : Prop :=
  (bootstraps = [] ∧ attributes = []) ∨
    ∃ a, attributes = [a] ∧ table.text a.name = .ok "BootstrapMethods" ∧
      encodeTable Bootstrap.encode bootstraps = .ok a.contents

/-- A table that is written has no more entries than can be counted. -/
theorem BootstrapsShown.size_le {table : ConstantTable} {bootstraps : Array Bootstrap}
    {attributes : List EncodedAttribute}
    (shown : BootstrapsShown table bootstraps.toList attributes) :
    bootstraps.size ≤ countLimit := by
  rw [← Array.length_toList]
  obtain ⟨hnil, -⟩ | ⟨a, -, -, htable⟩ := shown
  · rw [hnil]
    exact Nat.zero_le _
  · exact Nat.le_of_lt_succ (encodeTable_eq_ok htable).1

/-- What stands in front of the members was settled for a class. -/
structure HeaderShown (table : ConstantTable) (story : ClassStory) (header : EncodedHeader) :
    Prop where
  version : header.version = story.version
  flags : header.flags = story.flags
  name : table.className header.thisClass = .ok story.name
  super : table.optionalClassName header.superClass = .ok story.super
  interfaces : List.Forall₂ (fun name slot => table.className slot = .ok name) story.interfaces
    header.interfaces

/-- Parts were settled for a class, but for its methods. -/
structure FrameShown (table : ConstantTable) (bootstraps : Array Bootstrap) (story : ClassStory)
    (parts : ClassParts) : Prop where
  header : HeaderShown table story parts.header
  fields : List.Forall₂ (FieldShown table) story.fields parts.fields
  attributes : ∃ source entries, parts.attributes = source ++ entries ∧
    SourceShown table story.sources.getLast? source ∧
      BootstrapsShown table bootstraps.toList entries

/-- Parts were settled for a class. -/
structure ClassShown (table : ConstantTable) (bootstraps : Array Bootstrap) (story : ClassStory)
    (parts : ClassParts) : Prop extends FrameShown table bootstraps story parts where
  methods : List.Forall₂ (MethodShown table bootstraps) story.methods parts.methods

namespace ClassDraft

variable {draft draft' : ClassDraft}

theorem receive_header (sound : draft.Sound) {story : ClassStory}
    (h : receive (.header story.version story.flags story.name story.super story.interfaces)
      draft = .ok () draft') :
    ∃ pool header, draft.Grows draft' [] ∧ draft' = { draft with pool, header := some header } ∧
      ∀ table, pool.Within table → HeaderShown table story header := by
  simp only [receive] at h
  obtain ⟨name, pool₁, grows₁, hname, h⟩ :=
    request_bind_eq_ok sound (Request.gives_classNamed _) h
  obtain ⟨super, pool₂, grows₂, hsuper, h⟩ :=
    request_bind_eq_ok grows₁.sound (Request.gives_optionalClass _) h
  obtain ⟨interfaces, pool₃, grows₃, hinterfaces, h⟩ := request_bind_eq_ok grows₂.sound
    (Request.gives_each Request.gives_classNamed story.interfaces) h
  cases h
  refine ⟨pool₃, _, (grows₁.trans (grows₂.trans grows₃)).trans
    (grows₃.sound.grows_of_same rfl rfl rfl), rfl, fun table within => ⟨rfl, rfl, ?_, ?_, ?_⟩⟩
  · exact (hname table (within.of_below (grows₂.below.trans grows₃.below))).2
  · exact hsuper table (within.of_below grows₃.below)
  · exact (hinterfaces table within).imp fun _ _ hslot => hslot.2

theorem takes_sources {sources : List String} (sound : draft.Sound)
    (h : Receiver.Takes receive (sources.map .source) draft draft') :
    ∃ pool source, draft.Grows draft' [] ∧ draft' = { draft with pool, source } ∧
      ∀ table, pool.Within table → (sources = [] ∧ source = draft.source) ∨
        ∃ file, sources.getLast? = some file ∧
          SourceShown table (some file) source.toList := by
  induction sources generalizing draft with
  | nil =>
      cases h
      exact ⟨draft'.pool, draft'.source, sound.grows_of_same rfl rfl rfl, rfl,
        fun _ _ => .inl ⟨rfl, rfl⟩⟩
  | cons file rest ih =>
      obtain ⟨draft₁, hfirst, hrest⟩ := Receiver.takes_cons_iff.mp h
      simp only [receive] at hfirst
      obtain ⟨slot, pool₁, grows₁, hslot, hfirst⟩ :=
        request_bind_eq_ok sound (Request.gives_text file) hfirst
      obtain ⟨a, pool₂, grows₂, ha, hfirst⟩ := request_bind_eq_ok grows₁.sound
        (Request.gives_named "SourceFile" (.ok (u16 slot))) hfirst
      cases hfirst
      have grows : draft.Grows { draft with pool := pool₂, source := some a } [] :=
        (grows₁.trans grows₂).trans (grows₂.sound.grows_of_same rfl rfl rfl)
      obtain ⟨pool, source, grows₃, rfl, hshown⟩ := ih grows.sound hrest
      refine ⟨pool, source, grows.trans grows₃, rfl, fun table within => .inr ?_⟩
      have within₂ := within.of_below grows₃.below
      obtain ⟨rfl, rfl⟩ | ⟨last, hlast, hsource⟩ := hshown table within
      · exact ⟨file, rfl, a, slot, rfl, (ha table within₂).1,
          (Except.ok.inj (ha table within₂).2).symm,
          (hslot table (within₂.of_below grows₂.below)).2⟩
      · exact ⟨last, by rw [List.getLast?_cons, hlast]; rfl, hsource⟩

theorem takes_fields {fields : List FieldDef} (sound : draft.Sound)
    (h : Receiver.Takes receive (fields.flatMap FieldDef.events) draft draft') :
    ∃ pool parts, draft.Grows draft' [] ∧
      draft' = { draft with pool, fields := draft'.fields, field := draft'.field } ∧
      draft'.fields.toList = draft.fields.toList ++ parts ∧
      ∀ table, pool.Within table → List.Forall₂ (FieldShown table) fields parts := by
  induction fields generalizing draft with
  | nil =>
      cases h
      exact ⟨draft'.pool, [], sound.grows_of_same rfl rfl rfl, rfl, by simp, fun _ _ => .nil⟩
  | cons field rest ih =>
      obtain ⟨draft₁, hfirst, hrest⟩ := Receiver.takes_append_iff.mp h
      obtain ⟨pool₁, part, grows₁, rfl, hshown₁⟩ := takes_field sound hfirst
      obtain ⟨pool, parts, grows₂, hsame, hparts, hshown₂⟩ := ih grows₁.sound hrest
      refine ⟨pool, part :: parts, grows₁.trans grows₂, by rw [hsame], ?_, fun table within => ?_⟩
      · rw [hparts]
        simp
      · have below := grows₂.below
        rw [hsame] at below
        exact .cons (hshown₁ table (within.of_below below)) (hshown₂ table within)

/-- The events of a method add one member to a draft, and this is what every class file that the
draft grows into shows of it. -/
def AddsMethod (shows : ConstantTable → Array Bootstrap → EncodedMember → Prop)
    (story : MethodStory) : Prop :=
  ∀ draft draft' : ClassDraft, draft.Sound → Receiver.Takes receive story.events draft draft' →
    ∃ part, draft.Grows draft' story.calls ∧
      draft' = { draft with
        pool := draft'.pool
        bootstraps := draft'.bootstraps
        positions := draft'.positions
        methods := draft.methods.push part
        method := none } ∧
      ∀ table bootstraps, draft'.ShownIn table bootstraps → shows table bootstraps part

theorem takes_methods {shows : MethodStory → ConstantTable → Array Bootstrap → EncodedMember → Prop}
    {methods : List MethodStory} (sound : draft.Sound)
    (adds : ∀ story ∈ methods, AddsMethod (shows story) story)
    (h : Receiver.Takes receive (methods.flatMap MethodStory.events) draft draft') :
    ∃ parts, draft.Grows draft' (methods.flatMap MethodStory.calls) ∧
      draft' = { draft with
        pool := draft'.pool
        bootstraps := draft'.bootstraps
        positions := draft'.positions
        methods := draft'.methods
        method := draft'.method } ∧
      draft'.methods.toList = draft.methods.toList ++ parts ∧
      ∀ table bootstraps, draft'.ShownIn table bootstraps →
        List.Forall₂ (fun story part => shows story table bootstraps part) methods parts := by
  induction methods generalizing draft with
  | nil =>
      cases h
      exact ⟨[], sound.grows_of_same rfl rfl rfl, rfl, by simp, fun _ _ _ => .nil⟩
  | cons story rest ih =>
      obtain ⟨first, others⟩ := List.forall_mem_cons.mp adds
      obtain ⟨draft₁, hfirst, hrest⟩ := Receiver.takes_append_iff.mp h
      obtain ⟨part, grows₁, hdraft₁, hshown₁⟩ := first draft draft₁ sound hfirst
      obtain ⟨parts, grows₂, hsame, hparts, hshown₂⟩ := ih grows₁.sound others hrest
      refine ⟨part :: parts, grows₁.trans grows₂, ?_, ?_, fun table bootstraps shown => ?_⟩
      · rw [hsame, hdraft₁]
      · rw [hparts, hdraft₁]
        simp
      · exact .cons (hshown₁ table bootstraps (grows₂.shownIn shown))
          (hshown₂ table bootstraps shown)

/-- The constants that are needed for bootstrap methods at the end of a class. -/
def tableNames (entries : List EncodedAttribute) : List ConstantTree :=
  ConstantTree.allParts (entries.map fun _ => .text "BootstrapMethods")

theorem classAttributes_eq_ok {attributes : List EncodedAttribute}
    (h : classAttributes draft = .ok attributes draft') (valid : draft.pool.Valid) :
    ∃ pool entries, draft.pool.Gains (tableNames entries) pool ∧
      draft' = { draft with pool, source := none, bootstraps := #[] } ∧
      attributes = draft.source.toList ++ entries ∧
      ∀ table, pool.Within table → BootstrapsShown table draft.bootstraps.toList entries := by
  simp only [classAttributes] at h
  obtain ⟨source, draft₁, htake, h⟩ := bind_eq_ok_iff.mp h
  cases htake
  obtain ⟨bootstraps, draft₂, htake, h⟩ := bind_eq_ok_iff.mp h
  cases htake
  by_cases hempty : draft.bootstraps.isEmpty = true
  · rw [if_pos hempty] at h
    cases h
    refine ⟨draft.pool, [], valid.gains_self, rfl, by simp, fun table _ => .inl ⟨?_, rfl⟩⟩
    simpa using hempty
  · rw [if_neg hempty] at h
    obtain ⟨a, draft₃, hrequest, h⟩ := bind_eq_ok_iff.mp h
    obtain ⟨pool, hask, rfl⟩ := request_eq_ok_iff.mp hrequest
    cases h
    obtain ⟨-, -, hpost, -⟩ :=
      Request.gives_named "BootstrapMethods" _ draft.pool a pool valid hask
    exact ⟨pool, [a], Request.adds_named "BootstrapMethods" _ draft.pool a pool valid hask, rfl,
      rfl, fun table within => .inr ⟨a, rfl, (hpost table within).1, (hpost table within).2⟩⟩

/-- The end of a class that is taken gives a file. -/
theorem exists_of_finish (valid : draft.pool.Valid) (h : finish draft = .ok () draft') :
    ∃ header pool entries content, draft.header = some header ∧ draft'.bytes = .ok content ∧
      draft.pool.Gains (tableNames entries) pool ∧
      ClassParts.encode ⟨header, pool, draft.fields.toList, draft.methods.toList,
        draft.source.toList ++ entries⟩ = .ok content ∧
      ∀ table, pool.Within table → BootstrapsShown table draft.bootstraps.toList entries := by
  simp only [finish] at h
  obtain ⟨found, draft₁, htake, h⟩ := bind_eq_ok_iff.mp h
  cases htake
  cases hheader : draft.header with
  | none =>
      simp only [hheader] at h
      cases h
  | some header =>
      simp only [hheader] at h
      obtain ⟨attributes, draft₂, hattributes, h⟩ := bind_eq_ok_iff.mp h
      obtain ⟨parts, draft₃, htake, h⟩ := bind_eq_ok_iff.mp h
      cases htake
      obtain ⟨pool, entries, gains, rfl, rfl, hshown⟩ := classAttributes_eq_ok hattributes valid
      cases hencode : ClassParts.encode ⟨header, pool, draft.fields.toList, draft.methods.toList,
          draft.source.toList ++ entries⟩ with
      | error error =>
          simp only [hencode] at h
          cases h
      | ok bytes =>
          simp only [hencode] at h
          cases h
          exact ⟨header, pool, entries, bytes, rfl, rfl, gains, hencode, hshown⟩

theorem finish_eq_ok (valid : draft.pool.Valid) {header : EncodedHeader}
    (hheader : draft.header = some header) (h : finish draft = .ok () draft')
    {content : List UInt8} (hbytes : draft'.bytes = .ok content) :
    ∃ pool entries, pool.Valid ∧ draft.pool.Below pool ∧
      ClassParts.encode ⟨header, pool, draft.fields.toList, draft.methods.toList,
        draft.source.toList ++ entries⟩ = .ok content ∧
      ∀ table, pool.Within table → BootstrapsShown table draft.bootstraps.toList entries := by
  obtain ⟨found, pool, entries, written, hfound, hwritten, gains, hencode, hshown⟩ :=
    exists_of_finish valid h
  obtain rfl := Option.some.inj (hfound.symm.trans hheader)
  obtain rfl := Except.ok.inj (hwritten.symm.trans hbytes)
  exact ⟨pool, entries, gains.valid, gains.below, hencode, hshown⟩

/-- The events of a class give a file whose parts show the class, and of the methods what their
events let it show. -/
theorem takes_frame {shows : MethodStory → ConstantTable → Array Bootstrap → EncodedMember → Prop}
    {story : ClassStory} (adds : ∀ method ∈ story.methods, AddsMethod (shows method) method)
    (h : Receiver.Takes receive story.events empty draft) {content : List UInt8}
    (hbytes : draft.bytes = .ok content) :
    ∃ (parts : ClassParts) (bootstraps : Array Bootstrap), parts.encode = .ok content ∧
      parts.pool.Valid ∧ FrameShown ⟨parts.pool.entries⟩ bootstraps story parts ∧
      List.Forall₂ (fun method part => shows method ⟨parts.pool.entries⟩ bootstraps part)
        story.methods parts.methods ∧
      bootstraps.toList.Nodup ∧
      ∀ entry ∈ bootstraps.toList, ∃ call ∈ story.calls, entry.From parts.pool call := by
  obtain ⟨draft₁, hheader, h⟩ := Receiver.takes_cons_iff.mp h
  obtain ⟨draft₂, hsources, h⟩ := Receiver.takes_append_iff.mp h
  obtain ⟨draft₃, hfields, h⟩ := Receiver.takes_append_iff.mp h
  obtain ⟨draft₄, hmethods, h⟩ := Receiver.takes_append_iff.mp h
  obtain ⟨draft₅, hend, h⟩ := Receiver.takes_cons_iff.mp h
  cases h
  obtain ⟨pool₁, header, grows₁, rfl, hheaderShown⟩ := receive_header sound_empty hheader
  obtain ⟨pool₂, source, grows₂, rfl, hsourceShown⟩ := takes_sources grows₁.sound hsources
  obtain ⟨pool₃, fields, grows₃, hdraft₃, hfieldParts, hfieldsShown⟩ :=
    takes_fields grows₂.sound hfields
  obtain ⟨methods, grows₄, hdraft₄, hmethodParts, hmethodsShown⟩ :=
    takes_methods grows₃.sound adds hmethods
  have hheader₄ : draft₄.header = some header := by rw [hdraft₄, hdraft₃]
  obtain ⟨pool, entries, valid, below₅, hencode, hbootstraps⟩ :=
    finish_eq_ok grows₄.sound.pool hheader₄ hend hbytes
  have within := valid.within_self
  have within₄ := within.of_below below₅
  have shown₄ : draft₄.ShownIn ⟨pool.entries⟩ draft₄.bootstraps :=
    ⟨within₄, List.prefix_rfl, (hbootstraps _ within).size_le⟩
  have within₃ := within₄.of_below grows₄.below
  have within₂ := within₃.of_below grows₃.below
  have within₁ := within₂.of_below grows₂.below
  have hsource₄ : draft₄.source = source := by rw [hdraft₄, hdraft₃]
  refine ⟨_, draft₄.bootstraps, hencode, valid,
    ⟨hheaderShown _ within₁, ?_, _, _, rfl, ?_, hbootstraps _ within⟩, ?_, grows₄.sound.nodup, ?_⟩
  · have hfields₄ : draft₄.fields = draft₃.fields := by rw [hdraft₄]
    rw [hfields₄, hfieldParts]
    rw [hdraft₃] at within₃
    exact hfieldsShown _ within₃
  · rw [hsource₄]
    obtain ⟨hnil, rfl⟩ | ⟨file, hfile, hsource⟩ := hsourceShown _ within₂
    · rw [hnil]
      rfl
    · rw [hfile]
      exact hsource
  · have hempty : draft₃.methods = #[] := by
      rw [hdraft₃]
      rfl
    rw [hmethodParts, hempty]
    exact hmethodsShown _ _ shown₄
  · obtain ⟨more, hmore, hfrom⟩ := grows₄.bootstraps
    have hempty : draft₃.bootstraps = #[] := by
      rw [hdraft₃]
      rfl
    rw [hmore, hempty]
    intro entry hentry
    obtain ⟨call, hcall, hentryFrom⟩ := hfrom entry (by simpa using hentry)
    exact ⟨call, hcall, hentryFrom.mono below₅⟩

/-- The events of a class give a file whose parts show it. -/
theorem takes_class {story : ClassStory} (proper : ∀ method ∈ story.methods, method.Proper)
    (h : Receiver.Takes receive story.events empty draft) {content : List UInt8}
    (hbytes : draft.bytes = .ok content) :
    ∃ (parts : ClassParts) (bootstraps : Array Bootstrap), parts.encode = .ok content ∧
      parts.pool.Valid ∧ ClassShown ⟨parts.pool.entries⟩ bootstraps story parts ∧
      bootstraps.toList.Nodup ∧
      ∀ entry ∈ bootstraps.toList, ∃ call ∈ story.calls, entry.From parts.pool call := by
  have adds : ∀ method ∈ story.methods,
      AddsMethod (fun table bootstraps => MethodShown table bootstraps method) method :=
    fun method hmethod _ _ sound htakes => takes_method sound (proper method hmethod) htakes
  obtain ⟨parts, bootstraps, hencode, valid, frame, methods, nodup, hfrom⟩ :=
    takes_frame adds h hbytes
  exact ⟨parts, bootstraps, hencode, valid, ⟨frame, methods⟩, nodup, hfrom⟩

end ClassDraft

end JavaClass
