import JavaClass.Proofs.Assembly.Bootstraps
import JavaClass.Proofs.Assembly.Written
import JavaClass.Proofs.ClassFile.References

/-!
# References of class files that were written

Whatever an event needs, the class file in which the class is written refers to:
each part of the file stands for an event, and refers to the constants that the
draft asked for because of it. So the file leads to every constant in its pool.

## Implementation notes

What is read through a slot is what was told up to normal forms. The constant
that was asked for stands there as well, since the pool has nothing else that is
read the same. That is kept apart (`Resolves`) from what is read where.
-/

namespace JavaClass

open Bytecode ClassDraft

/-- The literals and the bootstrap methods of events stand where they are read. -/
structure ClassFile.Resolves (file : ClassFile) (bootstraps : Array Bootstrap)
    (events : List Event) : Prop where
  literal : ∀ (slot : UInt16) (value : Literal), file.constants.literal slot = .ok value.normal →
    (ConstantTree.literal value).Shown file.constants slot
  position : ∀ (call : BootstrapCall) (first second : UInt16),
    NamesBootstrap call file.constants bootstraps first →
      NamesBootstrap call file.constants bootstraps second → first = second
  called : ∀ i, .instruction i ∈ events → ∀ call ∈ i.calls,
    ∃ position, NamesBootstrap call file.constants bootstraps position

/-- An instruction refers to one constant at most. -/
theorem Instruction.Operand.unique {file : ClassFile} {bootstraps : Array Bootstrap}
    {events : List Event} (resolves : file.Resolves bootstraps events) {i : Instruction LabelToken}
    {tree tree' : ConstantTree} (h : i.Operand file.constants bootstraps tree)
    (h' : i.Operand file.constants bootstraps tree') : tree = tree' := by
  cases h with
  | callSite names =>
      cases h' with
      | callSite names' => rw [resolves.position _ _ _ names names']
  | _ => cases h'; rfl

theorem Instruction.Operand.isPseudo {table : ConstantTable} {bootstraps : Array Bootstrap}
    {i : Instruction LabelToken} {tree : ConstantTree} (h : i.Operand table bootstraps tree) :
    i.isPseudo = false := by
  cases h <;> rfl

/-- Events that are no instructions need what they list and the names of attributes. -/
theorem Event.Needs.cases_uncoded {table : ConstantTable} {bootstraps : Array Bootstrap}
    {event : Event} {tree : ConstantTree} (h : event.Needs table bootstraps tree)
    (uncoded : ∀ i, event ≠ .instruction i) :
    tree ∈ event.constants ∨ ∃ name ∈ event.attributeNames, tree = .text name := by
  cases h with
  | listed mem => exact .inl mem
  | named mem => exact .inr ⟨_, mem, rfl⟩
  | operand => exact absurd rfl (uncoded _)

/-- Events for which no attribute is named need what they list. -/
theorem Event.Needs.mem_constants {table : ConstantTable} {bootstraps : Array Bootstrap}
    {event : Event} {tree : ConstantTree} (h : event.Needs table bootstraps tree)
    (unnamed : event.attributeNames = []) (uncoded : ∀ i, event ≠ .instruction i) :
    tree ∈ event.constants := by
  obtain mem | ⟨name, mem, -⟩ := h.cases_uncoded uncoded
  · exact mem
  · rw [unnamed] at mem
    cases mem

namespace ClassFile

variable {file : ClassFile} {extents : ClassLayout} {story : ClassStory} {parts : ClassParts}
  {events : List Event} {tree : ConstantTree}

/-- A bootstrap method that is named by a call, and its arguments. -/
theorem Resolves.refersTo_call
    (resolves : file.Resolves (file.bootstraps extents.attributes) events)
    {i : Instruction LabelToken} (told : .instruction i ∈ events) {call : BootstrapCall}
    (called : call ∈ i.calls) (mem : tree ∈ call.constants) : file.RefersTo extents tree := by
  obtain ⟨position, entry, found, method, arguments⟩ := resolves.called i told call called
  have listed := Array.mem_toList_iff.mpr (Array.mem_of_getElem? found)
  obtain ⟨range, held, named, entries, read, listed⟩ := exists_of_mem_bootstraps listed
  obtain rfl | mem := List.mem_cons.mp mem
  · refine ⟨entry.method, .bootstrap held named read listed (.inl rfl), ?_⟩
    exact resolves.literal _ (.methodHandle call.1) (ConstantTree.literal_of_methodHandle method)
  · obtain ⟨value, argument, rfl⟩ := List.mem_map.mp mem
    obtain ⟨slot, cited, literal⟩ := exists_right arguments argument
    exact ⟨slot, .bootstrap held named read listed (.inr cited), resolves.literal _ _ literal⟩

namespace Written

variable (written : file.Written extents story parts)

include written

theorem refersTo_header (mem : tree ∈ (headerEvent story).constants) :
    file.RefersTo extents tree := by
  obtain ⟨stop, within⟩ := written.within
  have header := within.header_eq written.shown.header
  simp only [headerEvent, Event.constants, ← List.map_append, ← List.map_cons] at mem
  obtain ⟨name, named, rfl⟩ := List.mem_map.mp mem
  exact refersTo_of_header header named

theorem names : (∀ member ∈ extents.fields ++ extents.methods, ∀ range ∈ member.attributes,
    file.Names range) ∧ ∀ range ∈ extents.attributes, file.Names range := by
  obtain ⟨_, -, layout⟩ := exceptBind_eq_ok_iff.mp written.layout
  exact names_of_layout layout

theorem refersTo_attribute {range : AttributeRange} (mem : range ∈ extents.attributes)
    (kept : range.name ∈ keptAttributes) : file.RefersTo extents (.text range.name) := by
  obtain ⟨slot, named, shown⟩ := written.names.2 range mem kept
  exact ⟨slot, .attributeName mem named, shown⟩

/-- The source file that was told last. -/
theorem refersTo_source {source : String} (last : story.sources.getLast? = some source)
    (mem : tree ∈ (Event.source source).constants) : file.RefersTo extents tree := by
  obtain ⟨attributes, entries, split, shown, -⟩ := written.shown.attributes
  have starts := written.attributes
  rw [last] at shown
  obtain ⟨a, slot, rfl, named, contents, text⟩ := shown
  rw [split] at starts
  obtain ⟨range, rest, start, -, ranges⟩ := List.forall₂_cons_left_iff.mp starts
  have held : range ∈ extents.attributes := by
    rw [ranges]
    exact List.mem_cons_self
  have named : range.name = "SourceFile" := start.name_eq named
  obtain rfl | mem := List.mem_cons.mp mem
  · exact ⟨slot, .source held named (start.slot contents), ConstantTree.shown_text_iff.mpr text⟩
  · obtain rfl := List.mem_singleton.mp mem
    rw [← named]
    exact written.refersTo_attribute held (by simp [named, keptAttributes])

/-- The names of the attributes of a member that are read. -/
theorem refersTo_memberAttribute {member : MemberRange}
    (mem : member ∈ extents.fields ++ extents.methods) {range : AttributeRange}
    (held : range ∈ member.attributes)
    (kept : range.name ∈ keptAttributes) : file.RefersTo extents (.text range.name) := by
  obtain ⟨slot, named, shown⟩ := written.names.1 member mem range held kept
  exact ⟨slot, .member mem (.attributeName held named), shown⟩

theorem refersTo_field {field : FieldDef} (mem : field ∈ story.fields)
    (resolves : file.Resolves (file.bootstraps extents.attributes) events)
    (needed : tree ∈ (fieldEvent field).constants) : file.RefersTo extents tree := by
  obtain ⟨part, hpart, shown⟩ := exists_right written.shown.fields mem
  obtain ⟨member, held, covers⟩ := exists_right written.fields hpart
  obtain ⟨texts, values⟩ := refersTo_of_readField held (shown.readField_eq covers)
  obtain rfl | needed := List.mem_cons.mp needed
  · exact texts _ (by simp [FieldDef.normal])
  obtain rfl | needed := List.mem_cons.mp needed
  · exact texts _ (by simp [FieldDef.normal])
  obtain ⟨value, valued, needed⟩ := List.mem_flatMap.mp needed
  have valued : value.normal ∈ field.normal.value :=
    Option.mem_map_of_mem _ (Option.mem_toList.mp valued)
  obtain ⟨range, hrange, named, slot, cited, literal⟩ := values _ valued
  obtain rfl | needed := List.mem_cons.mp needed
  · exact ⟨slot, cited, resolves.literal _ _ literal⟩
  · obtain rfl := List.mem_singleton.mp needed
    rw [← named]
    exact written.refersTo_memberAttribute (List.mem_append_left _ held) hrange
      (by simp [named, keptAttributes])

/-- What stands before the code of a method. -/
theorem refersTo_method {method : MethodStory} {member : MemberRange}
    (held : member ∈ extents.methods)
    (read : file.readMethod member =
      .ok ⟨method.flags, method.name, method.descriptor, method.exceptions⟩)
    (needed : tree ∈ (Event.method method.flags method.name method.descriptor
      method.exceptions).constants) : file.RefersTo extents tree := by
  obtain ⟨texts, exceptions⟩ := refersTo_of_readMethod held read
  obtain rfl | needed := List.mem_cons.mp needed
  · exact texts _ (by simp)
  obtain rfl | needed := List.mem_cons.mp needed
  · exact texts _ (by simp)
  split at needed
  · cases needed
  · rename_i some
    obtain rfl | needed := List.mem_cons.mp needed
    · obtain ⟨name, mem⟩ := List.exists_mem_of_ne_nil method.exceptions (by simpa using some)
      obtain ⟨-, range, hrange, named⟩ := exceptions name mem
      rw [← named]
      exact written.refersTo_memberAttribute (List.mem_append_right _ held) hrange
        (by simp [named, keptAttributes])
    · obtain ⟨name, mem, rfl⟩ := List.mem_map.mp needed
      exact (exceptions name mem).1

end Written

section Code

variable {member : MemberRange} {listing : Listing LabelToken} {bootstraps : Array Bootstrap}
  {range : AttributeRange} {body : BodyRecord}

/-- The constant that an instruction refers to. -/
theorem exists_cited_operand (resolves : file.Resolves bootstraps events)
    (spelled : List.Forall₂ ((file.window range body.length).Spelled bootstraps)
      (listing.instructions.filter (!·.isPseudo)) body.instructions)
    {i : Instruction LabelToken} (mem : i ∈ listing.instructions)
    (operand : i.Operand file.constants bootstraps tree) :
    ∃ slot, file.CodeCites range body slot ∧ tree.Shown file.constants slot := by
  obtain ⟨item, hitem, spells⟩ :=
    exists_right spelled (List.mem_filter.mpr ⟨mem, by simp [operand.isPseudo]⟩)
  obtain ⟨tree', slot, operand', shown, refers⟩ := spells.refers ⟨tree, operand⟩
  obtain rfl := operand.unique resolves operand'
  exact ⟨slot, .operand hitem refers, shown⟩

/-- The table of the lines. -/
theorem exists_cited_lineTable (reads : file.readBody range = .ok body)
    (shows : body.Shows file.constants bootstraps listing.outline.normal) {number : UInt16}
    {token : LabelToken} (mem : .line number token ∈ listing.instructions) :
    ∃ slot, file.CodeCites range body slot ∧
      (ConstantTree.text "LineNumberTable").Shown file.constants slot := by
  apply (readBody_eq_ok_iff.mp reads).exists_lineTable
  rw [shows.reads.lines]
  have line : (token, number) ∈ listing.instructions.filterMap Instruction.line? :=
    List.mem_filterMap.mpr ⟨_, mem, rfl⟩
  exact List.ne_nil_of_mem (List.mem_map_of_mem (List.mem_map_of_mem line))

/-- What code needs that is spelled in an attribute of a method. -/
theorem Resolves.refersTo_code
    (resolves : file.Resolves (file.bootstraps extents.attributes) events) {event : Event}
    (held : member ∈ extents.methods)
    (found : member.attributes.find? (·.name = "Code") = some range)
    (code : file.RefersTo extents (.text "Code")) (reads : file.readBody range = .ok body)
    (shows : body.Shows file.constants (file.bootstraps extents.attributes) listing.outline.normal)
    (spelled : List.Forall₂
      ((file.window range body.length).Spelled (file.bootstraps extents.attributes))
      (listing.instructions.filter (!·.isPseudo)) body.instructions)
    (hevent : event ∈ listing.events) (told : event ∈ events)
    (needs : event.Needs file.constants (file.bootstraps extents.attributes) tree) :
    file.RefersTo extents tree := by
  have cited (h : ∃ slot, file.CodeCites range body slot ∧ tree.Shown file.constants slot) :
      file.RefersTo extents tree := by
    obtain ⟨slot, cites, shown⟩ := h
    obtain ⟨hrange, named⟩ := mem_and_named_of_find? found
    exact ⟨slot, .code held hrange named reads cites, shown⟩
  obtain mem | hevent := List.mem_append.mp hevent
  · obtain ⟨i, hi, rfl⟩ := List.mem_map.mp mem
    cases needs with
    | listed needed =>
        obtain ⟨call, called, needed⟩ := List.mem_flatMap.mp needed
        exact resolves.refersTo_call told called needed
    | named needed =>
        cases i with
        | label token => cases needed
        | line number token =>
            obtain rfl := List.mem_singleton.mp needed
            exact cited (exists_cited_lineTable reads shows hi)
        | _ =>
            obtain rfl := List.mem_singleton.mp needed
            exact code
    | operand operand => exact cited (exists_cited_operand resolves spelled hi operand)
  obtain mem | mem := List.mem_append.mp hevent
  · obtain ⟨block, hblock, rfl⟩ := List.mem_map.mp mem
    obtain needed | ⟨name, needed, rfl⟩ := needs.cases_uncoded (by simp)
    · obtain ⟨name, caught, rfl⟩ := List.mem_map.mp needed
      have told : block.map (Listing.position listing.instructions) ∈
          listing.outline.normal.blocks := List.mem_map_of_mem hblock
      exact cited (exists_cited_exception shows told (Option.mem_toList.mp caught))
    · obtain rfl := List.mem_singleton.mp needed
      exact code
  · obtain rfl := List.mem_singleton.mp mem
    obtain needed | ⟨name, needed, rfl⟩ := needs.cases_uncoded (by simp)
    · cases needed
    · obtain rfl := List.mem_singleton.mp needed
      exact code

end Code

namespace Written

variable (written : file.Written extents story parts) {method : MethodStory} {event : Event}
  (resolves : file.Resolves (file.bootstraps extents.attributes) events)

include written resolves

/-- What the events of a method need. -/
theorem refersTo_of_method (proper : method.Proper) (mem : method ∈ story.methods)
    (hevent : event ∈ method.events) (told : event ∈ events)
    (needs : event.Needs file.constants (file.bootstraps extents.attributes) tree) :
    file.RefersTo extents tree := by
  obtain ⟨part, hpart, shown⟩ := exists_right written.shown.methods mem
  obtain ⟨member, held, covers⟩ := exists_right written.methods hpart
  have code {range : AttributeRange}
      (found : member.attributes.find? (·.name = "Code") = some range) :
      file.RefersTo extents (.text "Code") := by
    obtain ⟨hrange, named⟩ := mem_and_named_of_find? found
    rw [← named]
    exact written.refersTo_memberAttribute (List.mem_append_right _ held) hrange
      (by simp [named, keptAttributes])
  obtain ⟨read, spells⟩ := shown.reads covers
  obtain rfl | hevent := List.mem_cons.mp hevent
  · obtain needed | ⟨name, needed, rfl⟩ := needs.cases_uncoded (by simp)
    · exact written.refersTo_method held read needed
    · -- Flags that ask for code are those of a method that was told with code.
      obtain ⟨flagged, rfl⟩ : method.flags.hasCode = true ∧ name = "Code" := by
        simpa [Event.attributeNames] using needed
      generalize hcode : method.code = listing at spells
      cases spells with
      | absent => cases (proper.coded hcode).symm.trans flagged
      | spelled found => exact code found
  obtain hevent | hevent := List.mem_append.mp hevent
  · obtain ⟨listing, hcode, hevent⟩ := exists_listing_of_mem hevent
    rw [hcode] at spells
    cases spells with
    | spelled found reads _ shows spelled =>
        exact resolves.refersTo_code held found (code found) reads shows spelled hevent told needs
  · obtain rfl := List.mem_singleton.mp hevent
    cases needs.mem_constants rfl (by simp)

/-- What the events of a class need, if they name one source file at most. -/
theorem refersTo_of_needs (proper : ∀ method ∈ story.methods, method.Proper)
    (single : ∀ source ∈ story.sources, story.sources.getLast? = some source)
    (hevent : event ∈ story.events) (told : event ∈ events)
    (needs : event.Needs file.constants (file.bootstraps extents.attributes) tree) :
    file.RefersTo extents tree := by
  obtain rfl | hevent := List.mem_cons.mp hevent
  · exact written.refersTo_header (needs.mem_constants rfl (by simp))
  obtain mem | hevent := List.mem_append.mp hevent
  · obtain ⟨source, hsource, rfl⟩ := List.mem_map.mp mem
    exact written.refersTo_source (single source hsource) (needs.mem_constants rfl (by simp))
  obtain mem | hevent := List.mem_append.mp hevent
  · obtain ⟨field, hfield, mem⟩ := List.mem_flatMap.mp mem
    obtain rfl | mem := List.mem_cons.mp mem
    · exact written.refersTo_field hfield resolves (needs.mem_constants rfl (by simp))
    · obtain rfl := List.mem_singleton.mp mem
      cases needs.mem_constants rfl (by simp)
  obtain mem | mem := List.mem_append.mp hevent
  · obtain ⟨method, hmethod, mem⟩ := List.mem_flatMap.mp mem
    exact written.refersTo_of_method resolves (proper method hmethod) hmethod mem told needs
  · obtain rfl := List.mem_singleton.mp mem
    cases needs.mem_constants rfl (by simp)

end Written

end ClassFile

namespace ClassDraft.Yields

variable {draft : ClassDraft} {events : List Event} {entries : List EncodedAttribute}
  {pool : ConstantPool} {file : ClassFile} {extents : ClassLayout} {slot : UInt16}

theorem accounts_or_named (h : draft.Yields events entries pool file extents)
    {constant : Constant} (found : file.constants.get slot = .ok constant) :
    Accounts file.constants (file.bootstraps extents.attributes) events slot ∨
      ∃ a ∈ entries, (ConstantTree.text "BootstrapMethods").Shown file.constants slot := by
  rw [h.constants, h.bootstraps]
  rw [h.constants] at found
  exact (accounted_empty.takes h.inner h.takes).of_gains h.gains h.shown found

/-- Every handle in the pool was asked for. -/
theorem exists_methodHandle (h : draft.Yields events entries pool file extents)
    {kind : HandleKind} {inner : UInt16}
    (found : file.constants.get slot = .ok (.methodHandle kind inner)) :
    ∃ handle, (ConstantTree.methodHandle handle).Shown file.constants slot := by
  obtain ⟨event, -, tree, needs, part, mem, shown⟩ | ⟨-, -, text⟩ := h.accounts_or_named found
  · obtain ⟨a, b, root⟩ := shown.get
    have root := (Except.ok.inj (found.symm.trans root)).symm
    obtain ⟨handle, rfl⟩ := (needs.ofClass.parts part mem).eq_methodHandle root
    exact ⟨handle, shown⟩
  · cases found.symm.trans text

theorem resolves (h : draft.Yields events entries pool file extents) :
    file.Resolves (file.bootstraps extents.attributes) events where
  literal := by
    intro slot value read
    have handles : ∀ kind inner, file.constants.get slot = .ok (.methodHandle kind inner) →
        ∃ handle, (ConstantTree.methodHandle handle).Shown file.constants slot :=
      fun _ _ => h.exists_methodHandle
    rw [h.constants] at read handles ⊢
    exact ConstantTree.shown_literal_of_read h.gains.valid handles read
  position := by
    rw [h.constants, h.bootstraps]
    exact fun _ _ _ names names' => (h.position_eq_iff names names').mpr rfl
  called := by
    intro i told call called
    obtain ⟨name, descriptor, heq⟩ := @Event.eq_of_mem_calls (.instruction i) _ called
    rw [heq] at told
    obtain ⟨position, positions⟩ := exists_positions h.takes told
    rw [h.constants, h.bootstraps]
    exact ⟨position, (positions.named h.inner h.takes h.shown).1⟩

end ClassDraft.Yields

/-- The end of a class is told once. -/
theorem ClassStory.exists_events (story : ClassStory) :
    ∃ events, story.events = events ++ [.classEnd] ∧ .classEnd ∉ events := by
  refine ⟨.header story.version story.flags story.name story.super story.interfaces ::
    (story.sources.map .source ++ (story.fields.flatMap FieldDef.events ++
      story.methods.flatMap MethodStory.events)), by simp [events], ?_⟩
  have code (method : MethodStory) : Event.classEnd ∉ method.code.elim [] Listing.events := by
    cases method.code with
    | none => exact List.not_mem_nil
    | some listing => simp [Listing.events]
  simp [FieldDef.events, MethodStory.events, code]

/-- In the file of a class that names one source file at most, each constant is needed by the class
or names the bootstrap table, and the file leads to it. -/
theorem ClassStory.exists_sparing {story : ClassStory} {draft : ClassDraft} {content : List UInt8}
    (proper : ∀ method ∈ story.methods, method.Proper)
    (single : ∀ source ∈ story.sources, story.sources.getLast? = some source)
    (takes : Receiver.Takes receive story.events .empty draft)
    (hbytes : draft.bytes = .ok content) :
    ∃ file extents, ClassFile.Opens file content.toArray ∧ file.version = story.version ∧
      file.extents = .ok extents ∧ file.Sparing extents ∧
      ∀ slot constant, file.constants.get slot = .ok constant →
        constant = .utf8 "BootstrapMethods" ∨
          Accounts file.constants (file.bootstraps extents.attributes) story.events slot := by
  obtain ⟨file, extents, parts, opens, version, written⟩ := story.exists_written proper takes hbytes
  obtain ⟨events, split, inner⟩ := story.exists_events
  rw [split] at takes
  obtain ⟨last, entries, pool, file', extents', content', hbytes', opens', yields⟩ :=
    exists_file_of_takes inner takes
  obtain rfl := Except.ok.inj (hbytes'.symm.trans hbytes)
  obtain rfl := opens'.unique opens
  obtain rfl := Except.ok.inj (yields.layout.symm.trans written.layout)
  have within : events ⊆ story.events := split ▸ List.subset_append_left ..
  refine ⟨file', extents', opens, version, written.layout, fun slot constant found => ?_,
    fun slot constant found => ?_⟩
  · obtain ⟨event, told, tree, needs, part, mem, shown⟩ | ⟨a, mem, text⟩ :=
      yields.accounts_or_named found
    · have refers :=
        written.refersTo_of_needs yields.resolves proper single (within told) told needs
      exact refers.reaches yields.gains.valid yields.constants mem shown
    · obtain ⟨range, held, named⟩ := yields.tables a mem
      have refers := written.refersTo_attribute held (by simp [named, ClassFile.keptAttributes])
      rw [named] at refers
      exact refers.reaches yields.gains.valid yields.constants (ConstantTree.self_mem_parts _) text
  · obtain accounts | ⟨-, -, text⟩ := yields.accounts_or_named found
    · exact .inr (accounts.mono within)
    · exact .inl (Except.ok.inj (found.symm.trans text))

end JavaClass
