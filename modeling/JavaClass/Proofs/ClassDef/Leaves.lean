import JavaClass.Proofs.Assembly.Origins
import JavaClass.Proofs.ClassDef.Reencoding
import JavaClass.Proofs.ClassFile.Order
import JavaClass.Proofs.ClassFile.References
import JavaClass.Proofs.ClassFile.Tiling
import JavaClass.Proofs.Constant.Leaves

/-!
# Texts and numbers of decoded classes

Whatever text or number a decoded class needs, its file refers to it outside of
the attributes that are skipped, or it is the name of an attribute that is read.

## Implementation notes

This is not said of the constants themselves. Fields are read from references to
methods as well, and handles drop what is not needed, so a constant that is
needed may not be in the file.
-/

namespace JavaClass

open Bytecode

/-- The texts and numbers of the constant to which an instruction refers. -/
def Instruction.leaves {α : Type} : Instruction α → List Constant
  | field _ owner name descriptor => (ConstantTree.field owner name descriptor).leaves
  | method _ owner name descriptor _ => (ConstantTree.field owner name descriptor).leaves
  | invokeDynamic name descriptor _ _ => (ConstantTree.nameAndType name descriptor).leaves
  | type _ name => (ConstantTree.classNamed name).leaves
  | load value => (ConstantTree.literal value).leaves
  | multiNewArray descriptor _ => (ConstantTree.classNamed descriptor).leaves
  | _ => []

theorem Instruction.leaves_map {α β : Type} (f : α → β) (i : Instruction α) :
    (i.map f).leaves = i.leaves := by
  cases i <;> rfl

theorem Instruction.Operand.leaves_eq {table : ConstantTable} {bootstraps : Array Bootstrap}
    {i : Instruction LabelToken} {tree : ConstantTree} (h : i.Operand table bootstraps tree) :
    tree.leaves = i.leaves := by
  cases h <;> rfl

theorem Instruction.isPseudo_of_mem_leaves {α : Type} {i : Instruction α} {constant : Constant}
    (mem : constant ∈ i.leaves) : i.isPseudo = false := by
  cases i with
  | label | line => cases mem
  | _ => rfl

namespace Bytecode.Window

variable {window : Window} {pc n : Nat} {decoded : Decoded} {bootstraps : Array Bootstrap}
  {i : Instruction Nat} {constant : Constant}

/-- What the constant of an instruction is made of is found from the slot behind its operation
code. -/
theorem exists_finds_of_decode (h : window.decode pc = .ok (decoded, n))
    (tells : decoded.Tells window.constants bootstraps i) (mem : constant ∈ i.leaves) :
    ∃ slot, window.Refers pc slot ∧ window.constants.Finds slot constant := by
  cases decode_eq_ok_iff.mp h with
  | constant code refers =>
      cases tells with
      | load read =>
          exact ⟨_, .narrow code.byte code.shape_eq refers, ConstantTree.finds_of_literal read mem⟩
  | wideConstant code refers =>
      cases tells with
      | load read =>
          exact ⟨_, .wide code.byte (by simp [code.shape_eq]) refers,
            ConstantTree.finds_of_literal read mem⟩
  | callSite code refers found =>
      cases tells with
      | call =>
          have shown := ConstantTree.shown_callSite_iff.mpr found
          exact ⟨_, .wide code.byte (by simp [code.shape_eq]) refers, shown.finds mem⟩
  | field code refers found | method code refers found =>
      cases tells
      exact ⟨_, .wide code.byte (by simp [code.shape_eq]) refers,
        ConstantTree.finds_of_member found mem⟩
  | type code refers found | multiArray code refers found =>
      cases tells
      have shown := ConstantTree.shown_classNamed_iff.mpr found
      exact ⟨_, .wide code.byte (by simp [code.shape_eq]) refers, shown.finds mem⟩
  | _ =>
      -- Without a constant there are no texts and numbers.
      cases tells
      cases mem

theorem Run.exists_decode {items : List (Nat × Decoded)} {stop : Nat}
    (run : window.Run pc items stop) {item : Nat × Decoded} (mem : item ∈ items) :
    ∃ n, window.decode item.1 = .ok (item.2, n) := by
  induction run with
  | nil => cases mem
  | cons inside found rest ih =>
      obtain rfl | mem := List.mem_cons.mp mem
      · exact ⟨_, found⟩
      · exact ih mem

end Bytecode.Window

namespace ClassFile

variable {file : ClassFile} {extents : ClassLayout} {story : ClassStory} {constant : Constant}
  {tree : ConstantTree}

/-- A file refers to a text or a number, or it is the name of an attribute that is read. -/
def Supplies (file : ClassFile) (extents : ClassLayout) (constant : Constant) : Prop :=
  (∃ name ∈ keptAttributes, constant = .utf8 name) ∨
    ∃ slot, file.Cites extents slot ∧ file.constants.Finds slot constant

theorem RefersTo.supplies (refers : file.RefersTo extents tree) (mem : constant ∈ tree.leaves) :
    file.Supplies extents constant := by
  obtain ⟨slot, cites, shown⟩ := refers
  exact .inr ⟨slot, cites, shown.finds mem⟩

theorem supplies_of_name {name : String} (kept : name ∈ keptAttributes)
    (mem : constant ∈ (ConstantTree.text name).leaves) : file.Supplies extents constant :=
  .inl ⟨name, kept, List.mem_singleton.mp mem⟩

/-- A bootstrap method and its arguments are read from the bootstrap table. -/
theorem Tells.supplies_call (tells : file.Tells extents story) {call : BootstrapCall}
    (called : call ∈ story.calls) (needed : tree ∈ call.constants) (mem : constant ∈ tree.leaves) :
    file.Supplies extents constant := by
  obtain ⟨entry, listed, method, arguments⟩ := tells.calls called
  obtain ⟨range, held, named, entries, read, listed⟩ := exists_of_mem_bootstraps listed
  obtain rfl | needed := List.mem_cons.mp needed
  · refine .inr ⟨entry.method, .bootstrap held named read listed (.inl rfl), ?_⟩
    exact ConstantTree.finds_of_methodHandle method mem
  · obtain ⟨value, argument, rfl⟩ := List.mem_map.mp needed
    obtain ⟨slot, cited, literal⟩ := exists_left (mapM_eq_ok_iff.mp arguments) argument
    refine .inr ⟨slot, .bootstrap held named read listed (.inr cited), ?_⟩
    exact ConstantTree.finds_of_literal literal mem

section Code

variable {member : MemberRange} {bootstraps : Array Bootstrap} {listing : Listing LabelToken}

/-- What the instructions of a method are made of is found from its code. -/
theorem TellsCode.supplies_operand (tells : file.TellsCode bootstraps member (some listing))
    (held : member ∈ extents.methods) {i : Instruction LabelToken} (hi : i ∈ listing.instructions)
    (mem : constant ∈ i.leaves) : file.Supplies extents constant := by
  obtain ⟨range, body, found, read, item, hitem, source, rfl, told⟩ :=
    tells.exists_item hi (Instruction.isPseudo_of_mem_leaves mem)
  have run := Window.run_of_decodeAll (readBody_eq_ok_iff.mp read).instructions
  obtain ⟨n, decoded⟩ := run.exists_decode hitem
  rw [Instruction.leaves_map, ← Instruction.leaves_map body.startAt] at mem
  obtain ⟨slot, refers, finds⟩ := Window.exists_finds_of_decode decoded told mem
  obtain ⟨hrange, named⟩ := mem_and_named_of_find? found
  exact .inr ⟨slot, .code held hrange named read (.operand hitem refers), finds⟩

/-- The exceptions of handlers are found from the code. -/
theorem TellsCode.supplies_exception (tells : file.TellsCode bootstraps member (some listing))
    (held : member ∈ extents.methods) {block : TryBlock LabelToken}
    (hblock : block ∈ listing.blocks) {name : String} (caught : block.exception = some name)
    (mem : constant ∈ (ConstantTree.classNamed name).leaves) : file.Supplies extents constant := by
  cases tells with
  | @told range body o found read shows proper =>
      obtain ⟨source, hsource, rfl⟩ := List.mem_map.mp hblock
      obtain ⟨slot, cites, shown⟩ := exists_cited_exception shows hsource caught
      obtain ⟨hrange, named⟩ := mem_and_named_of_find? found
      exact .inr ⟨slot, .code held hrange named read cites, shown.finds mem⟩

end Code

end ClassFile

theorem Event.attributeNames_subset (event : Event) :
    event.attributeNames ⊆ ClassFile.keptAttributes := by
  have code : ["Code"] ⊆ ClassFile.keptAttributes := by simp [ClassFile.keptAttributes]
  cases event with
  | method flags name descriptor exceptions =>
      cases coded : flags.hasCode <;> simp [attributeNames, coded, ClassFile.keptAttributes]
  | instruction i =>
      cases i with
      | label token => exact List.nil_subset _
      | line number token => simp [attributeNames, ClassFile.keptAttributes]
      | _ => exact code
  | tryBlock | maxs => exact code
  | _ => exact List.nil_subset _

/-- Instructions are told for the code of methods. -/
theorem ClassStory.exists_code_of_mem {story : ClassStory} {i : Instruction LabelToken}
    (mem : .instruction i ∈ story.events) :
    ∃ method ∈ story.methods, ∃ listing, method.code = some listing ∧ i ∈ listing.instructions := by
  have told : ∃ method ∈ story.methods, .instruction i ∈ method.events := by
    simpa [ClassStory.events, FieldDef.events] using mem
  obtain ⟨method, hmethod, told⟩ := told
  have told : .instruction i ∈ method.code.elim [] Listing.events := by
    simpa [MethodStory.events] using told
  obtain ⟨listing, code, told⟩ := exists_listing_of_mem told
  exact ⟨method, hmethod, listing, code, by simpa [Listing.events] using told⟩

namespace ClassDef

open ClassFile

variable {c : ClassDef} {file : ClassFile} {extents : ClassLayout} {story : ClassStory}
  {constant : Constant} {tree : ConstantTree} {event : Event} {table : ConstantTable}
  {bootstraps : Array Bootstrap}

/-- The code of a definition was told by a method of its file, with other labels. -/
theorem Builds.exists_code (builds : c.Builds story) (tells : file.Tells extents story)
    {method : MethodStory} (hmethod : method ∈ c.story.methods) {listing : Listing LabelToken}
    (code : method.code = some listing) :
    ∃ member ∈ extents.methods, ∃ told : Option (Listing LabelToken),
      file.TellsCode (file.bootstraps extents.attributes) member told ∧
        ∃ f : LabelToken → LabelToken, listing = (told.getD .blank).map f := by
  obtain ⟨built, hbuilt, rfl⟩ := List.mem_map.mp hmethod
  obtain ⟨told, htold, builds⟩ := exists_right builds.methods hbuilt
  obtain ⟨member, held, tells⟩ := exists_right tells.methods htold
  obtain ⟨-, rfl⟩ := MethodDef.story_code_eq_some_iff.mp code
  obtain ⟨known, body⟩ := builds.body
  refine ⟨member, held, told.code, tells.code, Label.token ∘ MethodBody.labelOf known, ?_⟩
  rw [body.holds, Listing.map_map]

/-- What the instructions of a decoded class are made of. -/
theorem Builds.supplies_operand (builds : c.Builds story) (tells : file.Tells extents story)
    {method : MethodStory} (hmethod : method ∈ c.story.methods) {listing : Listing LabelToken}
    (code : method.code = some listing) {i : Instruction LabelToken}
    (hi : i ∈ listing.instructions) (mem : constant ∈ i.leaves) :
    file.Supplies extents constant := by
  obtain ⟨member, held, told, tells, f, rfl⟩ := builds.exists_code tells hmethod code
  obtain ⟨source, hsource, rfl⟩ := List.mem_map.mp hi
  rw [Instruction.leaves_map] at mem
  cases told with
  | none => cases hsource
  | some listing => exact tells.supplies_operand held hsource mem

/-- What the handlers of a decoded class are made of. -/
theorem Builds.supplies_exception (builds : c.Builds story) (tells : file.Tells extents story)
    {method : MethodStory} (hmethod : method ∈ c.story.methods) {listing : Listing LabelToken}
    (code : method.code = some listing) {block : TryBlock LabelToken}
    (hblock : block ∈ listing.blocks) {name : String} (caught : block.exception = some name)
    (mem : constant ∈ (ConstantTree.classNamed name).leaves) : file.Supplies extents constant := by
  obtain ⟨member, held, told, tells, f, rfl⟩ := builds.exists_code tells hmethod code
  obtain ⟨source, hsource, rfl⟩ := List.mem_map.mp hblock
  cases told with
  | none => cases hsource
  | some listing => exact tells.supplies_exception held hsource caught mem

/-- What is listed for a method of a decoded class. -/
theorem Builds.supplies_method (builds : c.Builds story) (tells : file.Tells extents story)
    {method : MethodStory} (hmethod : method ∈ c.story.methods) (told : event ∈ method.events)
    (needed : tree ∈ event.constants) (mem : constant ∈ tree.leaves) :
    file.Supplies extents constant := by
  obtain rfl | told := List.mem_cons.mp told
  · obtain ⟨definition, hdefinition, rfl⟩ := List.mem_map.mp hmethod
    obtain ⟨methodStory, hstory, built⟩ := exists_right builds.methods hdefinition
    obtain ⟨member, held, tells⟩ := exists_right tells.methods hstory
    obtain ⟨texts, exceptions⟩ := refersTo_of_readMethod held tells.header
    obtain rfl | needed := List.mem_cons.mp needed
    · exact (texts definition.name (by simp [built.name])).supplies mem
    obtain rfl | needed := List.mem_cons.mp needed
    · exact (texts definition.descriptor (by simp [built.descriptor])).supplies mem
    split at needed
    · cases needed
    · obtain rfl | needed := List.mem_cons.mp needed
      · exact supplies_of_name (by simp [keptAttributes]) mem
      · obtain ⟨name, declared, rfl⟩ := List.mem_map.mp needed
        change name ∈ definition.exceptions at declared
        rw [built.exceptions] at declared
        exact (exceptions name declared).1.supplies mem
  obtain told | told := List.mem_append.mp told
  · obtain ⟨listing, code, told⟩ := exists_listing_of_mem told
    obtain told | told := List.mem_append.mp told
    · obtain ⟨i, hi, rfl⟩ := List.mem_map.mp told
      obtain ⟨call, called, needed⟩ := List.mem_flatMap.mp needed
      refine tells.supplies_call (builds.calls_subset ?_) needed mem
      refine List.mem_flatMap.mpr ⟨method, hmethod, ?_⟩
      rw [MethodStory.calls, code]
      exact List.mem_flatMap.mpr ⟨i, hi, called⟩
    obtain told | told := List.mem_append.mp told
    · obtain ⟨block, hblock, rfl⟩ := List.mem_map.mp told
      obtain ⟨name, caught, rfl⟩ := List.mem_map.mp needed
      exact builds.supplies_exception tells hmethod code hblock (Option.mem_toList.mp caught) mem
    · obtain rfl := List.mem_singleton.mp told
      cases needed
  · obtain rfl := List.mem_singleton.mp told
    cases needed

/-- What is listed for a decoded class. -/
theorem Builds.supplies_listed (builds : c.Builds story) (tells : file.Tells extents story)
    (told : event ∈ c.story.events) (needed : tree ∈ event.constants)
    (mem : constant ∈ tree.leaves) : file.Supplies extents constant := by
  obtain rfl | told := List.mem_cons.mp told
  · simp only [Event.constants, ← List.map_append, ← List.map_cons] at needed
    obtain ⟨name, named, rfl⟩ := List.mem_map.mp needed
    refine (refersTo_of_header tells.header ?_).supplies mem
    rwa [← builds.name, ← builds.super, ← builds.interfaces]
  obtain told | told := List.mem_append.mp told
  · obtain ⟨source, hsource, rfl⟩ := List.mem_map.mp told
    obtain rfl | needed := List.mem_cons.mp needed
    · have last : story.sources.getLast? = some source :=
        builds.source.symm.trans (Option.mem_toList.mp hsource)
      obtain ⟨range, hrange, read⟩ :=
        exists_left (sources_of_tell tells.sources) (List.mem_of_getLast? last)
      obtain ⟨held, named⟩ := List.mem_filter.mp hrange
      obtain ⟨slot, found, text⟩ := exceptBind_eq_ok_iff.mp read
      exact .inr ⟨slot, .source held (of_decide_eq_true named) found,
        (ConstantTree.shown_text_iff.mpr text).finds mem⟩
    · obtain rfl := List.mem_singleton.mp needed
      exact supplies_of_name (by simp [keptAttributes]) mem
  obtain told | told := List.mem_append.mp told
  · obtain ⟨field, hfield, told⟩ := List.mem_flatMap.mp told
    obtain rfl | told := List.mem_cons.mp told
    · change field ∈ c.fields.toList at hfield
      rw [builds.fields] at hfield
      obtain ⟨member, held, read⟩ := exists_right tells.fields hfield
      obtain ⟨texts, values⟩ := refersTo_of_readField held read
      obtain rfl | needed := List.mem_cons.mp needed
      · exact (texts field.name (by simp)).supplies mem
      obtain rfl | needed := List.mem_cons.mp needed
      · exact (texts field.descriptor (by simp)).supplies mem
      obtain ⟨value, valued, needed⟩ := List.mem_flatMap.mp needed
      obtain rfl | needed := List.mem_cons.mp needed
      · obtain ⟨-, -, -, slot, cites, literal⟩ := values value (Option.mem_toList.mp valued)
        exact .inr ⟨slot, cites, ConstantTree.finds_of_literal literal mem⟩
      · obtain rfl := List.mem_singleton.mp needed
        exact supplies_of_name (by simp [keptAttributes]) mem
    · obtain rfl := List.mem_singleton.mp told
      cases needed
  obtain told | told := List.mem_append.mp told
  · obtain ⟨_, hmethod, told⟩ := List.mem_flatMap.mp told
    exact builds.supplies_method tells hmethod told needed mem
  · obtain rfl := List.mem_singleton.mp told
    cases needed

/-- Whatever a decoded class needs, its file supplies what it is made of. -/
theorem Builds.supplies (builds : c.Builds story) (tells : file.Tells extents story)
    (told : event ∈ c.story.events) (needs : event.Needs table bootstraps tree)
    (mem : constant ∈ tree.leaves) : file.Supplies extents constant := by
  cases needs with
  | named named => exact supplies_of_name (Event.attributeNames_subset _ named) mem
  | listed needed => exact builds.supplies_listed tells told needed mem
  | operand operand =>
      rw [operand.leaves_eq] at mem
      obtain ⟨method, hmethod, listing, code, hi⟩ := ClassStory.exists_code_of_mem told
      exact builds.supplies_operand tells hmethod code hi mem

end ClassDef

end JavaClass
