import JavaClass.ClassDef.Basic
import JavaClass.Proofs.Listing.Basic

/-!
# Stories of a class

A story is what a sequence of events tells of a class when the events come in
their usual order.
-/

namespace JavaClass

/-- The field that a class file gives back. -/
def FieldDef.normal (field : FieldDef) : FieldDef :=
  { field with value := field.value.map Literal.normal }

/-- A method as it is told. -/
structure MethodStory where
  flags : MethodFlags
  name : String
  descriptor : String
  exceptions : List String
  code : Option (Listing LabelToken)

/-- A class as it is told. -/
structure ClassStory where
  version : Version
  flags : ClassFlags
  name : String
  super : Option String
  interfaces : List String
  sources : List String
  fields : List FieldDef
  methods : List MethodStory

/-- The bootstrap methods that a method names. -/
def MethodStory.calls (story : MethodStory) : List BootstrapCall :=
  story.code.elim [] fun listing => listing.instructions.flatMap Instruction.calls

/-- A method without code is declared without code, and operation codes fit their operands. -/
structure MethodStory.Proper (story : MethodStory) : Prop where
  coded : story.code = none → story.flags.hasCode = false
  documented : ∀ listing, story.code = some listing → ∀ i ∈ listing.instructions, i.Documented

/-- The bootstrap methods that a class names. -/
def ClassStory.calls (story : ClassStory) : List BootstrapCall :=
  story.methods.flatMap MethodStory.calls

/-- The events that tell code. -/
def Listing.events (listing : Listing LabelToken) : List Event :=
  listing.instructions.map .instruction ++ (listing.blocks.map .tryBlock ++
    [.maxs listing.maxStack listing.maxLocals])

/-- Code is told only if there is some. -/
theorem exists_listing_of_mem {code : Option (Listing LabelToken)} {event : Event}
    (mem : event ∈ code.elim [] Listing.events) :
    ∃ listing, code = some listing ∧ event ∈ listing.events := by
  cases code with
  | none => cases mem
  | some listing => exact ⟨listing, rfl, mem⟩

/-- The events that tell a field. -/
def FieldDef.events (field : FieldDef) : List Event :=
  [.field field.flags field.name field.descriptor field.value, .fieldEnd]

/-- The events that tell a method. -/
def MethodStory.events (method : MethodStory) : List Event :=
  .method method.flags method.name method.descriptor method.exceptions ::
    (method.code.elim [] Listing.events ++ [.methodEnd])

/-- The events that tell a class. -/
def ClassStory.events (story : ClassStory) : List Event :=
  .header story.version story.flags story.name story.super story.interfaces ::
    (story.sources.map .source ++ (story.fields.flatMap FieldDef.events ++
      (story.methods.flatMap MethodStory.events ++ [.classEnd])))

end JavaClass
