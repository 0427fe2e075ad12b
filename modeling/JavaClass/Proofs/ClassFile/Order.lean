import JavaClass.Proofs.ClassDef.Stability

/-!
# The order of events

The events of a class come in a fixed order, which is a state machine over the
events. A class file is told in this order but for one thing: every source file
that its attributes name is told. So the order is kept by the files that name at
most one, and only by these.
-/

namespace JavaClass

namespace Event

/-- Whether the event tells a part of code other than its sizes. -/
def isPart : Event → Bool
  | instruction _ | tryBlock _ => true
  | _ => false

/-- How far a class has been told. -/
inductive Stage where
  | nothing
  /-- The header was told, and a source file may follow. -/
  | header
  | fields
  /-- A field was told, but not its end. -/
  | field
  | methods
  /-- A method was told, and its code or its end may follow. -/
  | method
  | code
  /-- The sizes at the end of the code were told. -/
  | sized
  | ended
  deriving DecidableEq, Repr

/-- How far a class has been told after one more event, if the event may come. -/
def Stage.next? : Stage → Event → Option Stage
  | .nothing, .header .. => some .header
  | .header, .source _ => some .fields
  | .header, .field .. | .fields, .field .. => some .field
  | .field, .fieldEnd => some .fields
  | .header, .method .. | .fields, .method .. | .methods, .method .. => some .method
  | .method, .instruction _ | .code, .instruction _ => some .code
  | .method, .tryBlock _ | .code, .tryBlock _ => some .code
  | .method, .maxs .. | .code, .maxs .. => some .sized
  | .method, .methodEnd | .sized, .methodEnd => some .methods
  | .header, .classEnd | .fields, .classEnd | .methods, .classEnd => some .ended
  | _, _ => none

/-- How far a class has been told after some events, if they may come in this order. -/
def Stage.follow? (stage : Stage) : List Event → Option Stage
  | [] => some stage
  | event :: rest => (stage.next? event).bind (·.follow? rest)

/-- A header, at most one source file, each field with its end, each method with its code, if it has
any, and its end, and the end of the class. Code is instructions, labels, lines and handlers, and
then its sizes. -/
def InOrder (events : List Event) : Prop :=
  Stage.nothing.follow? events = some .ended

instance (events : List Event) : Decidable (InOrder events) :=
  inferInstanceAs (Decidable (_ = _))

namespace Stage

theorem follow?_append (stage : Stage) (first second : List Event) :
    stage.follow? (first ++ second) = (stage.follow? first).bind (·.follow? second) := by
  induction first generalizing stage with
  | nil => rfl
  | cons event first ih =>
      rw [List.cons_append, follow?, follow?]
      cases stage.next? event with
      | none => rfl
      | some next => exact ih next

/-- Whether the fields of a class may come. -/
def awaitsField : Stage → Bool
  | header | fields => true
  | _ => false

/-- Whether the methods of a class may come, or its end. -/
def awaitsMethod : Stage → Bool
  | header | fields | methods => true
  | _ => false

/-- Whether the parts of code may come, or its sizes. -/
def awaitsCode : Stage → Bool
  | method | code => true
  | _ => false

variable {stage : Stage}

theorem awaitsMethod_of_awaitsField (awaits : stage.awaitsField) : stage.awaitsMethod :=
  match stage, awaits with
  | header, _ | fields, _ => rfl

theorem follow?_field (awaits : stage.awaitsField) (field : FieldDef) :
    stage.follow? field.events = some .fields :=
  match stage, awaits with
  | header, _ | fields, _ => rfl

/-- Fields keep what may follow them. -/
theorem exists_follow?_fields (awaits : stage.awaitsField) (fields : List FieldDef) :
    ∃ next, stage.follow? (fields.flatMap FieldDef.events) = some next ∧ next.awaitsField := by
  induction fields generalizing stage with
  | nil => exact ⟨stage, rfl, awaits⟩
  | cons field rest ih =>
      rw [List.flatMap_cons, follow?_append, follow?_field awaits]
      exact ih rfl

theorem next?_part (awaits : stage.awaitsCode) {event : Event} (part : event.isPart) :
    stage.next? event = some code :=
  match stage, awaits, event, part with
  | method, _, .instruction _, _ | method, _, .tryBlock _, _ => rfl
  | code, _, .instruction _, _ | code, _, .tryBlock _, _ => rfl

/-- The parts of code keep what may follow them. -/
theorem exists_follow?_parts (awaits : stage.awaitsCode) {events : List Event}
    (parts : ∀ event ∈ events, event.isPart) :
    ∃ next, stage.follow? events = some next ∧ next.awaitsCode := by
  induction events generalizing stage with
  | nil => exact ⟨stage, rfl, awaits⟩
  | cons event rest ih =>
      rw [follow?, next?_part awaits (parts event List.mem_cons_self)]
      exact ih rfl fun other mem => parts other (List.mem_cons_of_mem _ mem)

theorem next?_maxs (awaits : stage.awaitsCode) (stack locals : UInt16) :
    stage.next? (.maxs stack locals) = some sized :=
  match stage, awaits with
  | method, _ | code, _ => rfl

theorem follow?_code (awaits : stage.awaitsCode) (listing : Listing LabelToken) :
    stage.follow? listing.events = some sized := by
  have parts : ∀ event ∈ listing.instructions.map Event.instruction ++
      listing.blocks.map .tryBlock, event.isPart := by
    intro event mem
    obtain mem | mem := List.mem_append.mp mem <;> obtain ⟨_, -, rfl⟩ := List.mem_map.mp mem <;> rfl
  obtain ⟨next, follows, awaits⟩ := exists_follow?_parts awaits parts
  rw [Listing.events, ← List.append_assoc, follow?_append, follows, Option.bind_some, follow?,
    next?_maxs awaits]
  rfl

theorem next?_method (awaits : stage.awaitsMethod) (flags : MethodFlags)
    (name descriptor : String) (exceptions : List String) :
    stage.next? (.method flags name descriptor exceptions) = some method :=
  match stage, awaits with
  | header, _ | fields, _ | methods, _ => rfl

theorem follow?_method (awaits : stage.awaitsMethod) (story : MethodStory) :
    stage.follow? story.events = some methods := by
  rw [MethodStory.events, follow?, next?_method awaits, Option.bind_some]
  cases story.code with
  | none => rfl
  | some listing =>
      rw [Option.elim_some, follow?_append, follow?_code rfl]
      rfl

/-- Methods keep what may follow them. -/
theorem exists_follow?_methods (awaits : stage.awaitsMethod) (methods : List MethodStory) :
    ∃ next, stage.follow? (methods.flatMap MethodStory.events) = some next ∧
      next.awaitsMethod := by
  induction methods generalizing stage with
  | nil => exact ⟨stage, rfl, awaits⟩
  | cons method rest ih =>
      rw [List.flatMap_cons, follow?_append, follow?_method awaits]
      exact ih rfl

theorem follow?_classEnd (awaits : stage.awaitsMethod) : stage.follow? [.classEnd] = some ended :=
  match stage, awaits with
  | header, _ | fields, _ | methods, _ => rfl

end Stage

end Event

namespace ClassStory

/-- What is told of a class behind its source files. -/
def members (story : ClassStory) : List Event :=
  story.fields.flatMap FieldDef.events ++
    (story.methods.flatMap MethodStory.events ++ [.classEnd])

theorem events_eq (story : ClassStory) :
    story.events =
      ClassFile.headerEvent story :: (story.sources.map .source ++ story.members) := rfl

theorem follow?_members {stage : Event.Stage} (awaits : stage.awaitsField) (story : ClassStory) :
    stage.follow? story.members = some .ended := by
  obtain ⟨afterFields, follows, awaits⟩ := Event.Stage.exists_follow?_fields awaits story.fields
  rw [members, Event.Stage.follow?_append, follows, Option.bind_some]
  obtain ⟨afterMethods, follows, awaits⟩ := Event.Stage.exists_follow?_methods
    (Event.Stage.awaitsMethod_of_awaitsField awaits) story.methods
  rw [Event.Stage.follow?_append, follows, Option.bind_some, Event.Stage.follow?_classEnd awaits]

/-- A story is told in order without its source files. -/
theorem inOrder_members (story : ClassStory) :
    Event.InOrder (ClassFile.headerEvent story :: story.members) :=
  follow?_members rfl story

/-- A story is told in order if it has at most one source file. -/
theorem inOrder_iff (story : ClassStory) :
    Event.InOrder story.events ↔ story.sources.length ≤ 1 := by
  rw [events_eq]
  match story.sources with
  | [] => exact iff_of_true (follow?_members rfl story) (Nat.zero_le 1)
  | [source] => exact iff_of_true (follow?_members rfl story) (Nat.le_refl 1)
  | first :: second :: rest =>
      -- After one source file no other one may come.
      have refused : Event.Stage.nothing.follow? (ClassFile.headerEvent story ::
          ((first :: second :: rest).map .source ++ story.members)) = none := rfl
      refine iff_of_false (fun inOrder => ?_) (by simp)
      rw [Event.InOrder, refused] at inOrder
      contradiction

end ClassStory

theorem exists_of_isOk {α : Type} {result : Except Error α} (h : result.isOk = true) :
    ∃ a, result = .ok a :=
  match result, h with
  | .ok a, _ => ⟨a, rfl⟩

namespace ClassFile

open Transcript

variable {file : ClassFile}

/-- Where the members and the attributes of a class lie. -/
def extents (file : ClassFile) : Except Error ClassLayout := do
  let (_, interfaceCount) ← file.header
  file.layout interfaceCount

/-- The source file that an attribute names. -/
def readSource (file : ClassFile) (range : AttributeRange) : Except Error String := do
  file.constants.text (← file.bytes.u16 range.start)

/-- The attributes that name the source file of a class. -/
def sourceFiles (attributes : List AttributeRange) : List AttributeRange :=
  attributes.filter (·.name = "SourceFile")

/-- Every attribute that names a source file tells it. -/
theorem sources_of_tell {attributes : List AttributeRange} {sources : List String}
    (h : concat (attributes.map file.tellClassAttribute) =
      Transcript.tell (sources.map .source)) :
    List.Forall₂ (fun range source => file.readSource range = .ok source)
      (sourceFiles attributes) sources := by
  induction attributes generalizing sources with
  | nil =>
      obtain rfl := List.map_eq_nil_iff.mp (done_eq_tell_iff.mp h)
      exact .nil
  | cons range rest ih =>
      rw [List.map_cons, concat_cons] at h
      obtain ⟨first, others, told, later, cut⟩ := andThen_eq_tell_iff.mp h
      obtain ⟨named, others', rfl, rfl, rfl⟩ := List.map_eq_append_iff.mp cut
      have later := ih later
      rw [tellClassAttribute] at told
      split at told
      · rename_i isSource
        obtain ⟨text, found, told⟩ := withResult_eq_tell_iff.mp told
        obtain ⟨source, rfl, same⟩ := List.map_eq_singleton_iff.mp (tell_inj told).symm
        obtain rfl := Event.source.inj same
        rw [sourceFiles, List.filter_cons_of_pos (by simpa using isSource)]
        exact .cons found later
      · rename_i notSource
        have named_eq : named = [] := by
          split at told
          · obtain ⟨_, -, told⟩ := withResult_eq_tell_iff.mp told
            exact List.map_eq_nil_iff.mp (done_eq_tell_iff.mp told)
          · exact List.map_eq_nil_iff.mp (done_eq_tell_iff.mp told)
        rw [named_eq, sourceFiles, List.filter_cons_of_neg (by simpa using notSource)]
        exact later

theorem Tells.extents {layout : ClassLayout} {story : ClassStory}
    (tells : file.Tells layout story) : file.extents = .ok layout := by
  simp only [ClassFile.extents, tells.header, bind, Except.bind]
  exact tells.layout

/-- Whoever receives all events of a class file is told a story with each field, each method and
each source file that the attributes name. Without the source files it is told in order, and with
them exactly if there is at most one of them. -/
theorem told_in_order (bytes : Bytes) (file : ClassFile) :
    ClassFile.read bytes = .ok file →
    ∀ (σ : Type) (receive : Receiver σ) (s s' : σ),
      receive.deliver file.transcript s = .ok () s' →
      ∃ layout story, file.extents = .ok layout ∧ file.transcript.events = story.events ∧
        List.Forall₂ (fun range source => file.readSource range = .ok source)
          (sourceFiles layout.attributes) story.sources ∧
        story.fields.length = layout.fields.length ∧
        story.methods.length = layout.methods.length ∧
        Event.InOrder (headerEvent story :: story.members) ∧
        (Event.InOrder file.transcript.events ↔ (sourceFiles layout.attributes).length ≤ 1) := by
  intro _ σ receive s s' delivered
  obtain ⟨complete, -⟩ := Receiver.deliver_eq_ok_iff.mp delivered
  obtain ⟨layout, story, tells, told⟩ :=
    transcript_eq_tell_iff.mp (Transcript.eq_tell_of_failure complete)
  have named := sources_of_tell tells.sources
  refine ⟨layout, story, tells.extents, told, named, tells.fields.length_eq,
    tells.methods.length_eq, story.inOrder_members, ?_⟩
  rw [told, story.inOrder_iff, named.length_eq]

/-- A file with a field, and with an attribute that names its source file. -/
def sourcedFile : Bytes :=
  #[0xCA, 0xFE, 0xBA, 0xBE, 0, 0, 0, 65, 0, 5, 1, 0, 1, 65, 7, 0, 1, 1, 0, 10, 83, 111, 117, 114,
    99, 101, 70, 105, 108, 101, 1, 0, 1, 73, 0, 32, 0, 2, 0, 0, 0, 0, 0, 1, 0, 8, 0, 1, 0, 4, 0, 0,
    0, 0, 0, 1, 0, 3, 0, 0, 0, 2, 0, 1]

theorem told_in_order_sourcedFile :
    ∃ file p layout, ClassFile.read sourcedFile = .ok file ∧
      Receiver.deliver PartialClass.receive file.transcript .empty = .ok () p ∧
      file.extents = .ok layout ∧ (sourceFiles layout.attributes).length = 1 ∧
      Event.InOrder file.transcript.events := by
  have hrun : (ClassDef.decode sourcedFile).isOk = true := by decide +kernel
  have once : (ClassFile.read sourcedFile).bind (fun file => file.extents.map fun layout =>
      (sourceFiles layout.attributes).length) = .ok 1 := by decide +kernel
  obtain ⟨c, decoded⟩ := exists_of_isOk hrun
  obtain ⟨file, p, hread, -, delivered⟩ := ClassDef.exists_deliver_of_decode decoded
  obtain ⟨layout, _, hlayout, -, -, -, -, -, inOrder_iff⟩ :=
    told_in_order sourcedFile file hread _ _ _ _ delivered
  rw [hread, Except.bind, hlayout] at once
  have count_eq := Except.ok.inj once
  exact ⟨file, p, layout, hread, delivered, hlayout, count_eq,
    inOrder_iff.mpr (Nat.le_of_eq count_eq)⟩

/-- A file with two attributes that name its source file. -/
def twiceSourcedFile : Bytes :=
  #[0xCA, 0xFE, 0xBA, 0xBE, 0, 0, 0, 65, 0, 4, 1, 0, 1, 65, 7, 0, 1, 1, 0, 10, 83, 111, 117, 114,
    99, 101, 70, 105, 108, 101, 0, 32, 0, 2, 0, 0, 0, 0, 0, 0, 0, 0, 0, 2, 0, 3, 0, 0, 0, 2, 0, 1,
    0, 3, 0, 0, 0, 2, 0, 3]

/-- Not every file is told in order, also if all of its events are received. -/
theorem not_forall_inOrder :
    (ClassDef.decode twiceSourcedFile).isOk = true ∧
      ¬ ∀ (bytes : Bytes) (file : ClassFile), ClassFile.read bytes = .ok file →
        ∀ (σ : Type) (receive : Receiver σ) (s s' : σ),
          receive.deliver file.transcript s = .ok () s' → Event.InOrder file.transcript.events := by
  have hrun : (ClassDef.decode twiceSourcedFile).isOk = true := by decide +kernel
  have disorder : (ClassFile.read twiceSourcedFile).map (fun file =>
      decide (Event.InOrder file.transcript.events)) = .ok false := by decide +kernel
  refine ⟨hrun, fun always => ?_⟩
  obtain ⟨c, decoded⟩ := exists_of_isOk hrun
  obtain ⟨file, p, hread, -, delivered⟩ := ClassDef.exists_deliver_of_decode decoded
  rw [hread] at disorder
  exact of_decide_eq_false (Except.ok.inj disorder)
    (always twiceSourcedFile file hread _ _ _ p delivered)

end ClassFile

end JavaClass
