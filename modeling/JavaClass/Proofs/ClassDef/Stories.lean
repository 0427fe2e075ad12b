import JavaClass.Proofs.ClassDef.Building
import JavaClass.Proofs.Event.Telling

/-!
# Stories of definitions

A definition is told without a failure exactly if every label that the code of
its methods refers to has a place, and then it tells its story.
-/

namespace JavaClass

open Transcript

variable {events : List Event}

/-- What a method tells. -/
def MethodDef.story (method : MethodDef) : MethodStory where
  flags := method.flags
  name := method.name
  descriptor := method.descriptor
  exceptions := method.exceptions
  code := if method.hasCode then some (method.body.listing.map Label.token) else none

/-- What a class tells. -/
def ClassDef.story (c : ClassDef) : ClassStory where
  version := c.version
  flags := c.flags
  name := c.name
  super := c.super
  interfaces := c.interfaces
  sources := c.source.toList
  fields := c.fields.toList
  methods := c.methods.toList.map MethodDef.story

namespace MethodBody

variable {body : MethodBody}

theorem mem_placed_iff {label : Label} :
    label ∈ body.placed ↔ .label label ∈ body.instructions := by
  rw [placed, List.mem_filterMap]
  constructor
  · rintro ⟨i, hi, h⟩
    cases i <;> cases h
    exact hi
  · intro h
    exact ⟨_, h, rfl⟩

/-- What the check looks for is a label without a place. -/
theorem not_contains_iff (body : MethodBody) {label : Label} :
    (!(Std.TreeSet.ofList body.placed).contains label) = true ↔ label ∉ body.placed := by
  rw [Bool.not_eq_true', Std.TreeSet.contains_ofList]
  simp

/-- The labels of a body are fine if each of them has a place. -/
theorem checkLabels_eq_ok_iff : body.checkLabels = .ok () ↔
    ∀ label ∈ body.listing.referenced, .label label ∈ body.listing.instructions := by
  unfold checkLabels
  simp only
  cases hfound : body.referenced.find? fun label =>
      !(Std.TreeSet.ofList body.placed).contains label with
  | none =>
      rw [List.find?_eq_none] at hfound
      refine ⟨fun _ label hlabel => mem_placed_iff.mp ?_, fun _ => rfl⟩
      exact not_not.mp fun hmissing => hfound label hlabel (body.not_contains_iff.mpr hmissing)
  | some label =>
      have hnot := @List.find?_some _ _ _ _ hfound
      have hmissing := body.not_contains_iff.mp hnot
      constructor
      · intro h
        cases h
      · intro h
        refine absurd (mem_placed_iff.mpr (h label ?_)) hmissing
        exact List.mem_of_find?_eq_some hfound

theorem transcript_eq_tell_iff : body.transcript = Transcript.tell events ↔
    body.checkLabels = .ok () ∧ events = (body.listing.map Label.token).events := by
  have hevents : body.instructions.map (fun i => Event.instruction (i.map Label.token)) ++
      body.tryBlocks.toList.map (fun block => .tryBlock (block.map Label.token)) ++
        [.maxs body.maxStack body.maxLocals] = (body.listing.map Label.token).events := by
    simp [Listing.events, Listing.map, listing, Function.comp_def]
  rw [transcript, hevents, withResult_eq_tell_iff]
  constructor
  · rintro ⟨_, hcheck, h⟩
    exact ⟨hcheck, (tell_inj h).symm⟩
  · rintro ⟨hcheck, rfl⟩
    exact ⟨_, hcheck, rfl⟩

end MethodBody

namespace MethodDef

variable {method : MethodDef}

theorem story_code_eq_none_iff : method.story.code = none ↔ method.hasCode = false := by
  unfold story
  cases method.hasCode <;> simp

theorem story_code_eq_some_iff {listing : Listing LabelToken} :
    method.story.code = some listing ↔
      method.hasCode = true ∧ method.body.listing.map Label.token = listing := by
  unfold story
  cases method.hasCode <;> simp

/-- The labels of a method are fine, if it is written with code. -/
def Checked (method : MethodDef) : Prop :=
  method.hasCode = true → method.body.checkLabels = .ok ()

theorem transcript_eq_tell_iff :
    method.transcript = Transcript.tell events ↔ method.Checked ∧ events = method.story.events := by
  unfold transcript Checked story MethodStory.events tellCode
  cases method.hasCode with
  | false =>
      simp only [Bool.false_eq_true, false_implies, if_false, true_and, done_andThen]
      exact ⟨fun h => (tell_inj h).symm, fun h => h ▸ rfl⟩
  | true =>
      simp only [if_true, forall_true_left]
      constructor
      · intro h
        obtain ⟨_, _, hfirst, hrest, rfl⟩ := andThen_eq_tell_iff.mp h
        obtain ⟨_, _, hcode, hend, rfl⟩ := andThen_eq_tell_iff.mp hrest
        obtain ⟨hcheck, rfl⟩ :=
          MethodBody.transcript_eq_tell_iff.mp (mapFailure_eq_tell_iff.mp hcode)
        rw [← tell_inj hfirst, ← tell_inj hend]
        exact ⟨hcheck, rfl⟩
      · rintro ⟨hcheck, rfl⟩
        have hcode := MethodBody.transcript_eq_tell_iff.mpr ⟨hcheck, rfl⟩
        rw [mapFailure_eq_tell_iff.mpr hcode]
        simp [Transcript.tell, andThen]

end MethodDef

namespace ClassDef

variable {c : ClassDef}

theorem tellMethods_eq_tell_iff :
    concat (c.methods.toList.map MethodDef.transcript) = Transcript.tell events ↔
      (∀ method ∈ c.methods.toList, method.Checked) ∧
        events = c.story.methods.flatMap MethodStory.events := by
  have heach (method : MethodDef) (events : List Event) :
      method.transcript = Transcript.tell events ↔
        ∃ story, (method.Checked ∧ story = method.story) ∧ events = story.events := by
    rw [MethodDef.transcript_eq_tell_iff]
    constructor
    · rintro ⟨checked, h⟩
      exact ⟨_, ⟨checked, rfl⟩, h⟩
    · rintro ⟨_, ⟨checked, rfl⟩, h⟩
      exact ⟨checked, h⟩
  rw [concat_map_eq_tell_iff heach]
  constructor
  · rintro ⟨stories, hstories, rfl⟩
    refine ⟨fun method hmethod => ?_, ?_⟩
    · obtain ⟨story, -, checked, -⟩ := exists_left hstories hmethod
      exact checked
    · have hmap : c.methods.toList.map MethodDef.story = stories := by
        rw [← List.forall₂_eq_eq_eq, List.forall₂_map_left_iff]
        exact hstories.flip.imp fun _ _ h => h.2.symm
      rw [story, hmap]
  · rintro ⟨checked, rfl⟩
    refine ⟨c.methods.toList.map MethodDef.story, ?_, rfl⟩
    rw [List.forall₂_map_left_iff, List.forall₂_same]
    exact fun method hmethod => ⟨checked method hmethod, rfl⟩

/-- A definition whose labels are fine tells its story. -/
theorem transcript_eq_tell_iff : c.transcript = Transcript.tell events ↔
    (∀ method ∈ c.methods.toList, method.Checked) ∧ events = c.story.events := by
  have hfields : concat (c.fields.toList.map FieldDef.transcript) =
      Transcript.tell (c.fields.toList.flatMap FieldDef.events) := concat_map_eq_tell fun _ _ => rfl
  have hsource : (c.source.map Event.source).toList = c.source.toList.map .source := by
    cases c.source <;> rfl
  rw [transcript, hfields, hsource]
  constructor
  · intro h
    obtain ⟨_, _, hheader, hmembers, rfl⟩ := andThen_eq_tell_iff.mp h
    obtain ⟨_, _, hfieldEvents, hothers, rfl⟩ := andThen_eq_tell_iff.mp hmembers
    obtain ⟨_, _, hmethods, hend, rfl⟩ := andThen_eq_tell_iff.mp hothers
    obtain ⟨checked, rfl⟩ := tellMethods_eq_tell_iff.mp hmethods
    refine ⟨checked, ?_⟩
    rw [← tell_inj hheader, ← tell_inj hfieldEvents, ← tell_inj hend]
    rfl
  · rintro ⟨checked, rfl⟩
    rw [tellMethods_eq_tell_iff.mpr ⟨checked, rfl⟩]
    simp [Transcript.tell, andThen, ClassStory.events, story]

end ClassDef

end JavaClass
