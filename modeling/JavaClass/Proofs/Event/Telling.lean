import Mathlib.Data.List.Forall2
import JavaClass.Event.Transcript

/-!
# Transcripts without a failure

A transcript that was put together has no failure exactly if none of its parts
has one, and then it tells the events of its parts one after the other.
-/

namespace JavaClass.Transcript

variable {α : Type} {events : List Event}

theorem tell_inj {first second : List Event} (h : tell first = tell second) : first = second :=
  congrArg Transcript.events h

theorem done_eq_tell_iff : done = tell events ↔ events = [] := by
  constructor
  · intro h
    exact (tell_inj h).symm
  · rintro rfl
    rfl

theorem andThen_eq_tell_iff {first second : Transcript} :
    first.andThen second = tell events ↔
      ∃ before after, first = tell before ∧ second = tell after ∧ events = before ++ after := by
  constructor
  · intro h
    obtain ⟨before, failure⟩ := first
    cases failure with
    | some error => cases congrArg Transcript.failure h
    | none =>
        obtain ⟨after, failure⟩ := second
        obtain rfl : failure = none := congrArg Transcript.failure h
        exact ⟨before, after, rfl, rfl, (congrArg Transcript.events h).symm⟩
  · rintro ⟨before, after, rfl, rfl, rfl⟩
    rfl

theorem withResult_eq_tell_iff {result : Except Error α} {next : α → Transcript} :
    withResult result next = tell events ↔
      ∃ value, result = .ok value ∧ next value = tell events := by
  cases result with
  | error error => simp [withResult, fail, tell]
  | ok value => simp [withResult]

theorem mapFailure_eq_tell_iff {f : Error → Error} {transcript : Transcript} :
    transcript.mapFailure f = tell events ↔ transcript = tell events := by
  obtain ⟨told, failure⟩ := transcript
  cases failure <;> simp [mapFailure, tell]

theorem concat_eq_tell_iff {transcripts : List Transcript} :
    concat transcripts = tell events ↔
      ∃ parts, List.Forall₂ (fun transcript part => transcript = tell part) transcripts parts ∧
        events = parts.flatten := by
  induction transcripts generalizing events with
  | nil =>
      constructor
      · intro h
        exact ⟨[], .nil, done_eq_tell_iff.mp h⟩
      · rintro ⟨parts, ⟨⟩, rfl⟩
        rfl
  | cons transcript transcripts ih =>
      rw [concat_cons, andThen_eq_tell_iff]
      constructor
      · rintro ⟨before, after, hfirst, hrest, rfl⟩
        obtain ⟨parts, hparts, rfl⟩ := ih.mp hrest
        exact ⟨before :: parts, .cons hfirst hparts, rfl⟩
      · rintro ⟨parts, hparts, rfl⟩
        cases hparts with
        | @cons _ before _ rest hfirst hrest =>
            exact ⟨before, rest.flatten, hfirst, ih.mpr ⟨rest, hrest, rfl⟩, rfl⟩

theorem concat_append (first second : List Transcript) :
    concat (first ++ second) = (concat first).andThen (concat second) := by
  induction first with
  | nil => rfl
  | cons transcript first ih => rw [List.cons_append, concat_cons, concat_cons, ih, andThen_assoc]

theorem tell_of_concat {tellItem : α → Transcript} {items : List α}
    (h : concat (items.map tellItem) = tell events) {item : α} (hitem : item ∈ items) :
    ∃ part, tellItem item = tell part := by
  induction items generalizing events with
  | nil => cases hitem
  | cons first items ih =>
      rw [List.map_cons, concat_cons, andThen_eq_tell_iff] at h
      obtain ⟨before, after, hfirst, hrest, -⟩ := h
      obtain rfl | hitem := List.mem_cons.mp hitem
      · exact ⟨before, hfirst⟩
      · exact ih hrest hitem

/-- Telling every item of a list tells the events of each. -/
theorem concat_map_eq_tell {tellItem : α → Transcript} {told : α → List Event} {items : List α}
    (h : ∀ item ∈ items, tellItem item = tell (told item)) :
    concat (items.map tellItem) = tell (items.flatMap told) := by
  rw [concat_eq_tell_iff]
  refine ⟨items.map told, ?_, rfl⟩
  rw [List.forall₂_map_left_iff, List.forall₂_map_right_iff, List.forall₂_same]
  exact h

/-- Items that are told one after the other, each for a part of a story. -/
theorem concat_map_eq_tell_iff {β : Type} {tellItem : α → Transcript} {told : β → List Event}
    {relation : β → α → Prop}
    (each : ∀ item events, tellItem item = tell events ↔
      ∃ part, relation part item ∧ events = told part) {items : List α} :
    concat (items.map tellItem) = tell events ↔
      ∃ parts, List.Forall₂ relation parts items ∧ events = parts.flatMap told := by
  induction items generalizing events with
  | nil =>
      rw [List.map_nil, concat, List.foldr_nil, done_eq_tell_iff]
      constructor
      · rintro rfl
        exact ⟨[], .nil, rfl⟩
      · rintro ⟨parts, ⟨⟩, rfl⟩
        rfl
  | cons item items ih =>
      rw [List.map_cons, concat_cons, andThen_eq_tell_iff]
      constructor
      · rintro ⟨before, after, hfirst, hrest, rfl⟩
        obtain ⟨part, hpart, rfl⟩ := (each item before).mp hfirst
        obtain ⟨parts, hparts, rfl⟩ := ih.mp hrest
        exact ⟨part :: parts, .cons hpart hparts, rfl⟩
      · rintro ⟨parts, hparts, rfl⟩
        obtain ⟨part, rest, hpart, hrest, rfl⟩ := List.forall₂_cons_right_iff.mp hparts
        exact ⟨_, _, (each item _).mpr ⟨part, hpart, rfl⟩, ih.mpr ⟨rest, hrest, rfl⟩, rfl⟩

end JavaClass.Transcript
