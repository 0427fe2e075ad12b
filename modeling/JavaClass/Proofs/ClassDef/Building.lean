import JavaClass.ClassDef.Codec
import JavaClass.Proofs.ClassDef.Bodies
import JavaClass.Proofs.Event.Delivery
import JavaClass.Proofs.Event.Story

/-!
# Definitions that are built from stories

A partial class takes every story and gives the definition that it tells. Of
several source files the last one stays.
-/

namespace JavaClass

/-- A method was built for a story. -/
structure MethodDef.Builds (method : MethodDef) (story : MethodStory) : Prop where
  flags : method.flags = story.flags
  name : method.name = story.name
  descriptor : method.descriptor = story.descriptor
  exceptions : method.exceptions = story.exceptions
  body : ∃ known, method.body.Built known (story.code.getD .blank)

/-- The labels of a method are numbered in the order in which their tokens come in a story. -/
def MethodDef.Numbered (method : MethodDef) (story : MethodStory) : Prop :=
  method.body.Built ((story.code.getD .blank).referenced.foldl MethodBody.meet [])
    (story.code.getD .blank)

/-- A definition was built for a story. -/
structure ClassDef.Builds (c : ClassDef) (story : ClassStory) : Prop where
  version : c.version = story.version
  flags : c.flags = story.flags
  name : c.name = story.name
  super : c.super = story.super
  interfaces : c.interfaces = story.interfaces
  source : c.source = story.sources.getLast?
  fields : c.fields.toList = story.fields
  methods : List.Forall₂ MethodDef.Builds c.methods.toList story.methods

/-- No method of a story has more code than slots can be numbered for. -/
def ClassStory.Small (story : ClassStory) : Prop :=
  ∀ method ∈ story.methods, ∀ listing, method.code = some listing →
    listing.instructions.length ≤ 2 ^ 32

namespace PartialClass

variable {c : ClassDef} {method : MethodDef} {listing : Listing LabelToken}
  {known : List LabelToken}

/-- A class between two members. -/
def between (c : ClassDef) : PartialClass := ⟨some c, none, none, false⟩

/-- A class in the middle of a method. -/
def within (c : ClassDef) (method : MethodDef) : PartialClass := ⟨some c, none, some method, false⟩

theorem takes_instructions (built : method.body.Built known listing)
    (is : List (Instruction LabelToken)) (room : listing.instructions.length + is.length ≤ 2 ^ 32) :
    ∃ body, Receiver.Takes receive (is.map .instruction) (within c method)
      (within c { method with body }) ∧
        body.Built ((is.flatMap Instruction.targets).foldl MethodBody.meet known)
          { listing with instructions := listing.instructions ++ is } := by
  induction is generalizing method listing known with
  | nil => exact ⟨method.body, .nil, by simpa using built⟩
  | cons i is ih =>
      rw [List.length_cons] at room
      have built₁ := built.addInstruction (by omega) i
      obtain ⟨body, htakes, built'⟩ := @ih { method with body := addInstruction method.body i } _ _
        built₁ (by rw [List.length_append, List.length_singleton]; omega)
      rw [List.append_assoc, List.singleton_append] at built'
      rw [List.flatMap_cons, List.foldl_append]
      exact ⟨body, .cons rfl htakes, built'⟩

theorem takes_blocks (built : method.body.Built known listing)
    (blocks : List (TryBlock LabelToken)) :
    ∃ body, Receiver.Takes receive (blocks.map .tryBlock) (within c method)
      (within c { method with body }) ∧
        body.Built ((blocks.flatMap TryBlock.targets).foldl MethodBody.meet known)
          { listing with blocks := listing.blocks ++ blocks } := by
  induction blocks generalizing method listing known with
  | nil => exact ⟨method.body, .nil, by simpa using built⟩
  | cons block blocks ih =>
      have built₁ := built.addTryBlock block
      obtain ⟨body, htakes, built'⟩ := @ih { method with body := addTryBlock method.body block } _ _
        built₁
      rw [List.append_assoc, List.singleton_append] at built'
      rw [List.flatMap_cons, List.foldl_append]
      exact ⟨body, .cons rfl htakes, built'⟩

theorem takes_listing (built : method.body.Built [] .blank) (listing : Listing LabelToken)
    (small : listing.instructions.length ≤ 2 ^ 32) :
    ∃ body, Receiver.Takes receive listing.events (within c method)
      (within c { method with body }) ∧
        body.Built (listing.referenced.foldl MethodBody.meet []) listing := by
  obtain ⟨body₁, htakes₁, built₁⟩ := takes_instructions (c := c) built
    listing.instructions (by simpa [Listing.blank] using small)
  obtain ⟨body₂, htakes₂, built₂⟩ :=
    @takes_blocks c { method with body := body₁ } _ _ built₁ listing.blocks
  rw [← List.foldl_append] at built₂
  refine ⟨_, Receiver.takes_append_iff.mpr ⟨_, htakes₁, Receiver.takes_append_iff.mpr
    ⟨_, htakes₂, .cons rfl .nil⟩⟩, ?_⟩
  exact built₂.sized listing.maxStack listing.maxLocals

/-- A method is built from its story. -/
theorem takes_method {story : MethodStory}
    (small : ∀ listing, story.code = some listing → listing.instructions.length ≤ 2 ^ 32) :
    ∃ method, Receiver.Takes receive story.events (between c)
      (between { c with methods := c.methods.push method }) ∧
        method.Builds story ∧ method.Numbered story := by
  have hstart : receive (.method story.flags story.name story.descriptor story.exceptions)
      (between c) = .ok () (within c ⟨story.flags, story.name, story.descriptor, story.exceptions,
        .empty (between c).nextId⟩) := rfl
  have hend (method : MethodDef) : Receiver.Takes receive [.methodEnd] (within c method)
      (between { c with methods := c.methods.push method }) := .cons rfl .nil
  cases hcode : story.code with
  | none =>
      refine ⟨⟨story.flags, story.name, story.descriptor, story.exceptions,
        .empty (between c).nextId⟩, ?_, ⟨rfl, rfl, rfl, rfl, [], ?_⟩, ?_⟩
      · rw [MethodStory.events, hcode]
        exact .cons hstart (hend _)
      · rw [hcode]
        exact MethodBody.built_empty _
      · rw [MethodDef.Numbered, hcode]
        exact MethodBody.built_empty _
  | some listing =>
      obtain ⟨body, htakes, built⟩ := @takes_listing c ⟨story.flags, story.name,
        story.descriptor, story.exceptions, .empty (between c).nextId⟩ (MethodBody.built_empty _)
        listing (small listing hcode)
      refine ⟨⟨story.flags, story.name, story.descriptor, story.exceptions, body⟩, ?_,
        ⟨rfl, rfl, rfl, rfl, listing.referenced.foldl MethodBody.meet [], ?_⟩, ?_⟩
      · rw [MethodStory.events, hcode]
        exact .cons hstart (Receiver.takes_append_iff.mpr ⟨_, htakes, hend _⟩)
      · rw [hcode]
        exact built
      · rw [MethodDef.Numbered, hcode]
        exact built

theorem takes_methods {stories : List MethodStory}
    (small : ∀ story ∈ stories, ∀ listing, story.code = some listing →
      listing.instructions.length ≤ 2 ^ 32) :
    ∃ methods, Receiver.Takes receive (stories.flatMap MethodStory.events) (between c)
      (between { c with methods := (c.methods.toList ++ methods).toArray }) ∧
        List.Forall₂ MethodDef.Builds methods stories ∧
        List.Forall₂ MethodDef.Numbered methods stories := by
  induction stories generalizing c with
  | nil =>
      refine ⟨[], ?_, .nil, .nil⟩
      rw [List.append_nil, Array.toArray_toList]
      exact .nil
  | cons story stories ih =>
      obtain ⟨method, htakes, builds, numbered⟩ :=
        takes_method (c := c) (small story List.mem_cons_self)
      obtain ⟨methods, hrest, hbuilds, hnumbered⟩ := @ih
        { c with methods := c.methods.push method }
        fun other hother => small other (List.mem_cons_of_mem _ hother)
      refine ⟨method :: methods, Receiver.takes_append_iff.mpr ⟨_, htakes, ?_⟩,
        .cons builds hbuilds, .cons numbered hnumbered⟩
      rw [Array.toList_push, List.append_assoc] at hrest
      exact hrest

theorem takes_fields (fields : List FieldDef) :
    Receiver.Takes receive (fields.flatMap FieldDef.events) (between c)
      (between { c with fields := (c.fields.toList ++ fields).toArray }) := by
  induction fields generalizing c with
  | nil =>
      rw [List.append_nil, Array.toArray_toList]
      exact .nil
  | cons field fields ih =>
      have hrest := @ih { c with fields := c.fields.push field }
      rw [Array.toList_push, List.append_assoc] at hrest
      exact .cons rfl (.cons rfl hrest)

theorem takes_sources (sources : List String) :
    Receiver.Takes receive (sources.map .source) (between c)
      (between { c with source := sources.getLast?.or c.source }) := by
  induction sources generalizing c with
  | nil => exact .nil
  | cons file rest ih =>
      have hrest := @ih { c with source := some file }
      have hlast : (file :: rest).getLast?.or c.source = rest.getLast?.or (some file) := by
        rw [List.getLast?_cons]
        cases rest.getLast? <;> rfl
      rw [hlast]
      exact .cons rfl hrest

end PartialClass

/-- Every story is built, and labels are numbered in the order in which their tokens come. -/
theorem ClassDef.ofTranscript_tell {story : ClassStory} (small : story.Small) :
    ∃ c, ofTranscript (.tell story.events) = .ok c ∧ c.Builds story ∧
      List.Forall₂ MethodDef.Numbered c.methods.toList story.methods := by
  let start : ClassDef := { new story.name story.super with
    version := story.version, flags := story.flags, interfaces := story.interfaces }
  let withSource : ClassDef := { start with source := story.sources.getLast?.or none }
  let withFields : ClassDef := { withSource with fields := ([] ++ story.fields).toArray }
  have hsources : Receiver.Takes PartialClass.receive _ _ _ :=
    @PartialClass.takes_sources start story.sources
  have hfields : Receiver.Takes PartialClass.receive _ _ _ :=
    @PartialClass.takes_fields withSource story.fields
  obtain ⟨methods, hmethods, hbuilds, hnumbered⟩ :=
    @PartialClass.takes_methods withFields story.methods small
  refine ⟨{ withFields with methods := ([] ++ methods).toArray }, ?_,
    ⟨rfl, rfl, rfl, rfl, rfl, ?_, ?_, ?_⟩, ?_⟩
  · have htakes : Receiver.Takes PartialClass.receive story.events .empty _ :=
      .cons rfl (Receiver.takes_append_iff.mpr ⟨_, hsources, Receiver.takes_append_iff.mpr
        ⟨_, hfields, Receiver.takes_append_iff.mpr ⟨_, hmethods, .cons rfl .nil⟩⟩⟩)
    rw [ofTranscript, Receiver.deliver_eq_ok_iff.mpr ⟨rfl, htakes⟩]
    rfl
  · exact Option.or_none
  · simp [withFields]
  · simpa using hbuilds
  · simpa using hnumbered

end JavaClass
