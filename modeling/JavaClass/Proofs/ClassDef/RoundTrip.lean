import JavaClass.Proofs.Assembly.Files
import JavaClass.Proofs.ClassDef.Stories
import JavaClass.Proofs.Listing.Labels

/-!
# Decoding what was encoded

A definition that was encoded is decoded again, and everything that it says of
a class comes back.

## Implementation notes

Labels have no meaning of their own, so code is compared by its outline, in
which every label is the number of instructions before its place. The one thing
that a class file cannot tell is whether the owner of a field is an interface,
which is what normal forms are about.
-/

namespace JavaClass

/-- Every label of a method has one place, and the code is the same but for the labels. -/
structure MethodBody.RecoveredBy (body body' : MethodBody) : Prop where
  placed : body.listing.Placed
  placed' : body'.listing.Placed
  outline : body.listing.outline.normal.Same body'.listing.outline

/-- What decoding gives for an encoded method. -/
structure MethodDef.RecoveredBy (method method' : MethodDef) : Prop where
  flags : method'.flags = method.flags
  name : method'.name = method.name
  descriptor : method'.descriptor = method.descriptor
  exceptions : method'.exceptions = method.exceptions
  body : method.hasCode = true → method.body.RecoveredBy method'.body

/-- What decoding gives for an encoded class. -/
structure ClassDef.RecoveredBy (c c' : ClassDef) : Prop where
  version : c'.version = c.version
  flags : c'.flags = c.flags
  name : c'.name = c.name
  super : c'.super = c.super
  interfaces : c'.interfaces = c.interfaces
  source : c'.source = c.source
  fields : c'.fields = c.fields.map FieldDef.normal
  methods : List.Forall₂ MethodDef.RecoveredBy c.methods.toList c'.methods.toList

/-- Operations on members and on types have codes of their families. -/
def ClassDef.Documented (c : ClassDef) : Prop :=
  ∀ method ∈ c.methods.toList, ∀ i ∈ method.body.instructions, i.Documented

instance (c : ClassDef) : Decidable c.Documented :=
  inferInstanceAs (Decidable (∀ method ∈ c.methods.toList, ∀ i ∈ method.body.instructions,
    i.Documented))

theorem Label.token_injective : Function.Injective Label.token := by
  intro first second h
  cases first
  cases second
  exact congrArg (Label.mk ∘ LabelToken.id) h

/-- A body that was built for an arrangement is one. -/
theorem MethodBody.Built.arranges {body : MethodBody} {known : List LabelToken}
    {listing : Listing LabelToken} {o : Outline} (built : body.Built known listing)
    (arranges : listing.Arranges o) : body.listing.Arranges o := by
  rw [built.holds]
  exact arranges.map ((labelOf_injOn built.nodup).mono built.met)

/-- What a class file tells of code is small enough to be built. -/
theorem ClassFile.Tells.small {file : ClassFile} {extents : ClassLayout} {story : ClassStory}
    (tells : file.Tells extents story) : story.Small := by
  intro method hmethod listing hlisting
  obtain ⟨member, -, hmember⟩ := exists_right tells.methods hmethod
  have hcode := hmember.code
  rw [hlisting] at hcode
  obtain ⟨o, arranged, -⟩ := hcode.arranged
  exact arranged.length_le

/-- What was told again of code and then built is an arrangement of its outline. -/
theorem MethodDef.arranges_of_builds {method method' : MethodDef} {story : MethodStory}
    (recovered : method.story.Recovered story) (builds : method'.Builds story)
    (hcode : method.hasCode = true) :
    method.body.listing.Placed ∧
      method'.body.listing.Arranges method.body.listing.outline.normal := by
  have hrel := recovered.code
  rw [MethodDef.story, if_pos hcode] at hrel
  obtain ⟨known, built⟩ := builds.body
  cases hstory : story.code with
  | none =>
      rw [hstory] at hrel
      cases hrel
  | some listing =>
      rw [hstory] at hrel built
      cases hrel with
      | some h =>
          obtain ⟨placed, arranged⟩ := h
          have hinj := Label.token_injective.injOn (s := {label | label ∈
            method.body.listing.referenced})
          rw [Listing.placed_map_iff hinj] at placed
          rw [Listing.outline_map hinj] at arranged
          exact ⟨placed, built.arranges arranged.arranges⟩

/-- A method is recovered if what was told again was built. -/
theorem MethodDef.recoveredBy_of_builds {method method' : MethodDef} {story : MethodStory}
    (recovered : method.story.Recovered story) (builds : method'.Builds story) :
    method.RecoveredBy method' := by
  refine ⟨builds.flags.trans recovered.flags, builds.name.trans recovered.name,
    builds.descriptor.trans recovered.descriptor, builds.exceptions.trans recovered.exceptions,
    fun hcode => ?_⟩
  obtain ⟨placed, arranges⟩ := arranges_of_builds recovered builds hcode
  exact ⟨placed, arranges.placed, arranges.same_outline⟩

namespace ClassDef

variable {c c' : ClassDef} {content : List UInt8}

/-- An encoded definition was told to a class draft. -/
theorem encode_eq_ok (h : c.encode = .ok content) :
    (∀ method ∈ c.methods.toList, method.Checked) ∧
      ∃ draft, Receiver.Takes ClassDraft.receive c.story.events .empty draft ∧
        draft.bytes = .ok content := by
  unfold encode Transcript.assemble at h
  cases hdeliver : Receiver.deliver ClassDraft.receive c.transcript .empty with
  | error error draft =>
      rw [hdeliver] at h
      cases h
  | ok value draft =>
      rw [hdeliver] at h
      obtain ⟨hfailure, takes⟩ := Receiver.deliver_eq_ok_iff.mp hdeliver
      obtain ⟨checked, hevents⟩ :=
        transcript_eq_tell_iff.mp (Transcript.eq_tell_of_failure hfailure)
      rw [hevents] at takes
      exact ⟨checked, draft, takes, h⟩

theorem encode_eq (checked : ∀ method ∈ c.methods.toList, method.Checked) {draft : ClassDraft}
    (takes : Receiver.Takes ClassDraft.receive c.story.events .empty draft) :
    c.encode = draft.bytes := by
  have htell := transcript_eq_tell_iff.mpr ⟨checked, rfl⟩
  unfold encode Transcript.assemble
  rw [htell, Receiver.deliver_eq_ok_iff.mpr ⟨rfl, takes⟩]

theorem story_proper (documented : c.Documented) : ∀ method ∈ c.story.methods, method.Proper := by
  intro story hstory
  obtain ⟨method, hmethod, rfl⟩ := List.mem_map.mp hstory
  constructor
  · intro hnone
    exact (Bool.or_eq_false_iff.mp (MethodDef.story_code_eq_none_iff.mp hnone)).1
  · intro listing hlisting i hi
    obtain ⟨-, rfl⟩ := MethodDef.story_code_eq_some_iff.mp hlisting
    obtain ⟨source, hsource, rfl⟩ := List.mem_map.mp hi
    exact (Instruction.documented_map _ _).mpr (documented method hmethod source hsource)

/-- Code that comes back is short enough to be built. -/
theorem small_of_recovered {first second : ClassStory} (recovered : first.Recovered second) :
    second.Small := by
  intro method hmethod listing hlisting
  obtain ⟨told, -, hrecovered⟩ := exists_left recovered.methods hmethod
  have hrel := hrecovered.code
  rw [hlisting] at hrel
  generalize told.code = code at hrel
  cases hrel with
  | some h => exact h.2.length_le

/-- What was encoded is decoded again. -/
theorem exists_decode (documented : c.Documented)
    (supported : c.version.major ≤ Version.latestMajor)
    (small : bootstrapTableSize c.story.calls < 2 ^ 32) (h : c.encode = .ok content) :
    ∃ story c', decode content.toArray = .ok c' ∧ c.story.Recovered story ∧ c'.Builds story := by
  obtain ⟨-, draft, takes, hbytes⟩ := encode_eq_ok h
  obtain ⟨file, story, hread, htold, recovered⟩ :=
    ClassStory.told_again (story_proper documented) supported small takes hbytes
  obtain ⟨c', hbuilt, builds, -⟩ := ofTranscript_tell (small_of_recovered recovered)
  refine ⟨story, c', ?_, recovered, builds⟩
  unfold decode
  rw [hread]
  simp only [bind, Except.bind]
  rw [htold, hbuilt]

/-- What was encoded and could be decoded was built from what was told again. -/
theorem exists_story_of_decode (documented : c.Documented) (h : c.encode = .ok content)
    (hdecode : decode content.toArray = .ok c') :
    ∃ story, c.story.Recovered story ∧ c'.Builds story := by
  obtain ⟨-, draft, takes, hbytes⟩ := encode_eq_ok h
  unfold decode at hdecode
  obtain ⟨file, hread, hbuild⟩ := exceptBind_eq_ok_iff.mp hdecode
  obtain ⟨story, htold, recovered⟩ :=
    ClassStory.told_again_of_read (story_proper documented) takes hbytes hread
  obtain ⟨built, hbuilt, builds, -⟩ := ofTranscript_tell (small_of_recovered recovered)
  rw [htold, hbuilt] at hbuild
  obtain rfl := Except.ok.inj hbuild
  exact ⟨story, recovered, builds⟩

/-- Whatever a definition says comes back when it is encoded and decoded. -/
theorem decode_recovers (supported : c.version.major ≤ Version.latestMajor)
    (documented : c.Documented) (small : bootstrapTableSize c.story.calls < 2 ^ 32)
    (h : c.encode = .ok content) :
    ∃ c', decode content.toArray = .ok c' ∧ c.RecoveredBy c' := by
  obtain ⟨story, c', hdecode, recovered, builds⟩ := exists_decode documented supported small h
  refine ⟨c', hdecode, ⟨builds.version.trans recovered.version, builds.flags.trans recovered.flags,
    builds.name.trans recovered.name, builds.super.trans recovered.super,
    builds.interfaces.trans recovered.interfaces, ?_, ?_, ?_⟩⟩
  · rw [builds.source, recovered.sources, ClassDef.story]
    cases c.source <;> rfl
  · refine Array.toList_inj.mp ?_
    rw [builds.fields, recovered.fields, Array.toList_map]
    rfl
  · refine forall₂_trans (List.forall₂_map_left_iff.mp recovered.methods) builds.methods.flip ?_
    exact fun method story method' hrecovered hbuilds =>
      MethodDef.recoveredBy_of_builds hrecovered hbuilds

/-- A class whose only method reads a field over and over. -/
def watcher : ClassDef where
  version := ⟨65, 0⟩
  flags := .ofBits _ 0x21
  name := "A"
  super := some "B"
  interfaces := []
  source := some "A.java"
  fields := #[⟨.ofBits _ 8, "f", "I", some (.int 7)⟩]
  methods := #[⟨.ofBits _ 9, "m", "()V", [],
    [.label ⟨0⟩, .line 7 ⟨0⟩, .field ⟨178⟩ "A" "f" "I", .simple ⟨87⟩, .jump .gotoWide ⟨0⟩].foldl
      (fun body i => (body.append i).2) (.empty 0)⟩]

theorem decode_recovers_watcher :
    ∃ content c', watcher.encode = .ok content ∧ decode content.toArray = .ok c' ∧
      watcher.RecoveredBy c' := by
  have hencoded : watcher.encode.toOption.isSome = true := by decide +kernel
  cases hencode : watcher.encode with
  | error error =>
      rw [hencode] at hencoded
      cases hencoded
  | ok content =>
      obtain ⟨c', hdecode, recovered⟩ :=
        decode_recovers (by decide) (by decide +kernel) (by decide +kernel) hencode
      exact ⟨content, c', rfl, hdecode, recovered⟩

end ClassDef

end JavaClass
