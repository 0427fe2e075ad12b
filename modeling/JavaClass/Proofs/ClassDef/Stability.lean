import JavaClass.Proofs.Assembly.Retelling
import JavaClass.Proofs.ClassDef.RoundTrip

/-!
# Encoding what was decoded

A class file may say the same thing in many ways, but definitions are encoded in
one way only: a file that was decoded and encoded once stays as it is when this
is done again.

## Implementation notes

What was decoded twice is the same but for its labels, and their numbers depend
on the order in which they were met. A class draft only asks which tokens are
equal, so it takes both in the same way.
-/

namespace JavaClass

theorem ClassFile.read_eq_ok {bytes : Bytes} {file : ClassFile}
    (h : ClassFile.read bytes = .ok file) :
    file.bytes = bytes ∧ file.version.major ≤ Version.latestMajor := by
  obtain ⟨opens, supported⟩ := ClassFile.read_eq_ok_iff.mp h
  exact ⟨opens.bytes_eq, supported⟩

/-- Code that is empty is an arrangement. -/
theorem Listing.blank_arranges :
    (blank : Listing LabelToken).Arranges ⟨[], [], [], 0, 0⟩ where
  proper := ⟨by simp, by simp [Outline.mentioned]⟩
  labels := by
    refine ⟨fun _ => ⟨0⟩, ?_, ?_⟩
    · simp [Outline.arrange, Outline.arrangeFrom, Outline.marks, Outline.mentioned, referenced]
    · simp [Outline.arrange, Outline.arrangeFrom, Outline.marks, Outline.mentioned, map, blank]

/-- Operations have codes of their families in an arrangement if they do in the outline. -/
theorem Listing.Arranges.documented {α : Type} {listing : Listing α} {o : Outline}
    (arranges : listing.Arranges o) (documented : ∀ i ∈ o.instructions, i.Documented) :
    ∀ i ∈ listing.instructions, i.Documented := by
  obtain ⟨f, -, rfl⟩ := arranges.labels
  intro i hi
  obtain ⟨source, hsource, rfl⟩ := List.mem_map.mp hi
  rw [Instruction.documented_map]
  by_cases hpseudo : source.isPseudo = true
  · cases source <;> trivial
  · exact documented source
      (Outline.mem_of_mem_arrange arranges.proper hsource (by simpa using hpseudo))

/-- A method as decoding gives it. -/
structure MethodDef.Regular (method : MethodDef) : Prop where
  code : ∃ o, method.body.listing.Arranges o ∧ ∀ i ∈ o.instructions, i.Documented
  empty : method.body.isEmpty = true ↔ method.body.listing.instructions = []

/-- A method that was built from a class file is regular. -/
theorem MethodDef.Builds.regular {file : ClassFile} {bootstraps : Array Bootstrap}
    {member : MemberRange} {story : MethodStory} {method : MethodDef} (builds : method.Builds story)
    (tells : file.TellsMethod bootstraps story member) : method.Regular := by
  obtain ⟨known, built⟩ := builds.body
  have hempty : method.body.isEmpty = true ↔ method.body.listing.instructions = [] := by
    rw [built.isEmpty_iff, built.holds, Listing.map, List.map_eq_nil_iff]
  have hcode := tells.code
  cases hstory : story.code with
  | none =>
      rw [hstory] at built
      exact ⟨⟨⟨[], [], [], 0, 0⟩, built.arranges Listing.blank_arranges, by simp⟩, hempty⟩
  | some listing =>
      rw [hstory] at built hcode
      obtain ⟨o, arranged, documented⟩ := hcode.arranged
      exact ⟨⟨o, built.arranges arranged.arranges, documented⟩, hempty⟩

namespace ClassDef

variable {c c' : ClassDef} {bytes : Bytes} {content : List UInt8}

/-- A definition is decoded from a file whose events a partial class received. -/
theorem exists_deliver_of_decode (h : decode bytes = .ok c) :
    ∃ file p, ClassFile.read bytes = .ok file ∧ ofTranscript file.transcript = .ok c ∧
      Receiver.deliver PartialClass.receive file.transcript .empty = .ok () p := by
  unfold decode at h
  obtain ⟨file, hread, h⟩ := exceptBind_eq_ok_iff.mp h
  have hbuilt := h
  unfold ofTranscript at h
  cases hdeliver : Receiver.deliver PartialClass.receive file.transcript .empty with
  | error error p =>
      rw [hdeliver] at h
      cases h
  | ok value p => exact ⟨file, p, hread, hbuilt, hdeliver⟩

/-- A definition that was decoded was built from what a file tells. -/
theorem decode_eq_ok (h : decode bytes = .ok c) :
    ∃ file extents story, ClassFile.read bytes = .ok file ∧ file.Tells extents story ∧
      c.Builds story := by
  obtain ⟨file, p, hread, h, hdeliver⟩ := exists_deliver_of_decode h
  have htell : file.transcript = .tell file.transcript.events :=
    Transcript.eq_tell_of_failure (Receiver.deliver_eq_ok_iff.mp hdeliver).1
  obtain ⟨extents, story, tells, hevents⟩ := ClassFile.transcript_eq_tell_iff.mp htell
  obtain ⟨built, hbuilt, builds, -⟩ := ofTranscript_tell tells.small
  rw [htell, hevents, hbuilt] at h
  obtain rfl := Except.ok.inj h
  exact ⟨file, extents, story, hread, tells, builds⟩

/-- A definition names the bootstrap methods that it was told. -/
theorem Builds.calls_subset {story : ClassStory} (builds : c.Builds story) :
    c.story.calls ⊆ story.calls := by
  intro call hcall
  obtain ⟨methodStory, hstory, hcall⟩ := List.mem_flatMap.mp hcall
  obtain ⟨method, hmethod, rfl⟩ := List.mem_map.mp hstory
  obtain ⟨told, htold, hbuilds⟩ := exists_right builds.methods hmethod
  refine List.mem_flatMap.mpr ⟨told, htold, ?_⟩
  obtain ⟨known, built⟩ := hbuilds.body
  have hcalls : method.body.listing.instructions.flatMap Instruction.calls = told.calls := by
    rw [built.holds, MethodStory.calls]
    cases told.code with
    | none => rfl
    | some listing =>
        simp only [Listing.map, List.flatMap_map, Instruction.calls_map]
        rfl
  rw [← hcalls]
  unfold MethodStory.calls MethodDef.story at hcall
  cases hcode : method.hasCode with
  | false =>
      rw [hcode] at hcall
      cases hcall
  | true =>
      rw [hcode] at hcall
      simpa [Listing.map, List.flatMap_map] using hcall

/-- Code that was decoded, encoded and decoded again has other labels at most. -/
theorem exists_exchange_of_builds {method method' : MethodDef} {story : MethodStory}
    {listing : Listing LabelToken} (regular : method.Regular) (builds : method'.Builds story)
    (hcode : story.code = some listing)
    (arranged : listing.Arranged (method.body.listing.map Label.token).outline.normal) :
    method'.body.listing.Closed ∧ ∃ f : LabelToken → LabelToken, Function.Injective f ∧
      method'.body.listing.map Label.token =
        ((method.body.listing.map Label.token).map f).normal := by
  obtain ⟨o, arranges, -⟩ := regular.code
  obtain ⟨known, built⟩ := builds.body
  rw [hcode] at built
  have hfirst := arranges.map Label.token_injective.injOn
  have hlisting := arranged.arranges.of_same hfirst.proper.normal hfirst.same_outline.normal
  have hsecond := built.arranges hlisting
  exact ⟨hsecond.placed.closed, hfirst.exists_exchange (hsecond.map Label.token_injective.injOn)⟩

/-- Methods that were decoded, encoded and decoded again are told in other words. -/
theorem retold_of_regular {method method' : MethodDef} {story : MethodStory}
    (regular : method.Regular) (recovered : method.story.Recovered story)
    (builds : method'.Builds story) : method.story.Retold method'.story ∧ method'.Checked := by
  have hflags := builds.flags.trans recovered.flags
  have hrel := recovered.code
  obtain ⟨known, built⟩ := builds.body
  have hempty := built.isEmpty_iff
  suffices h : Option.Rel (fun listing listing' => ∃ f : LabelToken → LabelToken,
      Function.Injective f ∧ listing' = (listing.map f).normal) method.story.code
        method'.story.code ∧ method'.Checked from
    ⟨⟨hflags, builds.name.trans recovered.name, builds.descriptor.trans recovered.descriptor,
      builds.exceptions.trans recovered.exceptions, h.1⟩, h.2⟩
  cases hcode : method.hasCode with
  | false =>
      have hnone : method.story.code = none := by simp [MethodDef.story, hcode]
      rw [hnone] at hrel ⊢
      cases hstory : story.code with
      | some listing =>
          rw [hstory] at hrel
          cases hrel
      | none =>
          rw [hstory] at hempty
          have hcode' : method'.hasCode = false := by
            rw [MethodDef.hasCode, hflags, hempty.mpr rfl]
            exact Bool.or_eq_false_iff.mpr ⟨(Bool.or_eq_false_iff.mp hcode).1, rfl⟩
          refine ⟨?_, fun h => ?_⟩
          · rw [MethodDef.story, hcode']
            exact .none
          · rw [hcode'] at h
            cases h
  | true =>
      have hsome : method.story.code = some (method.body.listing.map Label.token) := by
        simp [MethodDef.story, hcode]
      rw [hsome] at hrel ⊢
      cases hstory : story.code with
      | none =>
          rw [hstory] at hrel
          cases hrel
      | some listing =>
          rw [hstory] at hrel built hempty
          cases hrel with
          | some h =>
              obtain ⟨closed, f, inj, hlisting⟩ :=
                exists_exchange_of_builds regular builds hstory h.2
              have hlength : listing.instructions.length =
                  method.body.listing.instructions.length := by
                have hlengths := congrArg (·.instructions.length) hlisting
                have hholds := congrArg (·.instructions.length) built.holds
                simp only [Listing.map, Listing.normal, List.length_map] at hlengths hholds
                exact hholds.symm.trans hlengths
              have hsame : method'.body.isEmpty = method.body.isEmpty := by
                rw [Bool.eq_iff_iff]
                exact hempty.trans ((List.length_eq_zero_iff.symm.trans
                  (hlength ▸ List.length_eq_zero_iff)).trans regular.empty.symm)
              have hcode' : method'.hasCode = true := by
                rw [MethodDef.hasCode, hflags, hsame]
                exact hcode
              refine ⟨?_, fun _ => MethodBody.checkLabels_eq_ok_iff.mpr closed⟩
              rw [MethodDef.story, hcode']
              exact .some ⟨f, inj, hlisting⟩

/-- A file that was decoded and encoded once stays as it is. -/
theorem encode_decode_stable (small : bytes.size < 2 ^ 32) (hdecode : decode bytes = .ok c)
    (hencode : c.encode = .ok content) :
    ∃ c', decode content.toArray = .ok c' ∧ c'.encode = .ok content := by
  obtain ⟨file, extents, story, hread, tells, builds⟩ := decode_eq_ok hdecode
  obtain ⟨hbytes, hsupported⟩ := ClassFile.read_eq_ok hread
  have regular : ∀ method ∈ c.methods.toList, method.Regular := by
    intro method hmethod
    obtain ⟨methodStory, hstory, hbuilds⟩ := exists_right builds.methods hmethod
    obtain ⟨member, -, hmember⟩ := exists_right tells.methods hstory
    exact hbuilds.regular hmember
  have documented : c.Documented := by
    intro method hmethod
    obtain ⟨o, arranges, hdocumented⟩ := (regular method hmethod).code
    exact arranges.documented hdocumented
  have supported : c.version.major ≤ Version.latestMajor := by
    rwa [builds.version, tells.version]
  have hcalls : bootstrapTableSize c.story.calls < 2 ^ 32 := by
    have hreads : ∀ call ∈ c.story.calls,
        ∃ entry ∈ (file.bootstraps extents.attributes).toList, entry.Reads file.constants call :=
      fun call hcall => tells.calls (builds.calls_subset hcall)
    exact Nat.lt_of_le_of_lt (bootstrapTableSize_le hreads)
      (file.sum_bootstraps extents.attributes (hbytes ▸ small))
  obtain ⟨-, draft, takes, hbytes'⟩ := encode_eq_ok hencode
  obtain ⟨story', c', hdecode', recovered, builds'⟩ :=
    exists_decode documented supported hcalls hencode
  refine ⟨c', hdecode', ?_⟩
  have hmethods : List.Forall₂ (fun method method' => method.story.Retold method'.story ∧
      method'.Checked) c.methods.toList c'.methods.toList := by
    refine forall₂_trans (forall₂_imp_mem (List.forall₂_map_left_iff.mp recovered.methods)
      fun method hmethod methodStory _ h => (⟨regular method hmethod, h⟩ :
        method.Regular ∧ method.story.Recovered methodStory)) builds'.methods.flip ?_
    exact fun method methodStory method' h hbuilds => retold_of_regular h.1 h.2 hbuilds
  have retold : c.story.Retold c'.story := by
    refine ⟨builds'.version.trans recovered.version, builds'.flags.trans recovered.flags,
      builds'.name.trans recovered.name, builds'.super.trans recovered.super,
      builds'.interfaces.trans recovered.interfaces, ?_, builds'.fields.trans recovered.fields, ?_⟩
    · change c'.source.toList = c.source.toList
      rw [builds'.source, recovered.sources, ClassDef.story]
      cases c.source <;> rfl
    · refine List.forall₂_map_left_iff.mpr (List.forall₂_map_right_iff.mpr ?_)
      exact hmethods.imp fun _ _ h => h.1
  have checked : ∀ method ∈ c'.methods.toList, method.Checked := by
    intro method hmethod
    obtain ⟨_, -, -, h⟩ := exists_left hmethods hmethod
    exact h
  rw [encode_eq checked (ClassDraft.takes_retold retold takes), hbytes']

/-- A file with a constant that nothing refers to, and with a load that is spelled too long. -/
def wordyFile : Bytes :=
  #[0xCA, 0xFE, 0xBA, 0xBE, 0, 0, 0, 65, 0, 7, 3, 0, 0, 0, 7, 1, 0, 1, 65, 7, 0, 2, 1, 0, 1, 109,
    1, 0, 3, 40, 41, 86, 1, 0, 4, 67, 111, 100, 101, 4, 32, 0, 3, 0, 0, 0, 0, 0, 0, 0, 1, 0, 8,
    0, 4, 0, 5, 0, 1, 0, 6, 0, 0, 0, 17, 0, 1, 0, 1, 0, 0, 0, 5, 0xC4, 21, 0, 0, 177, 0, 0, 0, 0,
    0, 0]

/-- The same class as it is encoded. -/
def terseFile : List UInt8 :=
  [0xCA, 0xFE, 0xBA, 0xBE, 0, 0, 0, 65, 0, 6, 1, 0, 1, 65, 7, 0, 1, 1, 0, 1, 109, 1, 0, 3, 40, 41,
    86, 1, 0, 4, 67, 111, 100, 101, 4, 32, 0, 2, 0, 0, 0, 0, 0, 0, 0, 1, 0, 8, 0, 3, 0, 4, 0, 1,
    0, 5, 0, 0, 0, 14, 0, 1, 0, 1, 0, 0, 0, 2, 26, 177, 0, 0, 0, 0, 0, 0]

theorem encode_decode_stable_wordyFile :
    (decode wordyFile).bind encode = .ok terseFile ∧
      ∃ c, decode terseFile.toArray = .ok c ∧ c.encode = .ok terseFile := by
  have hrun : (decode wordyFile).bind encode = .ok terseFile := by decide +kernel
  obtain ⟨c, hdecode, hencode⟩ := exceptBind_eq_ok_iff.mp hrun
  exact ⟨hrun, encode_decode_stable (by decide) hdecode hencode⟩

end ClassDef

end JavaClass
