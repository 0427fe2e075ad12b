import JavaClass.Proofs.ClassFile.Order

/-!
# Files of whole classes

The file that a class draft gives for a class can be taken apart however new its
version is: its extents are found, and what stands there shows the class that was
told.
-/

namespace JavaClass

/-- A file holds parts that show a class at these extents. -/
structure ClassFile.Written (file : ClassFile) (extents : ClassLayout) (story : ClassStory)
    (parts : ClassParts) : Prop where
  within : ∃ stop, parts.In file stop
  shown : ClassShown file.constants (file.bootstraps extents.attributes) story parts
  layout : file.extents = .ok extents
  fields : List.Forall₂ (EncodedMember.At file) parts.fields extents.fields
  methods : List.Forall₂ (EncodedMember.At file) parts.methods extents.methods
  attributes : List.Forall₂ (EncodedAttribute.Starts file) parts.attributes extents.attributes

/-- A class that was told to a class draft is written in the file that the draft gives. -/
theorem ClassStory.exists_written {story : ClassStory} {draft : ClassDraft} {content : List UInt8}
    (proper : ∀ method ∈ story.methods, method.Proper)
    (takes : Receiver.Takes ClassDraft.receive story.events .empty draft)
    (hbytes : draft.bytes = .ok content) :
    ∃ file extents parts, ClassFile.Opens file content.toArray ∧ file.version = story.version ∧
      file.Written extents story parts := by
  obtain ⟨parts, bootstraps, hencode, valid, shown, -⟩ := ClassDraft.takes_class proper takes hbytes
  obtain ⟨file, opens, within⟩ :=
    ClassParts.opens valid.writable hencode (Bytes.holds_all content)
  rw [← within.constants] at shown
  obtain ⟨extents, hlayout, hfields, hmethods, hattributes⟩ := shown.exists_extents within
  have hextents : file.extents = .ok extents := by
    have header := within.header_eq shown.header
    rw [shown.header.interfaces.length_eq] at header
    simp only [ClassFile.extents, header, bind, Except.bind, hlayout]
  refine ⟨file, extents, parts, opens, within.version.trans shown.header.version,
    ⟨_, within⟩, ?_, hextents, hfields, hmethods, hattributes⟩
  rwa [shown.bootstraps_eq hattributes]

end JavaClass
