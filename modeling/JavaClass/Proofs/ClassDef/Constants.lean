import JavaClass.Proofs.Assembly.References
import JavaClass.Proofs.ClassDef.Leaves

/-!
# Constants of encoded classes

A class that is encoded brings along no constant that is not needed: whatever is
in the pool of its file is found from the header, the members, the attributes or
the code of the file. So no text and no number comes back from a file that was
decoded if only attributes that are skipped needed it there.
-/

namespace JavaClass.ClassDef

variable {c : ClassDef} {content : List UInt8}

/-- The story of a definition is told with one source file at most. -/
theorem getLast?_sources {source : String} (mem : source ∈ c.story.sources) :
    c.story.sources.getLast? = some source := by
  change source ∈ c.source.toList at mem
  change c.source.toList.getLast? = some source
  rw [Option.mem_toList.mp mem]
  rfl

/-- Whatever class is encoded, each constant of its file is found from one to which the file refers.
If the class was decoded, each text and each number comes from its file, which refers to it outside
of the attributes that are skipped, or is the name of an attribute. -/
theorem encode_leaves_nothing_spare (encoded : c.encode = .ok content) :
    (c.Documented → ∃ file extents, ClassFile.Opens file content.toArray ∧
      file.extents = .ok extents ∧ file.Sparing extents) ∧
    ∀ bytes, decode bytes = .ok c → ∃ source sourceExtents file extents,
      ClassFile.read bytes = .ok source ∧ source.extents = .ok sourceExtents ∧
      ClassFile.read content.toArray = .ok file ∧ file.extents = .ok extents ∧
      file.Sparing extents ∧
      ∀ slot constant, file.constants.get slot = .ok constant → constant.references = [] →
        source.Supplies sourceExtents constant := by
  obtain ⟨-, draft, takes, written⟩ := encode_eq_ok encoded
  constructor
  · intro documented
    obtain ⟨file, extents, opens, -, layout, sparing, -⟩ := c.story.exists_sparing
      (story_proper documented) (fun _ => getLast?_sources) takes written
    exact ⟨file, extents, opens, layout, sparing⟩
  · intro bytes decoded
    obtain ⟨source, sourceExtents, story, read, tells, builds⟩ := decode_eq_ok decoded
    have documented := documented_of_regular (builds.regular tells)
    obtain ⟨file, extents, opens, version, layout, sparing, needed⟩ := c.story.exists_sparing
      (story_proper documented) (fun _ => getLast?_sources) takes written
    have supported : file.version.major ≤ Version.latestMajor := by
      rw [version]
      exact builds.supported tells read
    refine ⟨source, sourceExtents, file, extents, read, tells.extents,
      ClassFile.read_eq_ok_iff.mpr ⟨opens, supported⟩, layout, sparing, ?_⟩
    intro slot constant found last
    obtain rfl | ⟨event, told, tree, needs, part, mem, shown⟩ := needed slot constant found
    · exact .inl ⟨_, by simp [ClassFile.keptAttributes], rfl⟩
    · have leaf := ConstantTree.leaves_subset_of_mem_parts mem (shown.mem_leaves found last)
      exact builds.supplies tells told needs leaf

/-- A file with an attribute that is skipped, and an integer for it. -/
def markedFile : Bytes :=
  #[0xCA, 0xFE, 0xBA, 0xBE, 0, 0, 0, 65, 0, 5, 1, 0, 1, 65, 7, 0, 1, 1, 0, 6, 77, 97, 114, 107, 101,
    114, 3, 0, 0, 0, 7, 4, 32, 0, 2, 0, 0, 0, 0, 0, 0, 0, 0, 0, 1, 0, 3, 0, 0, 0, 2, 0, 4]

/-- The same class as it is encoded. -/
def plainFile : List UInt8 :=
  [0xCA, 0xFE, 0xBA, 0xBE, 0, 0, 0, 65, 0, 3, 1, 0, 1, 65, 7, 0, 1, 4, 32, 0, 2, 0, 0, 0, 0, 0, 0,
    0, 0, 0, 0]

theorem encode_leaves_nothing_spare_markedFile :
    ∃ c, decode markedFile = .ok c ∧ c.encode = .ok plainFile ∧ c.Documented ∧
      (∃ file extents, ClassFile.Opens file plainFile.toArray ∧ file.extents = .ok extents ∧
        file.Sparing extents) ∧
      ∃ source sourceExtents file extents,
        ClassFile.read markedFile = .ok source ∧ source.extents = .ok sourceExtents ∧
        ClassFile.read plainFile.toArray = .ok file ∧ file.extents = .ok extents ∧
        file.Sparing extents ∧
        ∀ slot constant, file.constants.get slot = .ok constant → constant.references = [] →
          source.Supplies sourceExtents constant := by
  have run : (decode markedFile).bind encode = .ok plainFile := by decide +kernel
  obtain ⟨c, decoded, encoded⟩ := exceptBind_eq_ok_iff.mp run
  obtain ⟨file, extents, story, -, tells, builds⟩ := decode_eq_ok decoded
  have documented := documented_of_regular (builds.regular tells)
  exact ⟨c, decoded, encoded, documented, (encode_leaves_nothing_spare encoded).1 documented,
    (encode_leaves_nothing_spare encoded).2 markedFile decoded⟩

end JavaClass.ClassDef
