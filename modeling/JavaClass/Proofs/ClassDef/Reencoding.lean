import JavaClass.Proofs.ClassDef.Stability

/-!
# Definitions that are encoded again

A definition that was decoded and encoded is decoded to one that has the same
name and is encoded as the same bytes.
-/

namespace JavaClass.ClassDef

variable {c c' : ClassDef} {file : ClassFile} {extents : ClassLayout} {story : ClassStory}
  {bytes : Bytes} {content : List UInt8}

/-- Methods that were built from what a file tells are regular. -/
theorem Builds.regular (builds : c.Builds story) (tells : file.Tells extents story) :
    ∀ method ∈ c.methods.toList, method.Regular := by
  intro method mem
  obtain ⟨told, toldMem, built⟩ := exists_right builds.methods mem
  obtain ⟨member, -, toldBy⟩ := exists_right tells.methods toldMem
  exact built.regular toldBy

theorem documented_of_regular (regular : ∀ method ∈ c.methods.toList, method.Regular) :
    c.Documented := by
  intro method mem
  obtain ⟨o, arranges, documented⟩ := (regular method mem).code
  exact arranges.documented documented

/-- A decoded class has a version that can be read. -/
theorem Builds.supported (builds : c.Builds story) (tells : file.Tells extents story)
    (read : ClassFile.read bytes = .ok file) : c.version.major ≤ Version.latestMajor := by
  rw [builds.version, tells.version]
  exact (ClassFile.read_eq_ok read).2

/-- The calls of a decoded class fit a bootstrap table, since they come from one in its file. -/
theorem Builds.bootstrapTableSize_lt (builds : c.Builds story) (tells : file.Tells extents story)
    (small : file.bytes.size < 2 ^ 32) : bootstrapTableSize c.story.calls < 2 ^ 32 := by
  have read : ∀ call ∈ c.story.calls,
      ∃ entry ∈ (file.bootstraps extents.attributes).toList, entry.Reads file.constants call :=
    fun call mem => tells.calls (builds.calls_subset mem)
  exact Nat.lt_of_le_of_lt (bootstrapTableSize_le read) (file.sum_bootstraps _ small)

/-- What was built from a recovered story is told in other words. -/
theorem retold_of_recovered (regular : ∀ method ∈ c.methods.toList, method.Regular)
    (recovered : c.story.Recovered story) (builds : c'.Builds story) :
    c.story.Retold c'.story ∧ ∀ method ∈ c'.methods.toList, method.Checked := by
  have methods : List.Forall₂ (fun method method' => method.story.Retold method'.story ∧
      method'.Checked) c.methods.toList c'.methods.toList := by
    refine forall₂_trans (forall₂_imp_mem (List.forall₂_map_left_iff.mp recovered.methods)
      fun method mem told _ again => (⟨regular method mem, again⟩ :
        method.Regular ∧ method.story.Recovered told)) builds.methods.flip ?_
    exact fun method told method' first second => retold_of_regular first.1 first.2 second
  have sources : c'.story.sources = c.story.sources := by
    change c'.source.toList = c.source.toList
    rw [builds.source, recovered.sources, ClassDef.story]
    cases c.source <;> rfl
  refine ⟨⟨builds.version.trans recovered.version, builds.flags.trans recovered.flags,
    builds.name.trans recovered.name, builds.super.trans recovered.super,
    builds.interfaces.trans recovered.interfaces, sources, builds.fields.trans recovered.fields,
    ?_⟩, fun method mem => ?_⟩
  · refine List.forall₂_map_left_iff.mpr (List.forall₂_map_right_iff.mpr ?_)
    exact methods.imp fun _ _ told => told.1
  · obtain ⟨_, -, -, checked⟩ := exists_left methods mem
    exact checked

/-- A decoded class comes back from its encoded file, and is encoded as that file again. -/
theorem exists_reencoded (small : bytes.size < 2 ^ 32) (decoded : decode bytes = .ok c)
    (encoded : c.encode = .ok content) :
    ∃ c', decode content.toArray = .ok c' ∧ c'.encode = .ok content ∧ c'.name = c.name := by
  obtain ⟨file, extents, story, hread, tells, builds⟩ := decode_eq_ok decoded
  obtain ⟨hbytes, -⟩ := ClassFile.read_eq_ok hread
  have regular := builds.regular tells
  obtain ⟨-, draft, takes, hdraft⟩ := encode_eq_ok encoded
  obtain ⟨again, c', decoded', recovered, builds'⟩ :=
    exists_decode (documented_of_regular regular) (builds.supported tells hread)
      (builds.bootstrapTableSize_lt tells (hbytes ▸ small)) encoded
  obtain ⟨retold, checked⟩ := retold_of_recovered regular recovered builds'
  refine ⟨c', decoded', ?_, builds'.name.trans recovered.name⟩
  rw [encode_eq checked (ClassDraft.takes_retold retold takes), hdraft]

end JavaClass.ClassDef
