import JavaClass.Archive.Library
import JavaClass.Proofs.Bytes.Reading
import JavaClass.Proofs.Container.Archives

/-!
# The archive library of the command on file trees

The library that the command is run with gives back the files that its format gives
back. So whether it gives back some given files is only a computation.
-/

namespace JavaClass.Archive

/-- The members of an archive with their names and contents, as the format has them. -/
def decode (bytes : Bytes) : Except Error (List (String × Bytes)) := do
  let reader ← (Reader.ofBytes bytes).mapError ArchiveError.toError
  reader.entries.toList.mapM fun entry => do
    let member ← (reader.openEntry (some entry)).mapError ArchiveError.toError
    return (member.entry.name, ← member.contents.mapError .archive)

theorem mapError_eq_ok_iff {ε α : Type} {f : ε → Error} {result : Except ε α} {a : α} :
    result.mapError f = .ok a ↔ result = .ok a := by
  cases result with
  | error error => simp [Except.mapError]
  | ok a => simp [Except.mapError]

/-- When the library has taken some more files, all of them are in the file. -/
theorem write_of_takes {writer : Writer} {files : List (String × Bytes)} {tree after : FileTree}
    (takes : ArchiveLibrary.Takes writer files tree after) :
    tree.write writer.path (encode (writer.members.reverse ++ files)) = some after := by
  induction takes with
  | @finish writer tree after finished =>
      have run := tree.write_run writer.path writer.bytes
      rw [List.append_nil]
      change tree.write writer.path writer.bytes = some after
      cases hwrite : tree.write writer.path writer.bytes with
      | none =>
          rw [hwrite] at run
          simp only [ArchiveLibrary.finish, FileTree.bind_run, run] at finished
          cases finished
      | some written =>
          rw [hwrite] at run
          simp only [ArchiveLibrary.finish, FileTree.bind_run, run] at finished
          cases finished
          rfl
  | @file writer started written name contents rest tree _ _ after start write _ ih =>
      obtain ⟨hstarted, rfl⟩ := Prod.mk.inj start
      obtain rfl := Except.ok.inj hstarted
      obtain ⟨hwritten, rfl⟩ := Prod.mk.inj write
      obtain rfl := Option.some.inj hwritten
      simpa [Writer.start] using ih

theorem isFile_of_getLast? {member : Member} (slash : member.entry.name.toList.getLast? ≠ some '/')
    (backslash : member.entry.name.toList.getLast? ≠ some '\\') :
    (!member.isDirectory) = true := by
  unfold Member.isDirectory
  cases hlast : member.entry.name.toList.getLast? with
  | none => rfl
  | some c =>
      rw [hlast] at slash backslash
      simpa using ⟨fun h => slash (congrArg some h), fun h => backslash (congrArg some h)⟩

/-- The members of an archive are read as the format has them. -/
theorem exists_reader {bytes : Bytes} {files : List (String × Bytes)}
    (decoded : decode bytes = .ok files) (tree : FileTree) :
    ∃ reader, Reader.ofBytes bytes = .ok reader ∧
      List.Forall₂ (ArchiveLibrary.ReadsAt reader tree) (List.range reader.entries.size) files := by
  obtain ⟨reader, opened, each⟩ := exceptBind_eq_ok_iff.mp decoded
  refine ⟨reader, mapError_eq_ok_iff.mp opened, ?_⟩
  have each := mapM_eq_ok_iff.mp each
  rw [List.forall₂_iff_get] at each ⊢
  refine ⟨by simpa using each.1, fun index inRange inFiles => ?_⟩
  have inEntries : index < reader.entries.size := by simpa using inRange
  obtain ⟨member, hmember, read⟩ := exceptBind_eq_ok_iff.mp (each.2 index inEntries inFiles)
  obtain ⟨contents, hcontents, read⟩ := exceptBind_eq_ok_iff.mp read
  have hmember := mapError_eq_ok_iff.mp hmember
  have hcontents := mapError_eq_ok_iff.mp hcontents
  rw [← Except.ok.inj read]
  rw [List.get_eq_getElem, List.getElem_range]
  refine ⟨member, Prod.ext ?_ rfl, rfl, isFile_of_getLast?, Prod.ext hcontents rfl⟩
  change reader.openEntry reader.entries[index]? = .ok member
  rw [Array.getElem?_eq_getElem inEntries]
  exact hmember

/-- What the format gives back, the library gives back. -/
theorem givesBack {files : List (String × Bytes)} (decoded : decode (encode files) = .ok files)
    (path : String) : ArchiveLibrary.GivesBack path files := by
  rintro tree after ⟨created, writer, begun, -, begins, takes⟩
  obtain ⟨rfl, rfl⟩ := Prod.mk.inj begins
  obtain ⟨isThere, found⟩ := FileTree.read?_write (write_of_takes takes)
  obtain ⟨reader, opened, reads⟩ := exists_reader decoded after
  refine ⟨isThere, reader, ?_, reads⟩
  have run := FileTree.read_run after path
  rw [found] at run
  simp only [ArchiveLibrary.openAt, FileTree.bind_run, run]
  exact Prod.ext opened rfl

end JavaClass.Archive
