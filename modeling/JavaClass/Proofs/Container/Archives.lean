import Mathlib.Data.List.Forall2
import JavaClass.Container.Read
import JavaClass.Container.Write
import JavaClass.Proofs.Files.Trees

/-!
# Archives of classes

What an archive library does with the files of classes. An archive of classes is made
exactly if the library takes all of its files, and it is read as the files of these
classes if the library gives back what it took. Since the name of each file has the
ending of class files, none of them is left out.

## Implementation notes

The library is any one that works on file trees. What it does in a run is followed by
relations on trees; that it gives back what it took is an assumption (`GivesBack`),
which is about the calls of the library alone.
-/

namespace JavaClass

namespace ArchiveLibrary

variable [ArchiveLibrary (StateM FileTree)]

/-- The library takes files one after the other, each with its name and its contents, and then
finishes the archive. -/
inductive Takes :
    Writer (StateM FileTree) → List (String × Bytes) → FileTree → FileTree → Prop where
  | finish {writer tree after}
      (finished : (finish writer : StateM FileTree _) tree = (.ok (), after)) :
      Takes writer [] tree after
  | file {writer started written name contents rest tree startedTree writtenTree after}
      (start : (startFile writer name .deflated : StateM FileTree _) tree =
        (.ok started, startedTree))
      (write : (writeAll started contents : StateM FileTree _) startedTree =
        (some written, writtenTree))
      (others : Takes written rest writtenTree after) :
      Takes writer ((name, contents) :: rest) tree after

/-- An archive of these files is made in a new file, or over an earlier one. -/
def Makes (path : String) (files : List (String × Bytes)) (tree after : FileTree) : Prop :=
  ∃ created writer begun, tree.write path #[] = some created ∧
    (beginIn path : StateM FileTree _) created = (writer, begun) ∧ Takes writer files begun after

/-- The member of an archive at an index is read as a file with this name and these contents. Only a
name that ends like the one of a directory may be taken for one. -/
def ReadsAt (reader : Reader (StateM FileTree)) (tree : FileTree) (index : Nat)
    (file : String × Bytes) : Prop :=
  ∃ member, (memberAt reader index : StateM FileTree _) tree = (.ok member, tree) ∧
    name member = file.1 ∧
    (file.1.toList.getLast? ≠ some '/' → file.1.toList.getLast? ≠ some '\\' →
      isFile member = true) ∧
    (readAll member : StateM FileTree _) tree = (.ok file.2, tree)

/-- The file at a path is there, and is read as an archive whose members are these files in this
order. -/
def Holds (path : String) (files : List (String × Bytes)) (tree : FileTree) : Prop :=
  tree.isThere path = true ∧ ∃ reader,
    (openAt path : StateM FileTree _) tree = (.ok reader, tree) ∧
    List.Forall₂ (ReadsAt reader tree) (List.range (count reader)) files

/-- Whenever an archive of these files is made, they are read from it, in order and with their names
and contents. -/
def GivesBack (path : String) (files : List (String × Bytes)) : Prop :=
  ∀ tree after, Makes path files tree after → Holds path files after

end ArchiveLibrary

namespace Container

open ArchiveLibrary

/-- The files of these classes, each with its name. -/
def filesOf (classes : List (String × Bytes)) : List (String × Bytes) :=
  classes.map fun (name, bytes) => (fileName name, bytes)

/-- The files of these classes, as a container gives them. -/
def entriesOf (classes : List (String × Bytes)) : List ClassFileEntry :=
  classes.map fun (name, bytes) => ⟨fileName name, bytes⟩

theorem isClassName_fileName (className : String) : isClassName (fileName className) = true := by
  rw [isClassName, List.isSuffixOf_iff_suffix, fileName, String.toList_append]
  exact List.suffix_append _ _

theorem getLast?_fileName (className : String) :
    (fileName className).toList.getLast? = some 's' := by
  rw [fileName, String.toList_append, List.getLast?_append]
  rfl

/-- If every item is read as a class file, all of them are collected. -/
theorem collect_run {α : Type} {read : α → StateM FileTree (Except Error (Option ClassFileEntry))}
    {items : List α} {entries : List ClassFileEntry} {tree : FileTree}
    (each : List.Forall₂ (fun item entry => read item tree = (.ok (some entry), tree))
      items entries) :
    (collect read items : StateM FileTree Entries) tree = (⟨entries, none⟩, tree) := by
  induction each with
  | nil => rfl
  | cons first _ ih =>
      rw [collect, FileTree.bind_run, first]
      simp only [FileTree.bind_run, ih]
      rfl

variable [ArchiveLibrary (StateM FileTree)] {classes : List (String × Bytes)}
  {tree after : FileTree} {path : String}

theorem writeMember_eq_ok_iff {writer written : Writer (StateM FileTree)} {className : String}
    {bytes : Bytes} :
    (writeMember writer className bytes : StateM FileTree _) tree = (.ok written, after) ↔
      ∃ started startedTree,
        (startFile writer (fileName className) .deflated : StateM FileTree _) tree =
          (.ok started, startedTree) ∧
        (writeAll started bytes : StateM FileTree _) startedTree = (some written, after) := by
  rw [writeMember, FileTree.bind_run]
  constructor
  · intro h
    generalize (startFile writer (fileName className) .deflated : StateM FileTree _) tree = start
      at h ⊢
    obtain ⟨started | started, startedTree⟩ := start
    · cases h
    · refine ⟨started, startedTree, rfl, ?_⟩
      simp only [FileTree.bind_run] at h
      generalize (writeAll started bytes : StateM FileTree _) startedTree = write at h ⊢
      obtain ⟨_ | written, writtenTree⟩ := write <;> cases h
      rfl
  · rintro ⟨started, startedTree, start, write⟩
    simp only [start, FileTree.bind_run, write]
    rfl

/-- The files of classes are written if the library takes them. -/
theorem writeMembers_eq_ok_iff {writer : Writer (StateM FileTree)} :
    (writeMembers writer classes : StateM FileTree (Except Error Unit)) tree = (.ok (), after) ↔
      Takes writer (filesOf classes) tree after := by
  induction classes generalizing writer tree with
  | nil =>
      rw [writeMembers, FileTree.bind_run, FileTree.pure_run]
      constructor
      · intro h
        refine .finish ?_
        generalize (finish writer : StateM FileTree _) tree = finished at h ⊢
        obtain ⟨_ | _, finishedTree⟩ := finished <;> cases h
        rfl
      · rintro ⟨finished⟩
        rw [finished]
        rfl
  | cons file rest ih =>
      obtain ⟨name, bytes⟩ := file
      rw [writeMembers, FileTree.bind_run]
      constructor
      · intro h
        cases hwrite : (writeMember writer name bytes : StateM FileTree _) tree with
        | mk result writtenTree =>
            rw [hwrite] at h
            cases result with
            | error error => cases h
            | ok written =>
                obtain ⟨started, startedTree, start, write⟩ := writeMember_eq_ok_iff.mp hwrite
                exact .file start write (ih.mp h)
      · rintro (_ | ⟨start, write, others⟩)
        rw [writeMember_eq_ok_iff.mpr ⟨_, _, start, write⟩]
        exact ih.mpr others

/-- An archive of classes is written if the library makes one of their files. -/
theorem writeArchive_eq_ok_iff :
    (writeArchive path classes : StateM FileTree (Except Error Unit)) tree = (.ok (), after) ↔
      Makes path (filesOf classes) tree after := by
  unfold writeArchive Makes
  rw [FileTree.bind_run, FileTree.write_run]
  cases tree.write path #[] with
  | none =>
      constructor
      · intro h
        cases h
      · rintro ⟨created, writer, begun, h, -⟩
        cases h
  | some created =>
      constructor
      · intro h
        exact ⟨created, _, _, rfl, rfl, writeMembers_eq_ok_iff.mp h⟩
      · rintro ⟨_, writer, begun, ⟨⟩, begins, takes⟩
        simp only [if_true, FileTree.bind_run, begins]
        exact writeMembers_eq_ok_iff.mpr takes

/-- A member that is read as the file of a class is a class file. -/
theorem classInArchive_run {reader : Reader (StateM FileTree)} {index : Nat} {className : String}
    {contents : Bytes} (reads : ReadsAt reader tree index (fileName className, contents)) :
    (classInArchive reader index : StateM FileTree _) tree =
      (.ok (some ⟨fileName className, contents⟩), tree) := by
  obtain ⟨member, opened, name_eq, isFile, contents_eq⟩ := reads
  have isFile := isFile (by simp [getLast?_fileName]) (by simp [getLast?_fileName])
  simp only [classInArchive, FileTree.bind_run, opened, name_eq, isFile, isClassName_fileName,
    Bool.and_self, if_true, contents_eq]
  rfl

/-- An archive that holds the files of classes is read as these files. -/
theorem readArchive_run (holds : Holds path (filesOf classes) tree) :
    (readArchive path : StateM FileTree (Except Error Entries)) tree =
      (.ok ⟨entriesOf classes, none⟩, tree) := by
  obtain ⟨isThere, reader, opened, reads⟩ := holds
  have opens : (openArchive path : StateM FileTree _) tree = (.ok reader, tree) := by
    simp only [openArchive, FileTree.bind_run, FileTree.isThere_run, isThere, Bool.not_true,
      Bool.false_eq_true, if_false, FileTree.pure_run, opened]
    rfl
  rw [filesOf, List.forall₂_map_right_iff] at reads
  have each : List.Forall₂ (fun index entry =>
      (classInArchive reader index : StateM FileTree _) tree = (.ok (some entry), tree))
      (List.range (count reader)) (entriesOf classes) := by
    rw [entriesOf, List.forall₂_map_right_iff]
    exact reads.imp fun _ _ => classInArchive_run
  simp only [readArchive, FileTree.bind_run, opens, collect_run each]
  rfl

end Container

end JavaClass
