import JavaClass.Catalog.Files
import JavaClass.Proofs.Archive.Library
import JavaClass.Proofs.Catalog.Loading
import JavaClass.Proofs.Catalog.Ordered
import JavaClass.Proofs.ClassDef.Reencoding
import JavaClass.Proofs.Loading.Catalogs

/-!
# Catalogs in archives

A catalog of decoded classes that is saved in an archive comes back when the
archive is loaded: the same names in the same order, and classes that are
encoded as the same files. No class is lost on the way, since no two classes of
the catalog have one name, and each comes back under its own.

## Implementation notes

The archive library is any one, and what it does is an assumption: whenever it takes the
files of these classes for an archive at this path, it gives them back
(`ArchiveLibrary.GivesBack`).
-/

namespace JavaClass.Catalog

variable {catalog : Catalog} {c : ClassDef}

/-- A catalog to which classes were added as they were decoded, each from less than 2 ^ 32 bytes,
and from which classes were taken out. -/
inductive Gathered : Catalog → Prop where
  | empty : Gathered empty
  | add {catalog : Catalog} {bytes : Bytes} {c : ClassDef} (gathered : Gathered catalog)
      (small : bytes.size < 2 ^ 32) (decoded : ClassDef.decode bytes = .ok c) :
      Gathered (catalog.add c)
  | remove {catalog : Catalog} (gathered : Gathered catalog) (name : String) :
      Gathered (catalog.remove name).2

/-- Adding files keeps a catalog gathered, also if one of them cannot be decoded. -/
theorem Gathered.addEntries (gathered : Gathered catalog) {entries : List ClassFileEntry}
    (small : ∀ entry ∈ entries, entry.contents.size < 2 ^ 32) (failure : Option Error) :
    match Catalog.addEntries ⟨entries, failure⟩ catalog with
    | .ok _ after => Gathered after
    | .error _ after => Gathered after := by
  have steps : match entries.forM addEntry catalog with
      | .ok _ after => Gathered after
      | .error _ after => Gathered after := by
    induction entries generalizing catalog with
    | nil => exact gathered
    | cons entry rest ih =>
        change match (addEntry entry >>= fun _ => rest.forM addEntry) catalog with
          | .ok _ after => Gathered after
          | .error _ after => Gathered after
        simp only [bind, EStateM.bind, addEntry]
        cases decoded : ClassDef.decode entry.contents with
        | error error => exact gathered
        | ok c =>
            exact ih (gathered.add (small entry List.mem_cons_self) decoded)
              fun other mem => small other (List.mem_cons_of_mem _ mem)
  simp only [Catalog.addEntries, bind, EStateM.bind]
  cases run : entries.forM addEntry catalog with
  | error error after =>
      rw [run] at steps
      exact steps
  | ok value after =>
      rw [run] at steps
      cases failure <;> exact steps

theorem Gathered.exists_refines (gathered : Gathered catalog) :
    ∃ map, Refines catalog map := by
  induction gathered with
  | empty => exact ⟨.empty, refines_empty⟩
  | @add _ _ c _ _ _ ih =>
      obtain ⟨map, refines⟩ := ih
      exact ⟨_, refines.add c⟩
  | remove _ name ih =>
      obtain ⟨map, refines⟩ := ih
      exact ⟨_, refines.remove name⟩

theorem Gathered.nodup_names (gathered : Gathered catalog) : catalog.names.Nodup := by
  obtain ⟨map, refines⟩ := gathered.exists_refines
  rw [refines.names_eq]
  exact map.distinct

theorem mem_toList_add {other : ClassDef} (mem : other ∈ (catalog.add c).toList) :
    other = c ∨ other ∈ catalog.toList := by
  rw [toList, add] at mem
  split at mem
  · rw [Array.toList_setIfInBounds] at mem
    exact (List.mem_or_eq_of_mem_set mem).symm
  · rw [Array.toList_push] at mem
    exact (List.mem_append.mp mem).symm.imp_left List.mem_singleton.mp

theorem mem_toList_remove {name : String} (mem : c ∈ (catalog.remove name).2.toList) :
    c ∈ catalog.toList := by
  rw [remove] at mem
  split at mem
  · exact mem
  · rw [toList, Array.toList_eraseIdxIfInBounds] at mem
    exact List.mem_of_mem_eraseIdx mem

/-- Every class of the catalog is as it was decoded. -/
theorem Gathered.decoded (gathered : Gathered catalog) : ∀ c ∈ catalog.toList,
    ∃ bytes, bytes.size < 2 ^ 32 ∧ ClassDef.decode bytes = .ok c := by
  induction gathered with
  | empty =>
      intro c mem
      cases mem
  | add _ small decoded ih =>
      intro other mem
      obtain rfl | mem := mem_toList_add mem
      · exact ⟨_, small, decoded⟩
      · exact ih other mem
  | remove _ name ih => exact fun c mem => ih c (mem_toList_remove mem)

theorem toList_add_of_fresh {map : OrderedMap ClassDef} (refines : Refines catalog map)
    (fresh : c.name ∉ catalog.names) : (catalog.add c).toList = catalog.toList ++ [c] := by
  rw [refines.names_eq] at fresh
  rw [add, refines.tracks.position_eq_none_iff.mpr fresh]
  simp [toList]

/-- Classes of new names come behind those that are there. -/
theorem toList_foldl_add {map : OrderedMap ClassDef} (refines : Refines catalog map)
    {classes : List ClassDef} (distinct : (catalog.names ++ classes.map (·.name)).Nodup) :
    (classes.foldl add catalog).toList = catalog.toList ++ classes := by
  induction classes generalizing catalog map with
  | nil => rw [List.foldl_nil, List.append_nil]
  | cons c rest ih =>
      have fresh : c.name ∉ catalog.names := fun mem =>
        (List.nodup_append.mp distinct).2.2 c.name mem c.name List.mem_cons_self rfl
      have added := toList_add_of_fresh refines fresh
      have names_eq : (catalog.add c).names = catalog.names ++ [c.name] := by
        rw [names, added, List.map_append]
        rfl
      rw [List.foldl_cons, ih (refines.add c), added, List.append_assoc]
      · rfl
      · rw [names_eq, List.append_assoc]
        exact distinct

/-- If all files of a container can be decoded, all of their classes are added in order. -/
theorem addEntries_eq {entries : List ClassFileEntry} {classes : List ClassDef}
    (decoded : List.Forall₂ (fun entry c => ClassDef.decode entry.contents = .ok c) entries classes)
    (catalog : Catalog) :
    addEntries ⟨entries, none⟩ catalog = .ok entries.length (classes.foldl add catalog) :=
  addEntries_of_held decoded none catalog

/-- A catalog is encoded as the files of its classes, in order. -/
theorem encode_eq_ok_iff {files : List (String × Bytes)} :
    catalog.encode = .ok files ↔ List.Forall₂ IsFile catalog.toList files := by
  have file_iff (c : ClassDef) (file : String × Bytes) :
      (c.encode.map fun bytes => (c.name, bytes.toArray)) = .ok file ↔ IsFile c file := by
    rw [IsFile]
    cases c.encode with
    | error error => simp [Except.map]
    | ok content => simp [Except.map, eq_comm]
  rw [encode, mapM_eq_ok_iff]
  simp only [file_iff]

theorem names_of_isFile {classes : List ClassDef} {files : List (String × Bytes)}
    (related : List.Forall₂ IsFile classes files) :
    classes.map (·.name) = files.map Prod.fst := by
  rw [← List.forall₂_eq_eq_eq, List.forall₂_map_left_iff, List.forall₂_map_right_iff]
  refine related.imp ?_
  rintro c file ⟨content, -, rfl⟩
  rfl

/-- The files of a gathered catalog are decoded to classes that are encoded as these files, under
the same names. -/
theorem Gathered.exists_reencoded (gathered : Gathered catalog) {files : List (String × Bytes)}
    (related : List.Forall₂ IsFile catalog.toList files) :
    ∃ classes, List.Forall₂ (fun file c => ClassDef.decode file.2 = .ok c ∧ IsFile c file)
      files classes := by
  obtain ⟨classes, again⟩ : ∃ classes, List.Forall₂
      (fun c file => ClassDef.decode file.2 = .ok c ∧ IsFile c file) classes files := by
    apply exists_forall₂
    intro file mem
    obtain ⟨c, cMem, content, encoded, rfl⟩ := exists_left related mem
    obtain ⟨bytes, small, decoded⟩ := gathered.decoded c cMem
    obtain ⟨c', decoded', encoded', name_eq⟩ := ClassDef.exists_reencoded small decoded encoded
    exact ⟨c', decoded', content, encoded', by rw [name_eq]⟩
  exact ⟨classes, again.flip⟩

/-- A catalog of decoded classes is saved in an archive exactly if the library takes its files. If
the library gives back what it takes, the catalog comes back from the archive: with as many classes,
with the same names in the same order, and with classes that are encoded as what was saved. -/
theorem load_saved_archive [ArchiveLibrary (StateM FileTree)] (gathered : Gathered catalog)
    {files : List (String × Bytes)} (encoded : catalog.encode = .ok files) {path : String}
    (givesBack : ArchiveLibrary.GivesBack path (Container.filesOf files)) (tree after : FileTree) :
    ((catalog.saveArchive path : StateM FileTree (Except Error Unit)) tree = (.ok (), after) ↔
      ArchiveLibrary.Makes path (Container.filesOf files) tree after) ∧
    ((catalog.saveArchive path : StateM FileTree (Except Error Unit)) tree = (.ok (), after) →
      ∃ loaded,
        (empty.loadArchive path : StateM FileTree (EStateM.Result Error Catalog Nat)) after =
          (.ok catalog.size loaded, after) ∧
        loaded.names = catalog.names ∧
        List.Forall₂ IsFile loaded.toList files ∧
        ∀ other tree, (loaded.saveArchive other : StateM FileTree (Except Error Unit)) tree =
          (catalog.saveArchive other : StateM FileTree (Except Error Unit)) tree) := by
  have related := encode_eq_ok_iff.mp encoded
  have saves : (catalog.saveArchive path : StateM FileTree (Except Error Unit)) tree =
      (.ok (), after) ↔ ArchiveLibrary.Makes path (Container.filesOf files) tree after := by
    rw [saveArchive, encoded]
    exact Container.writeArchive_eq_ok_iff
  refine ⟨saves, fun saved => ?_⟩
  obtain ⟨classes, again⟩ := gathered.exists_reencoded related
  have files_eq : List.Forall₂ IsFile classes files := (again.imp fun _ _ both => both.2).flip
  have names_eq : classes.map (·.name) = catalog.names :=
    (names_of_isFile files_eq).trans (names_of_isFile related).symm
  have loaded_eq : (classes.foldl add empty).toList = classes := by
    refine toList_foldl_add refines_empty ?_
    rw [names_eq]
    exact gathered.nodup_names
  have decoded : List.Forall₂ (fun entry c => ClassDef.decode entry.contents = .ok c)
      (Container.entriesOf files) classes := by
    rw [Container.entriesOf, List.forall₂_map_left_iff]
    exact again.imp fun _ _ both => both.1
  have size_eq : files.length = catalog.size := by
    rw [← related.length_eq, toList, Array.length_toList, size]
  refine ⟨classes.foldl add empty, ?_, ?_, ?_, ?_⟩
  · unfold loadArchive
    rw [FileTree.bind_run, Container.readArchive_run (givesBack tree after (saves.mp saved)),
      FileTree.pure_run, addContainer, addEntries_eq decoded, Container.entriesOf,
      List.length_map, size_eq]
  · rw [names, loaded_eq, names_eq]
  · rw [loaded_eq]
    exact files_eq
  · intro other tree
    have encoded_again : (classes.foldl add empty).encode = .ok files := by
      rw [encode_eq_ok_iff, loaded_eq]
      exact files_eq
    rw [saveArchive, saveArchive, encoded_again, encoded]

/-- The file of a public class of this name, of one character, without a super class. -/
def bareFile (name : UInt8) : Bytes :=
  #[0xCA, 0xFE, 0xBA, 0xBE, 0, 0, 0, 65, 0, 3, 1, 0, 1, name, 7, 0, 1, 0, 33, 0, 2, 0, 0, 0, 0, 0,
    0, 0, 0, 0, 0]

/-- Two classes in an archive of the library that the command is run with. -/
theorem load_saved_archive_pair :
    ∃ catalog after loaded, Gathered catalog ∧ catalog.names = ["B", "A"] ∧
      (catalog.saveArchive "out.jar" : StateM FileTree (Except Error Unit)) (.empty []) =
        (.ok (), after) ∧
      (empty.loadArchive "out.jar" : StateM FileTree (EStateM.Result Error Catalog Nat)) after =
        (.ok catalog.size loaded, after) ∧
      loaded.names = catalog.names ∧
      List.Forall₂ IsFile loaded.toList [("B", bareFile 66), ("A", bareFile 65)] := by
  have run : (do
      let first ← ClassDef.decode (bareFile 66)
      let second ← ClassDef.decode (bareFile 65)
      let catalog := (empty.add first).add second
      return (catalog.names, ← catalog.encode)) =
        .ok (["B", "A"], [("B", bareFile 66), ("A", bareFile 65)]) := by decide +kernel
  obtain ⟨first, decodedFirst, run⟩ := exceptBind_eq_ok_iff.mp run
  obtain ⟨second, decodedSecond, run⟩ := exceptBind_eq_ok_iff.mp run
  obtain ⟨files, encoded, run⟩ := exceptBind_eq_ok_iff.mp run
  obtain ⟨names_eq, rfl⟩ := Prod.mk.inj (Except.ok.inj run)
  have gathered : Gathered ((empty.add first).add second) :=
    .add (.add .empty (by decide) decodedFirst) (by decide) decodedSecond
  have written : ((Container.writeArchive "out.jar" [("B", bareFile 66), ("A", bareFile 65)] :
      StateM FileTree (Except Error Unit)) (.empty [])).1 = .ok () := by decide +kernel
  cases hrun : (Container.writeArchive "out.jar" [("B", bareFile 66), ("A", bareFile 65)] :
      StateM FileTree (Except Error Unit)) (.empty []) with
  | mk result after =>
      rw [hrun] at written
      obtain rfl : result = .ok () := written
      have saved : (((empty.add first).add second).saveArchive "out.jar" :
          StateM FileTree (Except Error Unit)) (.empty []) = (.ok (), after) := by
        rw [saveArchive, encoded]
        exact hrun
      have givesBack := @Archive.givesBack
        (Container.filesOf [("B", bareFile 66), ("A", bareFile 65)]) (by decide +kernel) "out.jar"
      obtain ⟨loaded, found, same, each, -⟩ :=
        (load_saved_archive gathered encoded givesBack (.empty []) after).2 saved
      exact ⟨_, after, loaded, gathered, names_eq, saved, found, same, each⟩

end JavaClass.Catalog
