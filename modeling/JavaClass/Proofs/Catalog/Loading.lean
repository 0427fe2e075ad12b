import JavaClass.Catalog.Basic
import Mathlib.Data.List.Forall2

/-!
# Loads that stop half-way

A load adds the class files of a container in order, up to the first that
cannot be decoded. What was added before stays; what comes behind, files and
failures of the container alike, is as if it were not there.

## Implementation notes

A list of files is cut before the first that cannot be decoded, and the run over
the front is the fold of `add` over its classes.
-/

namespace JavaClass

/-- The class in the file. -/
def ClassFileEntry.Holds (entry : ClassFileEntry) (c : ClassDef) : Prop :=
  ClassDef.decode entry.contents = .ok c

/-- How an error in the file at a location is reported: the location goes in front of the message
of a malformation, and any other error stays as it is. -/
inductive Error.ReportedAt (location : String) : Error → Error → Prop where
  | located {cause placed : Malformation}
      (message : placed.message = location ++ ": " ++ cause.message) :
      ReportedAt location (.malformed cause) (.malformed placed)
  | unchanged {error : Error} (other : ∀ cause, error ≠ .malformed cause) :
      ReportedAt location error error

theorem Error.reportedAt_atLocation (location : String) (error : Error) :
    error.ReportedAt location (error.atLocation location) := by
  cases error with
  | malformed cause => exact .located rfl
  | _ => exact .unchanged fun _ h => nomatch h

/-- Files are cut before the first that cannot be decoded. -/
theorem ClassFileEntry.exists_cut (entries : List ClassFileEntry) :
    ∃ kept rest classes, entries = kept ++ rest ∧ List.Forall₂ Holds kept classes ∧
      (rest = [] ∨ ∃ broken later error,
        rest = broken :: later ∧ ClassDef.decode broken.contents = .error error) := by
  induction entries with
  | nil => exact ⟨[], [], [], rfl, .nil, .inl rfl⟩
  | cons entry entries ih =>
      cases decoded : ClassDef.decode entry.contents with
      | error error => exact ⟨[], _, [], rfl, .nil, .inr ⟨entry, entries, error, rfl, decoded⟩⟩
      | ok c =>
          obtain ⟨kept, rest, classes, rfl, held, stop⟩ := ih
          exact ⟨entry :: kept, rest, c :: classes, rfl, .cons decoded held, stop⟩

namespace Catalog

variable {entry : ClassFileEntry} {kept : List ClassFileEntry} {c : ClassDef}
  {classes : List ClassDef}

theorem addEntry_of_holds (holds : entry.Holds c) (catalog : Catalog) :
    addEntry entry catalog = .ok () (catalog.add c) := by
  rw [ClassFileEntry.Holds] at holds
  rw [addEntry, holds]

theorem addEntry_of_error {error : Error} (broken : ClassDef.decode entry.contents = .error error)
    (catalog : Catalog) :
    addEntry entry catalog = .error (error.atLocation entry.location) catalog := by
  rw [addEntry, broken]

/-- Files that can be decoded are added in order, and the run goes on with those behind them. -/
theorem forM_addEntry_append (held : List.Forall₂ ClassFileEntry.Holds kept classes)
    (rest : List ClassFileEntry) (catalog : Catalog) :
    (kept ++ rest).forM addEntry catalog = rest.forM addEntry (classes.foldl add catalog) := by
  induction held generalizing catalog with
  | nil => rfl
  | @cons entry c kept classes first _ ih =>
      calc (addEntry entry >>= fun _ => (kept ++ rest).forM addEntry) catalog
          = (kept ++ rest).forM addEntry (catalog.add c) := by
            simp only [bind, EStateM.bind, addEntry_of_holds first]
        _ = rest.forM addEntry ((c :: classes).foldl add catalog) := ih _

theorem forM_addEntry (held : List.Forall₂ ClassFileEntry.Holds kept classes) (catalog : Catalog) :
    kept.forM addEntry catalog = .ok () (classes.foldl add catalog) := by
  have run := forM_addEntry_append held [] catalog
  rwa [List.append_nil] at run

/-- A file that cannot be decoded ends the run, whatever comes behind it. -/
theorem forM_addEntry_broken (held : List.Forall₂ ClassFileEntry.Holds kept classes)
    {broken : ClassFileEntry} {error : Error}
    (undecoded : ClassDef.decode broken.contents = .error error) (later : List ClassFileEntry)
    (catalog : Catalog) :
    (kept ++ broken :: later).forM addEntry catalog =
      .error (error.atLocation broken.location) (classes.foldl add catalog) := by
  rw [forM_addEntry_append held]
  change (addEntry broken >>= fun _ => later.forM addEntry) _ = _
  simp only [bind, EStateM.bind, addEntry_of_error undecoded]

/-- If all files of a container can be decoded, their classes are added in order, and the
container's own failure is reported behind them. -/
theorem addEntries_of_held (held : List.Forall₂ ClassFileEntry.Holds kept classes)
    (failure : Option Error) (catalog : Catalog) :
    addEntries ⟨kept, failure⟩ catalog =
      match failure with
      | none => .ok kept.length (classes.foldl add catalog)
      | some error => .error error (classes.foldl add catalog) := by
  simp only [addEntries, bind, EStateM.bind, forM_addEntry held]
  cases failure <;> rfl

theorem addEntries_of_broken (held : List.Forall₂ ClassFileEntry.Holds kept classes)
    {broken : ClassFileEntry} {error : Error}
    (undecoded : ClassDef.decode broken.contents = .error error) (later : List ClassFileEntry)
    (failure : Option Error) (catalog : Catalog) :
    addEntries ⟨kept ++ broken :: later, failure⟩ catalog =
      .error (error.atLocation broken.location) (classes.foldl add catalog) := by
  simp only [addEntries, bind, EStateM.bind, forM_addEntry_broken held undecoded]

/-- A load leaves the catalog as adding the classes of the files before the first broken one does.
It reports that file's error, else the container's failure, else the number of files; what comes
behind a broken file changes neither the catalog nor the report. -/
theorem addEntries_stops_at_broken_file (catalog : Catalog) (entries : List ClassFileEntry)
    (failure : Option Error) :
    ∃ kept rest classes, entries = kept ++ rest ∧
      List.Forall₂ (fun entry c => ClassDef.decode entry.contents = .ok c) kept classes ∧
      ((rest = [] ∧
          addEntries ⟨entries, failure⟩ catalog =
            match failure with
            | some error => .error error (classes.foldl add catalog)
            | none => .ok entries.length (classes.foldl add catalog)) ∨
        ∃ broken later error reported, rest = broken :: later ∧
          ClassDef.decode broken.contents = .error error ∧
          error.ReportedAt broken.location reported ∧
          addEntries ⟨entries, failure⟩ catalog = .error reported (classes.foldl add catalog) ∧
          ∀ others otherFailure,
            addEntries ⟨kept ++ broken :: others, otherFailure⟩ catalog =
              addEntries ⟨entries, failure⟩ catalog) := by
  obtain ⟨kept, rest, classes, rfl, held, rfl | ⟨broken, later, error, rfl, undecoded⟩⟩ :=
    ClassFileEntry.exists_cut entries
  · refine ⟨kept, [], classes, rfl, held, .inl ⟨rfl, ?_⟩⟩
    rw [List.append_nil, addEntries_of_held held]
    cases failure <;> rfl
  · refine ⟨kept, broken :: later, classes, rfl, held,
      .inr ⟨broken, later, error, error.atLocation broken.location, rfl, undecoded,
        error.reportedAt_atLocation broken.location, ?_, ?_⟩⟩
    · exact addEntries_of_broken held undecoded later failure catalog
    · intro others otherFailure
      rw [addEntries_of_broken held undecoded, addEntries_of_broken held undecoded]

end Catalog

end JavaClass
