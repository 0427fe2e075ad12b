import JavaClass.ClassDef.Codec
import JavaClass.Proofs.Files.Trees

/-!
# Directories of classes

The file of a class is named by the class, and nothing is asked of the name. So
the files of some classes are their own and inside of the directory for every
directory exactly if each name is a relative path that never leaves the place
that it starts in, and no two of them come down to the same names.

## Implementation notes

Places are those that the words of a path name. A class that is written changes
the file at its place and no other one.
-/

namespace JavaClass.Container

open JavaClass.Path

variable {className : String}

/-- The route of the file of a class, from where it starts. -/
def classRoute (className : String) : Route :=
  .ofComponents (components (fileName className))

/-- The file of the class is named by a relative path that never goes above where it starts. -/
def IsInner (className : String) : Prop :=
  isAbsolute className = false ∧ (classRoute className).climbs = 0

instance : DecidablePred IsInner :=
  fun className => inferInstanceAs (Decidable (isAbsolute className = false ∧ _))

/-- A place below a directory, and not the directory itself. -/
def Inside (directory place : List String) : Prop :=
  ∃ names, names ≠ [] ∧ place = directory ++ names

/-- Each class has a file of its own, and all of them are inside of the root. -/
structure OwnFilesInside (working : List String) (root : String) (classNames : List String) :
    Prop where
  inside : ∀ className ∈ classNames,
    Inside (place working root) (place working (classPath root className))
  own : classNames.Pairwise fun first second =>
    place working (classPath root first) ≠ place working (classPath root second)

theorem isAbsolute_fileName (className : String) :
    isAbsolute (fileName className) = isAbsolute className := by
  by_cases empty : className = ""
  · rw [empty]
    rfl
  · exact isAbsolute_append empty classSuffix

/-- The last component of the file of a class has the ending of class files. -/
theorem exists_last_component (className : String) :
    ∃ before last, components (fileName className) = before ++ [last ++ classSuffix] := by
  have free {last : String} (none : '/' ∉ last.toList) : '/' ∉ (last ++ classSuffix).toList := by
    rw [String.toList_append, List.mem_append, not_or]
    exact ⟨none, by decide⟩
  by_cases slash : '/' ∈ className.toList
  · obtain ⟨before, last, rfl, none⟩ := exists_last_slash slash
    refine ⟨components before, last, ?_⟩
    rw [fileName, String.append_assoc, components_slash, components_of_no_slash (free none)]
  · exact ⟨[], className, components_of_no_slash (free slash)⟩

theorem step_last (route : Route) (last : String) :
    route.step (last ++ classSuffix) =
      { route with names := route.names ++ [last ++ classSuffix] } := by
  have length : (last ++ classSuffix).length = last.length + 6 := String.length_append ..
  have differs {other : String} (short : other.length < 6) : last ++ classSuffix ≠ other := by
    rintro rfl
    omega
  have notHere : isHere (last ++ classSuffix) = false := by
    rw [isHere, beq_eq_false_iff_ne.mpr (differs (by decide)),
      beq_eq_false_iff_ne.mpr (differs (by decide))]
    rfl
  have notAbove : isAbove (last ++ classSuffix) = false :=
    beq_eq_false_iff_ne.mpr (differs (by decide))
  rw [Route.step, notHere, notAbove]
  rfl

/-- The file of a class is never a directory that its path goes through. -/
theorem names_classRoute_ne_nil (className : String) : (classRoute className).names ≠ [] := by
  obtain ⟨before, last, split⟩ := exists_last_component className
  rw [classRoute, Route.ofComponents, split, List.foldl_append, List.foldl_cons, List.foldl_nil,
    step_last]
  exact List.append_ne_nil_of_right_ne_nil _ (List.cons_ne_nil _ _)

theorem place_classPath_of_relative (relative : isAbsolute className = false)
    (working : List String) (root : String) :
    place working (classPath root className) =
      (classRoute className).lead (place working root) := by
  rw [classPath, place_join ((isAbsolute_fileName className).trans relative), placeFrom_eq_lead]
  rfl

theorem place_classPath_of_absolute (absolute : isAbsolute className = true)
    (working : List String) (root : String) :
    place working (classPath root className) = (classRoute className).names := by
  rw [classPath, place_join_absolute ((isAbsolute_fileName className).trans absolute),
    placeFrom_eq_lead, Route.lead_nil]
  rfl

/-- The place of an inner class is below the root by its names. -/
theorem IsInner.place_eq (inner : IsInner className) (working : List String) (root : String) :
    place working (classPath root className) =
      place working root ++ (classRoute className).names := by
  rw [place_classPath_of_relative inner.1, Route.lead, inner.2, Nat.sub_zero, List.take_length]

/-- A class is inside of every root exactly if it is inner. -/
theorem isInner_iff : IsInner className ↔ ∀ working root,
    Inside (place working root) (place working (classPath root className)) := by
  refine ⟨fun inner working root => ?_, fun inside => ?_⟩
  · exact ⟨_, names_classRoute_ne_nil className, inner.place_eq working root⟩
  -- The empty root is the working directory, and that may be any place.
  · cases absolute : isAbsolute className with
    | true =>
        obtain ⟨names, ne, place_eq⟩ := inside (classRoute className).names ""
        rw [place_classPath_of_absolute absolute, place_empty] at place_eq
        exact absurd (List.self_eq_append_right.mp place_eq) ne
    | false =>
        refine ⟨absolute, ?_⟩
        by_contra climbs
        have lead_eq : (classRoute className).lead [(classRoute className).names.headD "" ++ "a"] =
            (classRoute className).names := by
          rw [Route.lead, List.length_singleton, Nat.sub_eq_zero_of_le (by omega), List.take_zero,
            List.nil_append]
        obtain ⟨names, ne, place_eq⟩ := inside [(classRoute className).names.headD "" ++ "a"] ""
        rw [place_classPath_of_relative absolute, place_empty, lead_eq] at place_eq
        have head_eq := congrArg (fun place => (place.headD "").length) place_eq
        simp [String.length_append] at head_eq

/-- Inner classes share a file exactly if they come down to the same names. -/
theorem place_eq_iff {first second : String} (inner : IsInner first) (other : IsInner second)
    (working : List String) (root : String) :
    place working (classPath root first) = place working (classPath root second) ↔
      (classRoute first).names = (classRoute second).names := by
  rw [inner.place_eq, other.place_eq, List.append_cancel_left_eq]

/-- Classes have files of their own inside of every root exactly if they are inner and come down to
different names. -/
theorem ownFilesInside_iff (classNames : List String) :
    (∀ working root, OwnFilesInside working root classNames) ↔
      (∀ className ∈ classNames, IsInner className) ∧
        (classNames.map fun className => (classRoute className).names).Nodup := by
  rw [List.Nodup, List.pairwise_map]
  refine ⟨fun own => ?_, fun ⟨inner, distinct⟩ working root => ?_⟩
  · have inner : ∀ className ∈ classNames, IsInner className := fun className mem =>
      isInner_iff.mpr fun working root => (own working root).inside className mem
    refine ⟨inner, (own [] "").own.imp_of_mem fun mem other differ same => differ ?_⟩
    exact (place_eq_iff (inner _ mem) (inner _ other) [] "").mpr same
  · refine ⟨fun className mem => isInner_iff.mp (inner className mem) working root, ?_⟩
    exact distinct.imp_of_mem fun mem other differ same =>
      differ ((place_eq_iff (inner _ mem) (inner _ other) working root).mp same)

/-- The contents that the last of some classes has left at a place. -/
def lastWritten (working : List String) (root : String) (classes : List (String × Bytes))
    (other : List String) : Option Bytes :=
  (classes.findRev? fun (className, _) => place working (classPath root className) == other).map
    (·.2)

theorem lastWritten_cons (working : List String) (root : String) (c : String × Bytes)
    (classes : List (String × Bytes)) (other : List String) :
    lastWritten working root (c :: classes) other =
      (lastWritten working root classes other).or
        (if other = place working (classPath root c.1) then some c.2 else none) := by
  rw [lastWritten, lastWritten, List.findRev?]
  cases classes.findRev? fun (className, _) =>
    place working (classPath root className) == other with
  | some later => rfl
  | none =>
      simp only [Option.map_none, Option.none_or, beq_iff_eq, eq_comm (a := other)]
      split <;> rfl

/-- A class is written at its place, and no other file changes. -/
theorem writeClass_run (tree : FileTree) (root className : String) (bytes : Bytes) :
    let run := (writeClass root className bytes : StateM FileTree Bool) tree
    run.2.working = tree.working ∧ ∀ other, run.2.contentsAt other =
      if run.1 = true ∧ other = place tree.working (classPath root className) then some bytes
      else tree.contentsAt other := by
  have made := FileTree.makeDirectories_run tree (parent (classPath root className))
  unfold writeClass
  exact FileTree.write_after_run made (classPath root className) bytes

/-- The classes up to the first that is refused are written, each at its place. -/
theorem writeDirectory_run (tree : FileTree) (root : String) (classes : List (String × Bytes)) :
    let run := (writeDirectory root classes : StateM FileTree (Except Error Unit)) tree
    ∃ written, written <+: classes ∧ (run.1 = .ok () ↔ written = classes) ∧
      run.2.working = tree.working ∧ ∀ other, run.2.contentsAt other =
        (lastWritten tree.working root written other).or (tree.contentsAt other) := by
  induction classes generalizing tree with
  | nil => exact ⟨[], List.nil_prefix, iff_of_true rfl rfl, rfl, fun _ => rfl⟩
  | cons c rest ih =>
      obtain ⟨name, bytes⟩ := c
      have step := writeClass_run tree root name bytes
      rw [writeDirectory]
      simp only [FileTree.bind_run]
      generalize (writeClass root name bytes : StateM FileTree Bool) tree = first at *
      obtain ⟨wrote, after⟩ := first
      obtain ⟨working, contentsAt⟩ := step
      cases wrote with
      | false =>
          refine ⟨[], List.nil_prefix,
            iff_of_false (fun h => by cases h) (List.cons_ne_nil _ _).symm, working,
            fun other => ?_⟩
          rw [if_neg Bool.false_ne_true, FileTree.pure_run]
          exact (contentsAt other).trans (if_neg fun h => Bool.false_ne_true h.1)
      | true =>
          obtain ⟨written, isPrefix, all, working', contentsAt'⟩ := ih after
          refine ⟨(name, bytes) :: written, by simpa using isPrefix, by simpa using all,
            working'.trans working, fun other => ?_⟩
          simp only [true_and] at contentsAt
          rw [if_pos rfl, contentsAt', contentsAt, working, lastWritten_cons, Option.or_assoc]
          split <;> rfl

theorem lastWritten_eq_none {working : List String} {root : String}
    {classes : List (String × Bytes)} {other : List String}
    (apart : ∀ c ∈ classes, other ≠ place working (classPath root c.1)) :
    lastWritten working root classes other = none := by
  induction classes with
  | nil => rfl
  | cons first rest ih =>
      rw [lastWritten_cons, ih fun c mem => apart c (List.mem_cons_of_mem _ mem),
        if_neg (apart first List.mem_cons_self)]
      rfl

/-- If each class has a place of its own, the classes that were written are where they belong. -/
theorem lastWritten_of_mem {working : List String} {root : String}
    {classes : List (String × Bytes)}
    (own : (classes.map (·.1)).Pairwise fun first second =>
      place working (classPath root first) ≠ place working (classPath root second))
    {c : String × Bytes} (mem : c ∈ classes) :
    lastWritten working root classes (place working (classPath root c.1)) = some c.2 := by
  induction classes with
  | nil => cases mem
  | cons first rest ih =>
      rw [List.map_cons, List.pairwise_cons] at own
      rw [lastWritten_cons]
      obtain rfl | mem := List.mem_cons.mp mem
      · rw [lastWritten_eq_none fun other mem => own.1 _ (List.mem_map_of_mem mem), if_pos rfl]
        rfl
      · rw [ih own.2 mem]
        rfl

/-- Classes are written at the places of their names. These are inside of every root, and one for
each class, exactly if the names are inner and come down to different names. -/
theorem written_at_places (classes : List (String × Bytes)) :
    ((∀ working root, OwnFilesInside working root (classes.map (·.1))) ↔
      (∀ className ∈ classes.map (·.1), IsInner className) ∧
        ((classes.map (·.1)).map fun className => (classRoute className).names).Nodup) ∧
    ∀ (tree : FileTree) (root : String),
      let run := (writeDirectory root classes : StateM FileTree (Except Error Unit)) tree
      ∃ written, written <+: classes ∧ (run.1 = .ok () ↔ written = classes) ∧
        (∀ other, run.2.contentsAt other =
          (lastWritten tree.working root written other).or (tree.contentsAt other)) ∧
        (OwnFilesInside tree.working root (classes.map (·.1)) → ∀ c ∈ written,
          run.2.contentsAt (place tree.working (classPath root c.1)) = some c.2) := by
  refine ⟨ownFilesInside_iff _, fun tree root => ?_⟩
  obtain ⟨written, isPrefix, all, -, contentsAt⟩ := writeDirectory_run tree root classes
  refine ⟨written, isPrefix, all, contentsAt, fun own c mem => ?_⟩
  have ownWritten := own.own.sublist (isPrefix.sublist.map _)
  rw [contentsAt, lastWritten_of_mem ownWritten mem]
  rfl

theorem written_at_places_siblings :
    let classes : List (String × Bytes) := [("p/A", #[1]), ("p/B", #[2])]
    let run := (writeDirectory "out" classes : StateM FileTree (Except Error Unit)) (.empty [])
    OwnFilesInside [] "out" (classes.map (·.1)) ∧ run.1 = .ok () ∧
      ∀ c ∈ classes, run.2.contentsAt (place [] (classPath "out" c.1)) = some c.2 := by
  intro classes run
  obtain ⟨own_iff, writes⟩ := written_at_places classes
  have own := own_iff.mpr (by decide +kernel) [] "out"
  have ends : run.1 = .ok () := by decide +kernel
  obtain ⟨written, -, all, -, each⟩ := writes (.empty []) "out"
  obtain rfl := all.mp ends
  exact ⟨own, ends, each own⟩

/-- A class whose name goes up from where it starts. -/
def climbingFile : Bytes :=
  #[0xCA, 0xFE, 0xBA, 0xBE, 0, 0, 0, 65, 0, 4, 1, 0, 4, 46, 46, 47, 120, 7, 0, 1, 1, 0, 10, 83, 111,
    117, 114, 99, 101, 70, 105, 108, 101, 0, 32, 0, 2, 0, 0, 0, 0, 0, 0, 0, 0, 0, 0]

/-- Classes of different names may have files outside of the root, and may share a file. -/
theorem not_forall_ownFilesInside :
    (ClassDef.decode climbingFile).map (·.name) = .ok "../x" ∧
      ((writeDirectory "out" [("../x", climbingFile)] : StateM FileTree (Except Error Unit))
        (.empty [])).2.contentsAt ["x.class"] = some climbingFile ∧
      ¬ (∀ working root, ∀ classNames : List String, classNames.Nodup →
        ∀ className ∈ classNames,
          Inside (place working root) (place working (classPath root className))) ∧
      ¬ (∀ working root, ∀ classNames : List String, classNames.Nodup →
        classNames.Pairwise fun first second =>
          place working (classPath root first) ≠ place working (classPath root second)) := by
  refine ⟨by decide +kernel, by decide +kernel, fun inside => ?_, fun own => ?_⟩
  · have file_eq : place [] (classPath "out" "../x") = ["x.class"] := by decide +kernel
    have root_eq : place [] "out" = ["out"] := by decide +kernel
    obtain ⟨names, -, place_eq⟩ := inside [] "out" ["../x"] (by decide) "../x" (by decide)
    rw [file_eq, root_eq, List.cons_append] at place_eq
    exact absurd (List.cons.inj place_eq).1 (by decide)
  · have shared := own [] "out" ["a", "./a"] (by decide)
    revert shared
    decide +kernel

end JavaClass.Container
