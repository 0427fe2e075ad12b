import JavaClass.Files.Tree
import JavaClass.Proofs.Files.Places

/-!
# Changes of file trees

What an operation does to the files of a tree, by their places. Directories are
made without touching a file. A file is written at the place that the words of
its path name, and is found there again.
-/

namespace JavaClass

/-- The contents of a file. -/
def FileNode.contents? : FileNode → Option Bytes
  | file contents => some contents
  | directory => none

namespace FileTree

variable {tree after : FileTree} {place found : List String} {components rest : List String}
  {path : String} {contents : Bytes}

/-- The contents of the file at a place. -/
def contentsAt (tree : FileTree) (place : List String) : Option Bytes :=
  (tree.node? place).bind FileNode.contents?

theorem node?_insert (tree : FileTree) (place other : List String) (node : FileNode) :
    ({ tree with nodes := tree.nodes.insert place node } : FileTree).node? other =
      if other = place then some node else tree.node? other := by
  unfold node?
  rw [Std.TreeMap.getElem?_insert]
  simp only [Std.compare_eq_iff_eq, eq_comm (a := other)]

theorem contentsAt_insert (tree : FileTree) (place other : List String) (node : FileNode) :
    ({ tree with nodes := tree.nodes.insert place node } : FileTree).contentsAt other =
      if other = place then node.contents? else tree.contentsAt other := by
  rw [contentsAt, node?_insert]
  split <;> rfl

/-- One component is followed out of a directory. -/
theorem follow_cons (tree : FileTree) (place : List String) (component : String)
    (rest : List String) :
    tree.follow place (component :: rest) =
      if tree.isDirectoryAt place then tree.follow (Path.step place component) rest else none := by
  rw [follow, Path.step]
  cases tree.isDirectoryAt place with
  | false => rfl
  | true =>
      simp only [Bool.not_true, Bool.false_eq_true, if_false, if_true]
      split
      · rfl
      · split <;> rfl

/-- Components that can be followed lead where their words say. -/
theorem follow_eq_some (h : tree.follow place components = some found) :
    found = Path.placeFrom place components := by
  induction components generalizing place with
  | nil =>
      rw [follow] at h
      split at h
      · exact (Option.some.inj h).symm
      · cases h
  | cons component rest ih =>
      rw [follow_cons] at h
      split at h
      · exact ih h
      · cases h

/-- Components are followed in the same way as long as all directories stay. -/
theorem follow_append (h : tree.follow place components = some found)
    (keeps : ∀ place, tree.isDirectoryAt place = true → after.isDirectoryAt place = true)
    (rest : List String) :
    after.follow place (components ++ rest) = after.follow found rest := by
  induction components generalizing place with
  | nil =>
      rw [follow] at h
      split at h
      · rw [Option.some.inj h, List.nil_append]
      · cases h
  | cons component others ih =>
      rw [follow_cons] at h
      split at h
      · rename_i directory
        rw [List.cons_append, follow_cons, if_pos (keeps place directory)]
        exact ih h
      · cases h

/-- Both trees have the same files, and relative paths start at the same place. -/
structure SameFiles (tree after : FileTree) : Prop where
  working : after.working = tree.working
  contentsAt : ∀ place, after.contentsAt place = tree.contentsAt place

theorem SameFiles.refl (tree : FileTree) : SameFiles tree tree := ⟨rfl, fun _ => rfl⟩

theorem SameFiles.trans {last : FileTree} (first : SameFiles tree after)
    (second : SameFiles after last) : SameFiles tree last :=
  ⟨second.working.trans first.working,
    fun place => (second.contentsAt place).trans (first.contentsAt place)⟩

theorem sameFiles_insert_directory (absent : tree.node? place = none) :
    SameFiles tree { tree with nodes := tree.nodes.insert place .directory } where
  working := rfl
  contentsAt other := by
    rw [contentsAt_insert]
    split
    · rename_i same
      rw [contentsAt, same, absent]
      rfl
    · rfl

/-- Making directories leaves all files. -/
theorem makeFrom_sameFiles (tree : FileTree) (place components : List String) :
    SameFiles tree (tree.makeFrom place components).2 := by
  induction components generalizing tree place with
  | nil => exact .refl tree
  | cons component rest ih =>
      rw [makeFrom]
      by_cases here : Path.isHere component = true
      · rw [if_pos here]
        exact ih tree place
      · rw [if_neg here]
        by_cases above : Path.isAbove component = true
        · rw [if_pos above]
          exact ih tree place.dropLast
        · rw [if_neg above]
          cases absent : tree.node? (place ++ [component]) with
          | some node =>
              cases node with
              | directory =>
                  simp only [absent]
                  exact ih tree _
              | file contents =>
                  simp only [absent]
                  exact .refl tree
          | none =>
              simp only [absent]
              split
              · exact (sameFiles_insert_directory absent).trans (ih _ _)
              · exact .refl tree

theorem makeDirectories_sameFiles (tree : FileTree) (path : String) :
    SameFiles tree (tree.makeDirectories path).2 := by
  unfold makeDirectories
  split
  · exact .refl tree
  · split
    · exact .refl tree
    · split
      · have same :=
          makeFrom_sameFiles tree (tree.base path) (Path.components (Path.parent path))
        generalize tree.makeFrom (tree.base path) (Path.components (Path.parent path)) = made at *
        exact same
      · exact makeFrom_sameFiles tree _ _

/-- What a path has to be for a file to be written there: below a directory that is there, and not
in the place of another one. -/
structure Writes (tree : FileTree) (path : String) (before : List String) (name : String)
    (directory : List String) : Prop where
  usable : Path.isUsable path = true
  components : Path.components path = before ++ [name]
  notHere : Path.isHere name = false
  notAbove : Path.isAbove name = false
  short : name.utf8ByteSize ≤ Path.componentLimit
  follow : tree.follow (tree.base path) before = some directory
  isDirectory : tree.isDirectoryAt directory = true
  free : tree.isDirectoryAt (directory ++ [name]) = false

theorem write_eq_some_iff :
    tree.write path contents = some after ↔
      ∃ before name directory, tree.Writes path before name directory ∧
        after =
          { tree with nodes := tree.nodes.insert (directory ++ [name]) (.file contents) } := by
  constructor
  · intro h
    unfold write at h
    cases last : (Path.components path).getLast? with
    | none =>
        simp only [last] at h
        cases h
    | some name =>
        obtain ⟨before, split⟩ := List.getLast?_eq_some_iff.mp last
        simp only [last] at h
        split at h
        · cases h
        · rename_i fits
          simp only [Bool.or_eq_true, not_or, Bool.not_eq_true, Bool.not_eq_false',
            decide_eq_true_eq, Nat.not_lt] at fits
          cases follows : tree.follow (tree.base path) (Path.components path).dropLast with
          | none =>
              simp only [follows] at h
              cases h
          | some directory =>
              simp only [follows] at h
              split at h
              · cases h
              · rename_i free
                simp only [Bool.or_eq_true, not_or, Bool.not_eq_true, Bool.not_eq_false'] at free
                rw [split, List.dropLast_concat] at follows
                exact ⟨before, name, directory, ⟨fits.1.1.1, split, fits.1.1.2, fits.1.2, fits.2,
                  follows, free.1, free.2⟩, (Option.some.inj h).symm⟩
  · rintro ⟨before, name, directory, writes, rfl⟩
    unfold write
    simp only [writes.components, List.getLast?_concat, List.dropLast_concat, writes.usable,
      writes.notHere, writes.notAbove, Nat.not_lt.mpr writes.short, writes.follow,
      writes.isDirectory, writes.free, Bool.not_true, Bool.or_false, decide_false,
      Bool.false_eq_true, if_false]

/-- A file is written where the words of its path say, and no other file changes. -/
theorem contentsAt_write (h : tree.write path contents = some after) :
    after.working = tree.working ∧ ∀ place, after.contentsAt place =
      if place = Path.place tree.working path then some contents else tree.contentsAt place := by
  obtain ⟨before, name, directory, writes, rfl⟩ := write_eq_some_iff.mp h
  have place_eq : Path.place tree.working path = directory ++ [name] := by
    rw [Path.place, writes.components, Path.placeFrom_append, follow_eq_some writes.follow]
    exact Path.step_of_name writes.notHere writes.notAbove _
  refine ⟨rfl, fun place => ?_⟩
  rw [contentsAt_insert, place_eq]
  rfl

/-- A file that was written is found by the path that it was written by. -/
theorem read?_write (h : tree.write path contents = some after) :
    after.isThere path = true ∧ after.read? path = some contents := by
  obtain ⟨before, name, directory, writes, rfl⟩ := write_eq_some_iff.mp h
  have keeps : ∀ place, tree.isDirectoryAt place = true → FileTree.isDirectoryAt
      { tree with nodes := tree.nodes.insert (directory ++ [name]) (.file contents) } place =
        true := by
    intro place there
    have differs : place ≠ directory ++ [name] := by
      rintro rfl
      exact Bool.false_ne_true (writes.free.symm.trans there)
    rw [isDirectoryAt, node?_insert, if_neg differs]
    exact there
  have resolves : resolve { tree with
      nodes := tree.nodes.insert (directory ++ [name]) (.file contents) } path =
        some (directory ++ [name]) := by
    rw [resolve, if_pos writes.usable, writes.components]
    refine (follow_append writes.follow keeps [name]).trans ?_
    rw [follow_cons, if_pos (keeps directory writes.isDirectory),
      Path.step_of_name writes.notHere writes.notAbove, follow, node?_insert, if_pos rfl]
    rfl
  constructor
  · rw [isThere, resolves]
    rfl
  · rw [read?, resolves, Option.bind_some, node?_insert, if_pos rfl]

section Steps

variable {α β : Type}

theorem bind_run (first : StateM FileTree α) (next : α → StateM FileTree β) (tree : FileTree) :
    (first >>= next) tree = next (first tree).1 (first tree).2 := rfl

theorem pure_run (a : α) (tree : FileTree) : (pure a : StateM FileTree α) tree = (a, tree) := rfl

theorem makeDirectories_run (tree : FileTree) (path : String) :
    SameFiles tree ((FileSystem.makeDirectories path : StateM FileTree Bool) tree).2 :=
  makeDirectories_sameFiles tree path

theorem write_run (tree : FileTree) (path : String) (contents : Bytes) :
    (FileSystem.write path contents : StateM FileTree Bool) tree =
      match tree.write path contents with
      | some after => (true, after)
      | none => (false, tree) := rfl

/-- A file that is written after a step that leaves all files. -/
theorem write_after_run {step : StateM FileTree Bool} (keeps : SameFiles tree (step tree).2)
    (path : String) (contents : Bytes) :
    let run := (do if ← step then FileSystem.write path contents else return false :
      StateM FileTree Bool) tree
    run.2.working = tree.working ∧ ∀ other, run.2.contentsAt other =
      if run.1 = true ∧ other = Path.place tree.working path then some contents
      else tree.contentsAt other := by
  obtain ⟨⟨made, after⟩, first⟩ : ∃ result, step tree = result := ⟨_, rfl⟩
  rw [first] at keeps
  simp only [bind_run, first]
  cases made with
  | true =>
      simp only [if_true, write_run]
      cases written : after.write path contents with
      | none =>
          simp only [Bool.false_eq_true, false_and, if_false]
          exact ⟨keeps.working, keeps.contentsAt⟩
      | some last =>
          obtain ⟨working, contentsAt⟩ := contentsAt_write written
          refine ⟨working.trans keeps.working, fun other => ?_⟩
          simp only [true_and]
          rw [contentsAt, keeps.working, keeps.contentsAt]
  | false =>
      simp only [Bool.false_eq_true, if_false, pure_run, false_and]
      exact ⟨keeps.working, keeps.contentsAt⟩

theorem isThere_run (tree : FileTree) (path : String) :
    (FileSystem.isThere path : StateM FileTree Bool) tree = (tree.isThere path, tree) := rfl

theorem read_run (tree : FileTree) (path : String) :
    (FileSystem.read path : StateM FileTree (Option Bytes)) tree = (tree.read? path, tree) := rfl

end Steps

end FileTree

end JavaClass
