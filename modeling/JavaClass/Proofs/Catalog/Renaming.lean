import Mathlib.Data.List.Perm.Subperm
import JavaClass.Proofs.Catalog.Ordered

/-!
# Catalogs of renamed classes

The callers of a catalog may change its classes as they like, also their names.
The index keeps the names by which the classes were added. Only a removal looks
at the names that the classes bear: it counts down the positions of the names
that it meets behind the class that it takes out. A run in which the classes
there bear, in any order, the names of their positions gives the answers of the
ordered map, and no position leaves the catalog.

## Implementation notes

A class that was added is changed through the name by which it was added, so
requests to modify that name also stand for the changes that follow an addition
at once.
-/

namespace JavaClass.Catalog

/-- At a removal, the classes behind the removed one have different names, and the index knows each
of these names by a position there. -/
def Request.CountsDown (catalog : Catalog) : Request → Prop
  | .remove name => ∀ i, catalog.positions[name]? = some i →
      (catalog.names.drop (i + 1)).Nodup ∧
        ∀ other ∈ catalog.names.drop (i + 1), ∃ j, i < j ∧ catalog.positions[other]? = some j
  | _ => True

/-- Every removal of a run meets the names that it has to count down. -/
def CountDown (catalog : Catalog) : List Request → Prop
  | [] => True
  | request :: later => request.CountsDown catalog ∧ CountDown (request.act catalog).2 later

/-- A name that does not move keeps its position. -/
theorem getElem?_foldl_advance_of_notMem {names : List String} {name : String}
    (fixed : name ∉ names) (positions : Std.TreeMap String Nat) :
    (names.foldl advance positions)[name]? = positions[name]? := by
  induction names generalizing positions with
  | nil => rfl
  | cons moved later ih =>
      obtain ⟨differs, fixed⟩ := List.ne_and_not_mem_of_not_mem_cons fixed
      rw [List.foldl_cons, ih fixed, getElem?_advance, if_neg differs]

namespace Tracks

variable {catalog : Catalog} {map : OrderedMap ClassDef} {name : String}

theorem length_names (tracks : Tracks catalog map) : catalog.names.length = map.keys.length := by
  rw [← tracks.size_eq, names, List.length_map, toList, Array.length_toList, size]

theorem length_behind (tracks : Tracks catalog map) (i : Nat) :
    (catalog.names.drop i).length = (map.keys.drop i).length := by
  rw [List.length_drop, List.length_drop, tracks.length_names]

/-- The names behind a removed class are those that the index has there: there are as many. -/
theorem perm_behind (tracks : Tracks catalog map)
    (counts : (Request.remove name).CountsDown catalog) {i : Nat}
    (known : catalog.positions[name]? = some i) :
    (catalog.names.drop (i + 1)).Perm (map.keys.drop (i + 1)) := by
  obtain ⟨distinct, met⟩ := counts i known
  have subset : catalog.names.drop (i + 1) ⊆ map.keys.drop (i + 1) := by
    intro other mem
    obtain ⟨j, behind, known⟩ := met other mem
    apply List.mem_iff_getElem?.mpr
    refine ⟨j - (i + 1), ?_⟩
    rw [List.getElem?_drop, Nat.add_sub_cancel' behind]
    exact (tracks.positions other j).mp known
  -- Different names that all stand behind, and as many as stand there.
  exact (distinct.subperm subset).perm_of_length_le (Nat.le_of_eq (tracks.length_behind _).symm)

/-- One request with any change: the catalog tracks the ordered map afterwards. -/
theorem act (tracks : Tracks catalog map) (request : Request)
    (counts : request.CountsDown catalog) :
    Tracks (request.act catalog).2 (request.expect map).2 := by
  cases request with
  | add c => exact tracks.add c
  | addBytes bytes =>
      rw [Request.act, Request.expect, Catalog.addBytes]
      cases ClassDef.decode bytes with
      | error error => exact tracks
      | ok c => exact tracks.add c
  | remove name => exact tracks.remove fun i known => tracks.perm_behind counts known
  | find name => exact tracks
  | list => exact tracks
  | modify name f => exact tracks.modify name f
  | modifyEach f => exact tracks.modifyEach f

/-- A run of requests with any changes. -/
theorem run (tracks : Tracks catalog map) (requests : List Request)
    (count : CountDown catalog requests) :
    (catalog.run requests).1 = (expectAll map requests).1 ∧
      Tracks (catalog.run requests).2 (expectAll map requests).2 := by
  induction requests generalizing catalog map with
  | nil => exact ⟨rfl, tracks⟩
  | cons request later ih =>
      obtain ⟨answers_eq, final⟩ := ih (tracks.act request count.1) count.2
      constructor
      · simp only [Catalog.run, expectAll, request.answer_eq tracks, answers_eq]
      · exact final

/-- A key behind a removed one has moved only if a class there bears it. -/
theorem mem_names_of_remove {i j : Nat} {key : String} (tracks : Tracks catalog map)
    (after : Tracks (catalog.remove name).2 (map.erase name))
    (known : catalog.positions[name]? = some i) (behind : i < j)
    (stands : map.keys[j]? = some key) : key ∈ catalog.names.drop (i + 1) := by
  by_contra fixed
  have removed := (tracks.positions name i).mp known
  have differs : name ≠ key := by
    rintro rfl
    exact Nat.ne_of_lt behind (map.position_unique removed stands)
  have stayed : (catalog.remove name).2.positions[key]? = some j := by
    rw [remove_snd known, getElem?_foldl_advance_of_notMem fixed, Std.TreeMap.getElem?_erase,
      if_neg (mt Std.compare_eq_iff_eq.mp differs)]
    exact (tracks.positions key j).mpr stands
  have moved : (map.erase name).keys[j - 1]? = some key := by
    rw [OrderedMap.keys_erase removed, List.getElem?_eraseIdx, if_neg (by omega),
      Nat.sub_add_cancel (by omega), stands]
  rw [(after.positions key (j - 1)).mpr moved, Option.some_inj] at stayed
  omega

/-- A request after which the catalog still tracks the ordered map has counted down. -/
theorem countsDown (tracks : Tracks catalog map) (request : Request)
    (after : Tracks (request.act catalog).2 (request.expect map).2) :
    request.CountsDown catalog := by
  cases request with
  | remove name =>
      intro i known
      have subset : map.keys.drop (i + 1) ⊆ catalog.names.drop (i + 1) := by
        intro key mem
        obtain ⟨r, stands⟩ := List.mem_iff_getElem?.mp mem
        rw [List.getElem?_drop] at stands
        exact tracks.mem_names_of_remove after known (by omega) stands
      have distinct : (map.keys.drop (i + 1)).Nodup := map.distinct.sublist (List.drop_sublist _ _)
      have perm : (map.keys.drop (i + 1)).Perm (catalog.names.drop (i + 1)) :=
        (distinct.subperm subset).perm_of_length_le (Nat.le_of_eq (tracks.length_behind _))
      refine ⟨perm.nodup_iff.mp distinct, fun other mem => ?_⟩
      obtain ⟨r, stands⟩ := List.mem_iff_getElem?.mp (perm.mem_iff.mpr mem)
      rw [List.getElem?_drop] at stands
      exact ⟨i + 1 + r, by omega, (tracks.positions other _).mpr stands⟩
  | _ => trivial

/-- So no weaker condition on a run keeps the index right all along. -/
theorem countDown_iff (tracks : Tracks catalog map) (requests : List Request) :
    CountDown catalog requests ↔ ∀ earlier, earlier <+: requests →
      Tracks (catalog.run earlier).2 (expectAll map earlier).2 := by
  induction requests generalizing catalog map with
  | nil =>
      constructor
      · intro _ earlier ahead
        rw [List.prefix_nil.mp ahead]
        exact tracks
      · exact fun _ => trivial
  | cons request later ih =>
      constructor
      · rintro ⟨counts, count⟩ earlier ahead
        cases earlier with
        | nil => exact tracks
        | cons first rest =>
            obtain ⟨rfl, inside⟩ := List.cons_prefix_cons.mp ahead
            exact (ih (tracks.act first counts)).mp count rest inside
      · intro always
        have counts := tracks.countsDown request (always [request] (List.prefix_append _ _))
        refine ⟨counts, (ih (tracks.act request counts)).mpr fun earlier ahead => ?_⟩
        exact always (request :: earlier) (List.cons_prefix_cons.mpr ⟨rfl, ahead⟩)

/-- What is found by a name bears it, as long as all classes bear the names that they are kept
under, and no longer. -/
theorem find?_named_iff (tracks : Tracks catalog map) :
    (∀ (name : String) (c : ClassDef), catalog.find? name = some c → c.name = name) ↔
      catalog.names = map.keys := by
  constructor
  · intro named
    apply List.ext_getElem tracks.length_names
    intro i inside stands
    have found : catalog.find? map.keys[i] = catalog.toList[i]? := by
      rw [tracks.find?_eq, OrderedMap.lookup_eq (List.getElem?_eq_getElem stands),
        tracks.toList_eq]
    rw [names, List.length_map] at inside
    rw [List.getElem?_eq_getElem inside] at found
    rw [← named map.keys[i] _ found]
    exact List.getElem_map _
  · intro names_eq name c found
    obtain ⟨i, known, at_i⟩ := Option.bind_eq_some_iff.mp found
    have stands : catalog.names[i]? = some name := by
      rw [names_eq]
      exact (tracks.positions name i).mp known
    rw [names, List.getElem?_map, toList, Array.getElem?_toList, at_i] at stands
    exact Option.some.inj stands

end Tracks

/-- Callers may change all of a class. As long as every removal meets the names that it has to count
down, a run of requests gives the answers of the ordered map from the names by which classes were
added, the index knows exactly these names, and each by a position within the catalog. What is found
by a name bears it exactly when all classes still bear the names that they were added by. -/
theorem run_tracks_ordered_map (requests : List Request) (count : CountDown empty requests) :
    (empty.run requests).1 = (expectAll .empty requests).1 ∧
      Tracks (empty.run requests).2 (expectAll .empty requests).2 ∧
      (∀ (name : String) (i : Nat), (empty.run requests).2.positions[name]? = some i →
        i < (empty.run requests).2.size) ∧
      ((∀ (name : String) (c : ClassDef),
          (empty.run requests).2.find? name = some c → c.name = name) ↔
        (empty.run requests).2.names = (expectAll .empty requests).2.keys) := by
  obtain ⟨answers_eq, tracks⟩ := tracks_empty.run requests count
  exact ⟨answers_eq, tracks, fun _ _ => tracks.position_lt, tracks.find?_named_iff⟩

/-- Gives a class another name. -/
def rename (old new : String) : Request :=
  .modify old fun c => { c with name := new }

/-- Two classes that exchange their names, behind one that is taken out. -/
def exchange : List Request :=
  [.add (.new "a" none), .add (.new "b" none), .add (.new "c" none), rename "b" "c",
    rename "c" "b", .remove "a", .find "b"]

theorem run_tracks_ordered_map_exchange :
    CountDown empty exchange ∧
      (expectAll .empty exchange).2.keys = ["b", "c"] ∧
      (empty.run exchange).2.names = ["c", "b"] ∧
      (empty.run exchange).1 = (expectAll .empty exchange).1 ∧
      Tracks (empty.run exchange).2 (expectAll .empty exchange).2 := by
  have counts : (Request.remove "a").CountsDown (empty.run (exchange.take 5)).2 := by
    have names_behind : (empty.run (exchange.take 5)).2.names.drop 1 = ["c", "b"] := by
      decide +kernel
    intro i known
    obtain rfl : 0 = i := Option.some.inj (.trans (by decide +kernel) known)
    rw [names_behind]
    refine ⟨by decide, fun other mem => ?_⟩
    obtain rfl | rfl : other = "c" ∨ other = "b" := by simpa using mem
    · exact ⟨2, by decide, by decide +kernel⟩
    · exact ⟨1, by decide, by decide +kernel⟩
  have count : CountDown empty exchange :=
    ⟨trivial, trivial, trivial, trivial, trivial, counts, trivial, trivial⟩
  have tracked := run_tracks_ordered_map exchange count
  exact ⟨count, by decide +kernel, by decide +kernel, tracked.1, tracked.2.1⟩

/-- A class behind the removed one bears a new name, so its position stays where it was. -/
def strays : List Request :=
  [.add (.new "a" none), .add (.new "b" none), .add (.new "c" none), rename "c" "x", .remove "a"]

/-- The position of the renamed class becomes that of the class behind it. -/
def mistakes : List Request :=
  [.add (.new "a" none), .add (.new "b" none), .add (.new "c" none), rename "b" "bb", .remove "a"]

/-- Not every run keeps the positions within the catalog, and a class that nobody renamed can be
found by the name of another. -/
theorem exists_run_astray :
    (empty.run strays).2.size = 2 ∧ (empty.run strays).2.positions["c"]? = some 2 ∧
      ((empty.run mistakes).2.find? "b").map (·.name) = some "c" ∧
      ¬ ∀ requests : List Request,
        (∀ (name : String) (i : Nat), (empty.run requests).2.positions[name]? = some i →
          i < (empty.run requests).2.size) ∧
        ∀ (name : String) (c : ClassDef),
          (empty.run requests).2.find? name = some c → c.name = name := by
  have size_eq : (empty.run strays).2.size = 2 := by decide +kernel
  have stray : (empty.run strays).2.positions["c"]? = some 2 := by decide +kernel
  have mistaken : ((empty.run mistakes).2.find? "b").map (·.name) = some "c" := by decide +kernel
  refine ⟨size_eq, stray, mistaken, ?_⟩
  intro holds
  have inside := (holds strays).1 "c" 2 stray
  rw [size_eq] at inside
  exact Nat.lt_irrefl 2 inside

end JavaClass.Catalog
