import Mathlib.Data.List.InsertIdx
import Mathlib.Data.List.Nodup
import JavaClass.Catalog.Basic

/-!
# Catalogs as ordered maps

An ordered map keeps its keys in the order in which they were first put, each
with one value. As long as callers keep the names of the classes that a catalog
holds, every run of requests gives the answers of the ordered map from names to
classes, and the catalog shows the classes of that map in its order.

## Implementation notes

The ordered map never looks at the name of a class that it holds. A catalog
does, both to count positions down after a removal and to show its names, so the
two are related through the names of the classes as they stand
(`Catalog.Refines`).
-/

namespace JavaClass

/-- Keys in the order in which they were first put, each with its value. -/
@[ext]
structure OrderedMap (α : Type) where
  entries : List (String × α)
  distinct : (entries.map Prod.fst).Nodup

namespace OrderedMap

variable {α : Type}

/-- No keys. -/
def empty : OrderedMap α := ⟨[], List.nodup_nil⟩

def keys (map : OrderedMap α) : List String := map.entries.map Prod.fst

def values (map : OrderedMap α) : List α := map.entries.map Prod.snd

/-- The value of a key. -/
def lookup (map : OrderedMap α) (key : String) : Option α :=
  (map.entries.find? (·.1 = key)).map Prod.snd

/-- Changes the values, each by its position and key. -/
def update (map : OrderedMap α) (f : Nat → String → α → α) : OrderedMap α where
  entries := map.entries.mapIdx fun i entry => (entry.1, f i entry.1 entry.2)
  distinct := by
    have keys_kept : (map.entries.mapIdx fun i entry => (entry.1, f i entry.1 entry.2)).map
        Prod.fst = map.entries.map Prod.fst := by
      apply List.ext_getElem? fun i => ?_
      simp [Option.map_map, Function.comp_def]
    rw [keys_kept]
    exact map.distinct

/-- Changes the value of a key. -/
def modify (map : OrderedMap α) (key : String) (f : α → α) : OrderedMap α :=
  map.update fun _ other a => if other = key then f a else a

/-- Gives a key its value, where the key stands or behind all others. -/
def put (map : OrderedMap α) (key : String) (a : α) : OrderedMap α :=
  if fresh : key ∉ map.keys then
    { entries := map.entries ++ [(key, a)]
      distinct := by
        rw [List.map_append]
        exact List.Nodup.append map.distinct (List.nodup_singleton key)
          (List.disjoint_singleton.mpr fresh) }
  else map.modify key fun _ => a

/-- Takes out a key. The others keep their order. -/
def erase (map : OrderedMap α) (key : String) : OrderedMap α where
  entries := map.entries.filter (·.1 ≠ key)
  distinct := by
    apply List.Nodup.sublist _ map.distinct
    exact List.filter_sublist.map Prod.fst

section Positions

variable {map : OrderedMap α} {key : String} {i : Nat}

theorem getElem?_keys (map : OrderedMap α) (i : Nat) :
    map.keys[i]? = map.entries[i]?.map Prod.fst :=
  List.getElem?_map

@[simp]
theorem keys_update (map : OrderedMap α) (f : Nat → String → α → α) :
    (map.update f).keys = map.keys := by
  apply List.ext_getElem? fun i => ?_
  simp [getElem?_keys, update, Option.map_map, Function.comp_def]

@[simp]
theorem keys_modify (map : OrderedMap α) (key : String) (f : α → α) :
    (map.modify key f).keys = map.keys :=
  map.keys_update _

/-- A key stands at one position only. -/
theorem position_unique (map : OrderedMap α) {i j : Nat} (hi : map.keys[i]? = some key)
    (hj : map.keys[j]? = some key) : i = j := by
  obtain ⟨hlt, -⟩ := List.getElem?_eq_some_iff.mp hi
  apply (List.getElem?_inj hlt map.distinct).mp
  exact hi.trans hj.symm

/-- Changing the value of a key changes the entry where it stands. -/
theorem entries_modify (stands : map.keys[i]? = some key) (f : α → α) :
    (map.modify key f).entries = map.entries.modify i fun entry => (entry.1, f entry.2) := by
  apply List.ext_getElem? fun j => ?_
  rw [modify, update, List.getElem?_mapIdx, List.getElem?_modify]
  cases found : map.entries[j]? with
  | none => simp
  | some entry =>
      have stands_at : map.keys[j]? = some entry.1 := by rw [getElem?_keys, found, Option.map_some]
      have same_iff : entry.1 = key ↔ i = j := by
        constructor
        · intro same
          exact map.position_unique stands (same ▸ stands_at)
        · intro same
          exact Option.some.inj (stands_at.symm.trans (same ▸ stands))
      by_cases same : i = j
      · simp [same, same_iff.mpr same]
      · simp [same, mt same_iff.mp same]

theorem values_modify (stands : map.keys[i]? = some key) (f : α → α) :
    (map.modify key f).values = map.values.modify i f := by
  apply List.ext_getElem? fun j => ?_
  rw [values, entries_modify stands, values, List.getElem?_map, List.getElem?_modify,
    List.getElem?_modify, List.getElem?_map]
  by_cases same : i = j <;> simp [same, Function.comp_def]

theorem modify_of_notMem (absent : key ∉ map.keys) (f : α → α) : map.modify key f = map := by
  apply OrderedMap.ext
  apply List.ext_getElem? fun j => ?_
  rw [modify, update, List.getElem?_mapIdx]
  cases found : map.entries[j]? with
  | none => rfl
  | some entry =>
      have differs : entry.1 ≠ key := fun same =>
        absent (List.mem_map.mpr ⟨entry, List.mem_of_getElem? found, same⟩)
      simp [differs]

theorem keys_put (map : OrderedMap α) (key : String) (a : α) :
    (map.put key a).keys = if key ∈ map.keys then map.keys else map.keys ++ [key] := by
  by_cases present : key ∈ map.keys
  · rw [put, dif_neg (not_not.mpr present), if_pos present, keys_modify]
  · rw [put, dif_pos present, if_neg present]
    simp [keys]

/-- The entry of a key cuts the entries in two lists without that key. -/
theorem exists_cut (stands : map.keys[i]? = some key) :
    ∃ front a back, map.entries = front ++ (key, a) :: back ∧ front.length = i ∧
      (∀ entry ∈ front, entry.1 ≠ key) ∧ ∀ entry ∈ back, entry.1 ≠ key := by
  rw [getElem?_keys, Option.map_eq_some_iff] at stands
  obtain ⟨⟨other, a⟩, found, rfl⟩ := stands
  obtain ⟨hlt, found⟩ := List.getElem?_eq_some_iff.mp found
  have cut : map.entries = map.entries.take i ++ (other, a) :: map.entries.drop (i + 1) := by
    rw [← found, List.getElem_cons_drop, List.take_append_drop]
  have distinct := map.distinct
  rw [cut, List.map_append, List.map_cons, List.nodup_middle, List.nodup_cons,
    ← List.map_append] at distinct
  have differs : ∀ entry ∈ map.entries.take i ++ map.entries.drop (i + 1), entry.1 ≠ other :=
    fun entry mem same => distinct.1 (List.mem_map.mpr ⟨entry, mem, same⟩)
  refine ⟨_, a, _, cut, List.length_take_of_le (Nat.le_of_lt hlt), ?_, ?_⟩ <;> intro entry mem
  · exact differs entry (List.mem_append_left _ mem)
  · exact differs entry (List.mem_append_right _ mem)

/-- Taking out a key takes out the entry where it stands. -/
theorem entries_erase (stands : map.keys[i]? = some key) :
    (map.erase key).entries = map.entries.eraseIdx i := by
  obtain ⟨front, a, back, cut, rfl, notFront, notBack⟩ := exists_cut stands
  have front_kept : front.filter (·.1 ≠ key) = front := by simpa using notFront
  have back_kept : back.filter (·.1 ≠ key) = back := by simpa using notBack
  calc (map.erase key).entries
    _ = front.filter (·.1 ≠ key) ++ back.filter (·.1 ≠ key) := by simp [erase, cut]
    _ = front ++ back := by rw [front_kept, back_kept]
    _ = map.entries.eraseIdx front.length := by
      rw [cut, List.eraseIdx_append_of_length_le front.length.le_refl, Nat.sub_self,
        List.eraseIdx_cons_zero]

theorem keys_erase (stands : map.keys[i]? = some key) :
    (map.erase key).keys = map.keys.eraseIdx i := by
  rw [keys, entries_erase stands, ← List.eraseIdx_map, keys]

theorem values_erase (stands : map.keys[i]? = some key) :
    (map.erase key).values = map.values.eraseIdx i := by
  rw [values, entries_erase stands, ← List.eraseIdx_map, values]

theorem notMem_erase (map : OrderedMap α) (key : String) : key ∉ (map.erase key).keys := by
  simp [keys, erase]

theorem erase_of_notMem (absent : key ∉ map.keys) : map.erase key = map := by
  apply OrderedMap.ext
  apply List.filter_eq_self.mpr
  intro entry mem
  apply decide_eq_true
  exact fun same => absent (List.mem_map.mpr ⟨entry, mem, same⟩)

/-- A key that stands somewhere has the value of the entry there. -/
theorem lookup_eq (stands : map.keys[i]? = some key) : map.lookup key = map.values[i]? := by
  obtain ⟨front, a, back, cut, rfl, notFront, -⟩ := exists_cut stands
  have passed : front.find? (·.1 = key) = none := by simpa using notFront
  rw [lookup, values, cut, List.find?_append, passed]
  simp

theorem lookup_eq_none (absent : key ∉ map.keys) : map.lookup key = none := by
  rw [lookup, Option.map_eq_none_iff, List.find?_eq_none]
  intro entry mem same
  apply absent
  exact List.mem_map.mpr ⟨entry, mem, of_decide_eq_true same⟩

end Positions

end OrderedMap

namespace Catalog

/-- What a caller can ask of a catalog. -/
inductive Request
  | add (c : ClassDef)
  | addBytes (bytes : Bytes)
  | remove (name : String)
  | find (name : String)
  | list
  | modify (name : String) (f : ClassDef → ClassDef)
  | modifyEach (f : Nat → ClassDef → ClassDef)

/-- The classes that a request gives, or why it fails. -/
abbrev Answer := Except Error (List ClassDef)

namespace Request

/-- What a catalog does at a request. -/
def act (catalog : Catalog) : Request → Answer × Catalog
  | .add c => (.ok [c], catalog.add c)
  | .addBytes bytes =>
      match Catalog.addBytes bytes catalog with
      | .ok c after => (.ok [c], after)
      | .error error after => (.error error, after)
  | .remove name =>
      let (removed, after) := catalog.remove name
      (.ok removed.toList, after)
  | .find name => (.ok (catalog.find? name).toList, catalog)
  | .list => (.ok catalog.toList, catalog)
  | .modify name f => (.ok (catalog.find? name).toList, catalog.modify name f)
  | .modifyEach f => (.ok catalog.toList, catalog.modifyEach f)

/-- What the ordered map does at a request. -/
def expect (map : OrderedMap ClassDef) : Request → Answer × OrderedMap ClassDef
  | .add c => (.ok [c], map.put c.name c)
  | .addBytes bytes =>
      match ClassDef.decode bytes with
      | .ok c => (.ok [c], map.put c.name c)
      | .error error => (.error error, map)
  | .remove name => (.ok (map.lookup name).toList, map.erase name)
  | .find name => (.ok (map.lookup name).toList, map)
  | .list => (.ok map.values, map)
  | .modify name f => (.ok (map.lookup name).toList, map.modify name f)
  | .modifyEach f => (.ok map.values, map.update fun i _ c => f i c)

/-- A change by the caller leaves each class of the catalog its name. -/
def KeepsNames (catalog : Catalog) : Request → Prop
  | .modify name f => ∀ c, catalog.find? name = some c → (f c).name = c.name
  | .modifyEach f => ∀ i c, catalog.toList[i]? = some c → (f i c).name = c.name
  | _ => True

end Request

/-- The answers to requests in order, and the catalog after them. -/
def run (catalog : Catalog) : List Request → List Answer × Catalog
  | [] => ([], catalog)
  | request :: later =>
      let (answer, after) := request.act catalog
      let (answers, final) := run after later
      (answer :: answers, final)

/-- The answers of the ordered map to requests in order, and the map after them. -/
def expectAll (map : OrderedMap ClassDef) : List Request → List Answer × OrderedMap ClassDef
  | [] => ([], map)
  | request :: later =>
      let (answer, after) := request.expect map
      let (answers, final) := expectAll after later
      (answer :: answers, final)

/-- No request of a run changes the name of a class that the catalog then holds. -/
def KeepNames (catalog : Catalog) : List Request → Prop
  | [] => True
  | request :: later => request.KeepsNames catalog ∧ KeepNames (request.act catalog).2 later

/-- A catalog holds the values of an ordered map under the names they are kept by, and knows
where each name stands. -/
structure Refines (catalog : Catalog) (map : OrderedMap ClassDef) : Prop where
  entries : map.entries = catalog.toList.map fun c => (c.name, c)
  positions : ∀ (name : String) (i : Nat),
    catalog.positions[name]? = some i ↔ map.keys[i]? = some name

theorem getElem?_advance (positions : Std.TreeMap String Nat) (moved name : String) :
    (advance positions moved)[name]? =
      if name = moved then positions[name]?.map (· - 1) else positions[name]? := by
  by_cases same : name = moved
  · subst same
    rw [if_pos rfl, advance]
    cases found : positions[name]? with
    | none => simp [found]
    | some position => simp
  · rw [if_neg same, advance]
    cases positions[moved]? with
    | none => rfl
    | some position => simp [Std.TreeMap.getElem?_insert, Ne.symm same]

/-- Each of some distinct names moves one place. -/
theorem getElem?_foldl_advance (names : List String) (distinct : names.Nodup)
    (positions : Std.TreeMap String Nat) (name : String) :
    (names.foldl advance positions)[name]? =
      if name ∈ names then positions[name]?.map (· - 1) else positions[name]? := by
  induction names generalizing positions with
  | nil => simp
  | cons moved later ih =>
      obtain ⟨fresh, distinct⟩ := List.nodup_cons.mp distinct
      rw [List.foldl_cons, ih distinct, getElem?_advance]
      by_cases same : name = moved
      · subst same
        simp [fresh]
      · simp [same]

/-- What stands behind an entry that is taken out. -/
theorem drop_eraseIdx {α : Type} (l : List α) (i : Nat) :
    (l.eraseIdx i).drop i = l.drop (i + 1) := by
  apply List.ext_getElem? fun j => ?_
  rw [List.getElem?_drop, List.getElem?_drop, List.getElem?_eraseIdx, if_neg (by omega)]
  congr 1
  omega

/-- A removal moves the names that the classes behind the removed one bear. -/
theorem remove_snd {catalog : Catalog} {name : String} {i : Nat}
    (known : catalog.positions[name]? = some i) :
    (catalog.remove name).2 =
      { classes := catalog.classes.eraseIdxIfInBounds i
        positions :=
          (catalog.names.drop (i + 1)).foldl advance (catalog.positions.erase name) } := by
  have later_eq : ((catalog.classes.eraseIdxIfInBounds i).toList.drop i).map (·.name) =
      catalog.names.drop (i + 1) := by
    rw [Array.toList_eraseIdxIfInBounds, drop_eraseIdx, List.map_drop, ← toList, names]
  rw [remove, known, ← later_eq]

/-- A catalog holds the values of an ordered map in its order, and knows where each key stands. The
classes may bear other names than the keys. -/
structure Tracks (catalog : Catalog) (map : OrderedMap ClassDef) : Prop where
  toList_eq : catalog.toList = map.values
  positions : ∀ (name : String) (i : Nat),
    catalog.positions[name]? = some i ↔ map.keys[i]? = some name

namespace Tracks

variable {catalog : Catalog} {map : OrderedMap ClassDef} {name : String} {i : Nat}

theorem size_eq (tracks : Tracks catalog map) : catalog.size = map.keys.length := by
  have lengths := congrArg List.length tracks.toList_eq
  rw [toList, Array.length_toList, OrderedMap.values, List.length_map] at lengths
  rw [size, lengths, OrderedMap.keys, List.length_map]

theorem position_eq_none_iff (tracks : Tracks catalog map) :
    catalog.positions[name]? = none ↔ name ∉ map.keys := by
  constructor
  · intro unknown present
    obtain ⟨i, stands⟩ := List.mem_iff_getElem?.mp present
    rw [(tracks.positions name i).mpr stands] at unknown
    contradiction
  · intro absent
    apply Option.eq_none_iff_forall_ne_some.mpr
    intro i known
    apply absent
    exact List.mem_of_getElem? ((tracks.positions name i).mp known)

/-- Every position of the index is one of a class. -/
theorem position_lt (tracks : Tracks catalog map) (known : catalog.positions[name]? = some i) :
    i < catalog.size := by
  rw [tracks.size_eq]
  exact (List.getElem?_eq_some_iff.mp ((tracks.positions name i).mp known)).1

theorem find?_eq (tracks : Tracks catalog map) (name : String) :
    catalog.find? name = map.lookup name := by
  rw [find?]
  cases known : catalog.positions[name]? with
  | none => rw [OrderedMap.lookup_eq_none (tracks.position_eq_none_iff.mp known)]; rfl
  | some i =>
      rw [OrderedMap.lookup_eq ((tracks.positions name i).mp known), ← tracks.toList_eq]
      exact Array.getElem?_toList.symm

/-- Changing the class of a name where it stands. -/
theorem modify_at (tracks : Tracks catalog map) (stands : map.keys[i]? = some name)
    (f : ClassDef → ClassDef) :
    Tracks { catalog with classes := catalog.classes.modify i f } (map.modify name f) where
  toList_eq := by
    rw [OrderedMap.values_modify stands, ← tracks.toList_eq, toList, Array.toList_modify, toList]
  positions name i := by
    rw [OrderedMap.keys_modify]
    exact tracks.positions name i

theorem modify (tracks : Tracks catalog map) (name : String) (f : ClassDef → ClassDef) :
    Tracks (catalog.modify name f) (map.modify name f) := by
  rw [Catalog.modify]
  cases known : catalog.positions[name]? with
  | none =>
      rw [OrderedMap.modify_of_notMem (tracks.position_eq_none_iff.mp known)]
      exact tracks
  | some i => exact tracks.modify_at ((tracks.positions name i).mp known) f

theorem modifyEach (tracks : Tracks catalog map) (f : Nat → ClassDef → ClassDef) :
    Tracks (catalog.modifyEach f) (map.update fun i _ c => f i c) where
  toList_eq := by
    apply List.ext_getElem? fun i => ?_
    rw [toList, Catalog.modifyEach, Array.toList_mapIdx, List.getElem?_mapIdx, ← toList,
      tracks.toList_eq]
    simp [OrderedMap.values, OrderedMap.update, Function.comp_def]
  positions name i := by
    rw [OrderedMap.keys_update]
    exact tracks.positions name i

/-- A class of a new name goes last. -/
theorem push (tracks : Tracks catalog map) {c : ClassDef} (fresh : c.name ∉ map.keys) :
    Tracks
      { classes := catalog.classes.push c
        positions := catalog.positions.insert c.name catalog.classes.size }
      (map.put c.name c) where
  toList_eq := by
    rw [toList, Array.toList_push, ← toList, tracks.toList_eq]
    simp [OrderedMap.put, fresh, OrderedMap.values]
  positions name i := by
    have size_eq : catalog.classes.size = map.keys.length := tracks.size_eq
    rw [OrderedMap.keys_put, if_neg fresh, size_eq, List.getElem?_append]
    simp only [Std.TreeMap.getElem?_insert, Std.compare_eq_iff_eq]
    have known_iff := tracks.positions name i
    by_cases inside : i < map.keys.length
    · rw [if_pos inside, ← known_iff]
      by_cases same : c.name = name
      · subst same
        rw [if_pos rfl, tracks.position_eq_none_iff.mpr fresh]
        simp [Nat.ne_of_gt inside]
      · rw [if_neg same]
    · rw [if_neg inside]
      rw [List.getElem?_eq_none (Nat.le_of_not_lt inside)] at known_iff
      by_cases same : c.name = name
      · simp only [same, if_true, Option.some_inj, List.getElem?_singleton]
        simp
        omega
      · simp [same, known_iff, List.getElem?_singleton]

theorem add (tracks : Tracks catalog map) (c : ClassDef) :
    Tracks (catalog.add c) (map.put c.name c) := by
  rw [Catalog.add]
  cases known : catalog.positions[c.name]? with
  | none => exact tracks.push (tracks.position_eq_none_iff.mp known)
  | some i =>
      have stands := (tracks.positions c.name i).mp known
      have present : ¬ c.name ∉ map.keys := not_not.mpr (List.mem_of_getElem? stands)
      have replaced := tracks.modify_at stands fun _ => c
      have set_eq : catalog.classes.modify i (fun _ => c) = catalog.classes.setIfInBounds i c := by
        apply Array.toList_inj.mp
        rw [Array.toList_modify, Array.toList_setIfInBounds, List.set_eq_modify]
      rw [OrderedMap.put, dif_neg present]
      rwa [set_eq] at replaced

/-- Without a key, the keys behind it are counted down, in any order. -/
theorem positions_erase (tracks : Tracks catalog map) (stands : map.keys[i]? = some name)
    {later : List String} (counted : later.Perm ((map.erase name).keys.drop i))
    (other : String) (j : Nat) :
    (later.foldl advance (catalog.positions.erase name))[other]? = some j ↔
      (map.erase name).keys[j]? = some other := by
  have kept (k : Nat) :
      (map.erase name).keys[k]? = if k < i then map.keys[k]? else map.keys[k + 1]? := by
    rw [OrderedMap.keys_erase stands, List.getElem?_eraseIdx]
  have later_iff : other ∈ later ↔ ∃ k, (map.erase name).keys[i + k]? = some other := by
    rw [counted.mem_iff]
    simp only [List.mem_iff_getElem?, List.getElem?_drop]
  have distinct : later.Nodup :=
    counted.nodup_iff.mpr ((map.erase name).distinct.sublist (List.drop_sublist i _))
  rw [getElem?_foldl_advance _ distinct, Std.TreeMap.getElem?_erase]
  simp only [Std.compare_eq_iff_eq]
  by_cases same : name = other
  · subst same
    have gone : (map.erase name).keys[j]? ≠ some name := by
      intro found
      exact OrderedMap.notMem_erase map name (List.mem_of_getElem? found)
    simp [gone]
  rw [if_neg same]
  cases known : catalog.positions[other]? with
  | none =>
      have absent := tracks.position_eq_none_iff.mp known
      have gone : (map.erase name).keys[j]? ≠ some other := by
        rw [kept]
        split <;> exact fun found => absent (List.mem_of_getElem? found)
      simp [gone]
  | some k =>
      have at_k := (tracks.positions other k).mp known
      obtain before | behind : k < i ∨ i < k := by
        apply Nat.lt_or_gt_of_ne
        rintro rfl
        exact same (Option.some.inj (stands.symm.trans at_k))
      · have at_k' : (map.erase name).keys[k]? = some other := by rw [kept, if_pos before, at_k]
        have notLater : other ∉ later := by
          rw [later_iff]
          rintro ⟨r, at_r⟩
          have := OrderedMap.position_unique _ at_k' at_r
          omega
        rw [if_neg notLater, Option.some_inj]
        constructor
        · rintro rfl
          exact at_k'
        · exact OrderedMap.position_unique _ at_k'
      · have at_k' : (map.erase name).keys[k - 1]? = some other := by
          rw [kept, if_neg (by omega), Nat.sub_add_cancel (by omega), at_k]
        have isLater : other ∈ later :=
          later_iff.mpr ⟨k - 1 - i, by rwa [Nat.add_sub_cancel' (by omega)]⟩
        rw [if_pos isLater, Option.map_some, Option.some_inj]
        constructor
        · rintro rfl
          exact at_k'
        · exact OrderedMap.position_unique _ at_k'

/-- Removal repairs the index if the classes behind the removed one bear, in any order, the names
that stand there. -/
theorem remove (tracks : Tracks catalog map)
    (behind : ∀ i, catalog.positions[name]? = some i →
      (catalog.names.drop (i + 1)).Perm (map.keys.drop (i + 1))) :
    Tracks (catalog.remove name).2 (map.erase name) := by
  cases known : catalog.positions[name]? with
  | none =>
      rw [Catalog.remove, known, OrderedMap.erase_of_notMem (tracks.position_eq_none_iff.mp known)]
      exact tracks
  | some i =>
      have stands := (tracks.positions name i).mp known
      have keys_eq : (map.erase name).keys.drop i = map.keys.drop (i + 1) := by
        rw [OrderedMap.keys_erase stands, drop_eraseIdx]
      rw [remove_snd known]
      constructor
      · rw [OrderedMap.values_erase stands, ← tracks.toList_eq, toList,
          Array.toList_eraseIdxIfInBounds, toList]
      · exact tracks.positions_erase stands (keys_eq ▸ behind i known)

theorem remove_fst (tracks : Tracks catalog map) (name : String) :
    (catalog.remove name).1 = map.lookup name := by
  rw [← tracks.find?_eq, Catalog.remove, find?]
  cases catalog.positions[name]? with
  | none => rfl
  | some i => rfl

end Tracks

theorem tracks_empty : Tracks empty .empty where
  toList_eq := rfl
  positions := by simp [empty, OrderedMap.empty, OrderedMap.keys]

/-- Classes that keep their names, changed where they stand. -/
theorem names_modify_at {catalog : Catalog} {i : Nat} {f : ClassDef → ClassDef}
    (keeps : ∀ c, catalog.toList[i]? = some c → (f c).name = c.name) :
    names { catalog with classes := catalog.classes.modify i f } = catalog.names := by
  apply List.ext_getElem? fun j => ?_
  rw [names, names, toList, toList, Array.toList_modify]
  simp only [List.getElem?_modify, List.getElem?_map]
  cases found : catalog.classes.toList[j]? with
  | none => rfl
  | some c =>
      by_cases same : i = j
      · subst same
        simp [keeps c found]
      · simp [same]

theorem names_modifyEach {catalog : Catalog} {f : Nat → ClassDef → ClassDef}
    (keeps : ∀ i c, catalog.toList[i]? = some c → (f i c).name = c.name) :
    (catalog.modifyEach f).names = catalog.names := by
  apply List.ext_getElem? fun i => ?_
  simp only [names, toList, modifyEach, Array.toList_mapIdx, List.getElem?_mapIdx,
    List.getElem?_map, Option.map_map]
  apply Option.map_congr
  intro c found
  rw [Function.comp_apply, keeps i c found]

namespace Refines

variable {catalog : Catalog} {map : OrderedMap ClassDef} {name : String}

theorem names_eq (refines : Refines catalog map) : catalog.names = map.keys := by
  rw [names, OrderedMap.keys, refines.entries, List.map_map]
  rfl

theorem tracks (refines : Refines catalog map) : Tracks catalog map where
  toList_eq := by
    rw [OrderedMap.values, refines.entries, List.map_map]
    exact (List.map_id _).symm
  positions := refines.positions

theorem of_tracks (tracks : Tracks catalog map) (names_eq : catalog.names = map.keys) :
    Refines catalog map where
  entries := by
    rw [List.zip_of_prod names_eq.symm tracks.toList_eq.symm, names, ← List.zip_map', List.map_id']
  positions := tracks.positions

theorem modify (refines : Refines catalog map) {f : ClassDef → ClassDef}
    (keeps : ∀ c, catalog.find? name = some c → (f c).name = c.name) :
    Refines (catalog.modify name f) (map.modify name f) := by
  apply of_tracks (refines.tracks.modify name f)
  rw [OrderedMap.keys_modify, ← refines.names_eq, Catalog.modify]
  cases known : catalog.positions[name]? with
  | none => rfl
  | some i =>
      apply names_modify_at
      intro c found
      apply keeps
      rw [find?, known, ← found]
      exact Array.getElem?_toList.symm

theorem modifyEach (refines : Refines catalog map) {f : Nat → ClassDef → ClassDef}
    (keeps : ∀ i c, catalog.toList[i]? = some c → (f i c).name = c.name) :
    Refines (catalog.modifyEach f) (map.update fun i _ c => f i c) := by
  apply of_tracks (refines.tracks.modifyEach f)
  rw [OrderedMap.keys_update, ← refines.names_eq, names_modifyEach keeps]

theorem add (refines : Refines catalog map) (c : ClassDef) :
    Refines (catalog.add c) (map.put c.name c) := by
  apply of_tracks (refines.tracks.add c)
  rw [Catalog.add, OrderedMap.keys_put, ← refines.names_eq]
  cases known : catalog.positions[c.name]? with
  | none =>
      have fresh : c.name ∉ catalog.names :=
        refines.names_eq ▸ refines.tracks.position_eq_none_iff.mp known
      rw [if_neg fresh]
      simp [names, toList]
  | some i =>
      have stands : catalog.names[i]? = some c.name :=
        refines.names_eq ▸ (refines.positions c.name i).mp known
      obtain ⟨inside, at_i⟩ := List.getElem?_eq_some_iff.mp stands
      rw [if_pos (List.mem_of_getElem? stands)]
      calc names { catalog with classes := catalog.classes.setIfInBounds i c }
        _ = catalog.names.set i c.name := by simp [names, toList]
        _ = catalog.names := by rw [← at_i, List.set_getElem_self]

theorem remove (refines : Refines catalog map) (name : String) :
    Refines (catalog.remove name).2 (map.erase name) := by
  apply of_tracks (refines.tracks.remove fun i _ => by rw [refines.names_eq])
  rw [Catalog.remove]
  cases known : catalog.positions[name]? with
  | none =>
      rw [OrderedMap.erase_of_notMem (refines.tracks.position_eq_none_iff.mp known)]
      exact refines.names_eq
  | some i =>
      rw [OrderedMap.keys_erase ((refines.positions name i).mp known), ← refines.names_eq]
      simp only [names, toList, Array.toList_eraseIdxIfInBounds, List.eraseIdx_map]

end Refines

theorem refines_empty : Refines empty .empty :=
  .of_tracks tracks_empty rfl

namespace Request

variable {catalog : Catalog} {map : OrderedMap ClassDef}

/-- A catalog that tracks an ordered map answers each request as the map does. -/
theorem answer_eq (tracks : Tracks catalog map) (request : Request) :
    (request.act catalog).1 = (request.expect map).1 := by
  cases request with
  | add c => rfl
  | addBytes bytes =>
      rw [act, expect, Catalog.addBytes]
      cases ClassDef.decode bytes <;> rfl
  | remove name =>
      rw [expect, ← tracks.remove_fst name]
      rfl
  | find name =>
      rw [act, tracks.find?_eq]
      rfl
  | list =>
      rw [act, tracks.toList_eq]
      rfl
  | modify name f =>
      rw [act, tracks.find?_eq]
      rfl
  | modifyEach f =>
      rw [act, tracks.toList_eq]
      rfl

/-- One request: the catalog refines the ordered map afterwards. -/
theorem act_refines (refines : Refines catalog map) (request : Request)
    (keeps : request.KeepsNames catalog) :
    Refines (request.act catalog).2 (request.expect map).2 := by
  cases request with
  | add c => exact refines.add c
  | addBytes bytes =>
      rw [act, expect, Catalog.addBytes]
      cases ClassDef.decode bytes with
      | error error => exact refines
      | ok c => exact refines.add c
  | remove name => exact refines.remove name
  | find name => exact refines
  | list => exact refines
  | modify name f => exact refines.modify keeps
  | modifyEach f => exact refines.modifyEach keeps

end Request

section Runs

variable {catalog : Catalog} {map : OrderedMap ClassDef}

/-- A run of requests: the answers are those of the ordered map, which the catalog refines at the
end. -/
theorem Refines.run (refines : Refines catalog map) (requests : List Request)
    (keep : KeepNames catalog requests) :
    (catalog.run requests).1 = (expectAll map requests).1 ∧
      Refines (catalog.run requests).2 (expectAll map requests).2 := by
  induction requests generalizing catalog map with
  | nil => exact ⟨rfl, refines⟩
  | cons request later ih =>
      obtain ⟨answers_eq, final⟩ := ih (request.act_refines refines keep.1) keep.2
      constructor
      · simp only [Catalog.run, expectAll, request.answer_eq refines.tracks, answers_eq]
      · exact final

/-- Every way of looking at a catalog shows the values of an ordered map in its order. A function
that is called for the classes may have effects of any kind. -/
structure ShowsInOrder (catalog : Catalog) (ordered : OrderedMap ClassDef) : Prop where
  size : catalog.size = ordered.keys.length
  names : catalog.names = ordered.keys
  toList : catalog.toList = ordered.values
  find? : ∀ name : String, catalog.find? name = ordered.lookup name
  first? : ∀ p : ClassDef → Bool, catalog.first? p = ordered.values.find? p
  filter : ∀ p : ClassDef → Bool, catalog.filter p = ordered.values.filter p
  map : ∀ {α : Type} (f : ClassDef → α), catalog.map f = ordered.values.map f
  firstM? : ∀ {m : Type → Type} [Monad m] [LawfulMonad m] (p : ClassDef → m Bool),
    catalog.firstM? p = ordered.values.findM? p
  filterM : ∀ {m : Type → Type} [Monad m] [LawfulMonad m] (p : ClassDef → m Bool),
    catalog.filterM p = ordered.values.filterM p
  mapM : ∀ {m : Type → Type} [Monad m] [LawfulMonad m] {α : Type} (f : ClassDef → m α),
    catalog.mapM f = ordered.values.mapM f
  forEach : ∀ {m : Type → Type} [Monad m] [LawfulMonad m] (act : ClassDef → m PUnit),
    catalog.forEach act = ordered.values.forM act

theorem Refines.showsInOrder (refines : Refines catalog map) : ShowsInOrder catalog map where
  size := by rw [← refines.names_eq, names, List.length_map, toList, Array.length_toList, size]
  names := refines.names_eq
  toList := refines.tracks.toList_eq
  find? := refines.tracks.find?_eq
  first? p := by rw [← refines.tracks.toList_eq, toList, Array.find?_toList, first?]
  filter p := by rw [← refines.tracks.toList_eq, toList, ← Array.toList_filter, filter]
  map f := by rw [← refines.tracks.toList_eq, toList, ← Array.toList_map, Catalog.map]
  firstM? p := by rw [← refines.tracks.toList_eq, toList, Array.findM?_toList, firstM?]
  filterM p := by rw [← refines.tracks.toList_eq, toList, ← Array.toList_filterM, filterM]
  mapM f := by rw [← refines.tracks.toList_eq, toList, ← Array.toList_mapM, mapM]
  forEach act := by
    rw [← refines.tracks.toList_eq]
    exact List.forM_toArray catalog.toList act

/-- As long as callers keep the names of the classes in a catalog, every run of requests gives the
answers of the ordered map from names to classes. The names are distinct, the index knows exactly
the names that are present, each by its position, every traversal follows the order of the map, and
an addition that fails leaves the catalog as it is. -/
theorem run_refines_ordered_map (requests : List Request) (keep : KeepNames empty requests) :
    (empty.run requests).1 = (expectAll .empty requests).1 ∧
      ShowsInOrder (empty.run requests).2 (expectAll .empty requests).2 ∧
      (empty.run requests).2.names.Nodup ∧
      (∀ (name : String) (i : Nat), (empty.run requests).2.positions[name]? = some i ↔
        (empty.run requests).2.names[i]? = some name) ∧
      ∀ (bytes : Bytes) (error : Error) (after : Catalog),
        addBytes bytes (empty.run requests).2 = .error error after →
          after = (empty.run requests).2 := by
  obtain ⟨answers_eq, refines⟩ := refines_empty.run requests keep
  have names_eq := refines.names_eq
  refine ⟨answers_eq, refines.showsInOrder, ?_, ?_, ?_⟩
  · rw [names_eq]
    exact OrderedMap.distinct _
  · rw [names_eq]
    exact refines.positions
  · intro bytes error after failed
    rw [addBytes] at failed
    split at failed
    · cases failed
      rfl
    · contradiction

/-- Three classes, a file that is no class file, a class that is changed in place, and one that is
taken out and added again. -/
def shuffling : List Request :=
  [.add (.new "a" none), .add (.new "b" none), .add (.new "c" none), .addBytes #[0xCA, 0xFE],
    .modify "b" fun c => { c with super := some "a" }, .remove "a", .find "c",
    .add (.new "a" (some "c"))]

theorem run_refines_ordered_map_shuffling :
    KeepNames empty shuffling ∧
      (expectAll .empty shuffling).2.keys = ["b", "c", "a"] ∧
      (empty.run shuffling).1 = (expectAll .empty shuffling).1 ∧
      ShowsInOrder (empty.run shuffling).2 (expectAll .empty shuffling).2 := by
  have keep : KeepNames empty shuffling :=
    ⟨trivial, trivial, trivial, trivial, fun _ _ => rfl, trivial, trivial, trivial, trivial⟩
  have refined := run_refines_ordered_map shuffling keep
  exact ⟨keep, by decide, refined.1, refined.2.1⟩

end Runs

end Catalog

end JavaClass
