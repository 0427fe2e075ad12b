import Mathlib.Algebra.Ring.Nat
import Mathlib.Data.List.Chain
import Mathlib.Data.List.Nodup
import Mathlib.Order.Monotone.Basic
import JavaClass.SlotVector

/-!
# Slots

The elements of a slot vector are laid out without gaps: each one starts where
the one before it ends. Their starts never decrease, so bisection finds whether
an element starts at a slot, and a look-up finds an element exactly at the slot
where it starts.
-/

namespace JavaClass.SlotVector

variable {α : Type}

/-- The slot where each entry of a list starts never decreases. -/
def Sorted (entries : Array (Nat × α)) : Prop :=
  entries.toList.Pairwise fun a b => a.1 ≤ b.1

theorem Sorted.le {entries : Array (Nat × α)} (sorted : Sorted entries) {i j : Nat}
    {a b : Nat × α} (hi : entries[i]? = some a) (hj : entries[j]? = some b) (hle : i ≤ j) :
    a.1 ≤ b.1 := by
  rw [← Array.getElem?_toList] at hi hj
  obtain rfl | hlt := Nat.eq_or_lt_of_le hle
  · rw [hi] at hj
    cases Option.some.inj hj
    exact Nat.le_refl _
  · obtain ⟨hi', rfl⟩ := List.getElem?_eq_some_iff.mp hi
    obtain ⟨hj', rfl⟩ := List.getElem?_eq_some_iff.mp hj
    exact List.pairwise_iff_getElem.mp sorted i j hi' hj' hlt

/-- Bisection splits the entries at a slot. -/
structure Splits (entries : Array (Nat × α)) (slot count : Nat) : Prop where
  le_size : count ≤ entries.size
  before : ∀ i entry, entries[i]? = some entry → i < count → entry.1 ≤ slot
  behind : ∀ i entry, entries[i]? = some entry → count ≤ i → slot < entry.1

theorem splits_bisect {entries : Array (Nat × α)} (sorted : Sorted entries) {slot low high : Nat}
    (hle : low ≤ high) (hhigh : high ≤ entries.size)
    (before : ∀ i entry, entries[i]? = some entry → i < low → entry.1 ≤ slot)
    (behind : ∀ i entry, entries[i]? = some entry → high ≤ i → slot < entry.1) :
    Splits entries slot (bisect entries slot low high) := by
  rw [bisect]
  split
  · rename_i hlt
    obtain ⟨middle, hmiddle⟩ : ∃ middle, middle = (low + high) / 2 := ⟨_, rfl⟩
    obtain ⟨entry, hentry⟩ : ∃ entry, entries[middle]? = some entry :=
      ⟨_, Array.getElem?_eq_getElem (by omega)⟩
    simp only [← hmiddle, hentry, Option.map_some, Option.any_some]
    split
    · rename_i hstart
      rw [decide_eq_true_iff] at hstart
      refine splits_bisect sorted (by omega) hhigh (fun i other hi hless => ?_) behind
      exact Nat.le_trans (sorted.le hi hentry (by omega)) hstart
    · rename_i hstart
      rw [decide_eq_true_iff] at hstart
      refine splits_bisect sorted (by omega) (by omega) before fun i other hi hless => ?_
      exact Nat.lt_of_lt_of_le (Nat.lt_of_not_le hstart) (sorted.le hentry hi hless)
  · have heq : low = high := by omega
    exact ⟨by omega, before, fun i entry hi hless => behind i entry hi (by omega)⟩
termination_by high - low

theorem splits_countUpTo {v : SlotVector α} (sorted : Sorted v.entries) (slot : Nat) :
    Splits v.entries slot (v.countUpTo slot) := by
  refine splits_bisect sorted (Nat.zero_le _) (Nat.le_refl _) (fun i entry _ h => ?_)
    fun i entry hi hless => ?_
  · exact absurd h (Nat.not_lt_zero i)
  · obtain ⟨hlt, -⟩ := Array.getElem?_eq_some_iff.mp hi
    exact absurd hlt (Nat.not_lt_of_le hless)

/-- The slots where the elements start, in order. -/
def starts (v : SlotVector α) : List Nat :=
  v.entries.toList.map Prod.fst

/-- What a search for a slot promises of its outcome. A start that it found is the slot, whichever
of several; if none is, the slot goes in between the starts where it says and leaves them in
order. -/
def Search.Finds (starts : List Nat) (slot : Nat) : Search → Prop
  | .found position => starts[position]? = some slot
  | .missing position => slot ∉ starts ∧ position ≤ starts.length ∧
      (starts.take position ++ slot :: starts.drop position).Pairwise (· ≤ ·)

theorem getElem?_starts_eq_some_iff {v : SlotVector α} {position slot : Nat} :
    v.starts[position]? = some slot ↔ ∃ element, v.entries[position]? = some (slot, element) := by
  simp [starts]

theorem mem_starts_iff {v : SlotVector α} {slot : Nat} :
    slot ∈ v.starts ↔ ∃ element, (slot, element) ∈ v.entries.toList := by
  simp [starts]

theorem pairwise_starts_iff {v : SlotVector α} : v.starts.Pairwise (· ≤ ·) ↔ Sorted v.entries :=
  List.pairwise_map

/-- What the search finds starts at the slot, whatever the order of the entries. -/
theorem found_of_search {v : SlotVector α} {slot position : Nat}
    (h : v.search slot = .found position) : v.starts[position]? = some slot := by
  unfold search at h
  split at h
  · cases h
  · rename_i last _
    split at h
    · rename_i hstart
      obtain rfl := Search.found.inj h
      obtain ⟨⟨start, element⟩, hentry, hslot⟩ := (Option.any_eq_true _ _).mp hstart
      obtain rfl : start = slot := of_decide_eq_true hslot
      exact getElem?_starts_eq_some_iff.mpr ⟨element, hentry⟩
    · cases h

/-- A search that finds nothing has looked at the last start up to the slot. -/
theorem missing_of_search {v : SlotVector α} {slot position : Nat}
    (h : v.search slot = .missing position) :
    v.countUpTo slot = position ∧ ∀ last, last + 1 = position → v.starts[last]? ≠ some slot := by
  unfold search at h
  split at h
  · rename_i hcount
    obtain rfl := Search.missing.inj h
    exact ⟨hcount, fun _ hlast => absurd hlast (Nat.succ_ne_zero _)⟩
  · rename_i last hcount
    split at h
    · cases h
    · rename_i hstart
      obtain rfl := Search.missing.inj h
      refine ⟨hcount, fun other hother hslot => hstart ?_⟩
      obtain rfl := Nat.succ.inj hother
      obtain ⟨element, hentry⟩ := getElem?_starts_eq_some_iff.mp hslot
      simp [hentry]

/-- If no element starts at the slot, it goes in behind the starts that bisection counts. -/
theorem Splits.finds {v : SlotVector α} {slot count : Nat} (splits : Splits v.entries slot count)
    (sorted : Sorted v.entries) (absent : slot ∉ v.starts) :
    (Search.missing count).Finds v.starts slot := by
  have before : ∀ start ∈ v.starts.take count, start ≤ slot := by
    intro start hstart
    obtain ⟨i, hi, rfl⟩ := List.mem_take_iff_getElem.mp hstart
    obtain ⟨element, hentry⟩ := getElem?_starts_eq_some_iff.mp (List.getElem?_eq_getElem _)
    exact splits.before i _ hentry (by omega)
  have behind : ∀ start ∈ v.starts.drop count, slot ≤ start := by
    intro start hstart
    obtain ⟨i, hi, rfl⟩ := List.mem_drop_iff_getElem.mp hstart
    obtain ⟨element, hentry⟩ := getElem?_starts_eq_some_iff.mp (List.getElem?_eq_getElem _)
    exact Nat.le_of_lt (splits.behind _ _ hentry (Nat.le_add_right _ _))
  have ordered := pairwise_starts_iff.mpr sorted
  refine ⟨absent, ?_, List.pairwise_append.mpr ⟨ordered.take, ?_, ?_⟩⟩
  · simpa [starts] using splits.le_size
  · exact List.pairwise_cons.mpr ⟨behind, ordered.drop⟩
  · intro start hstart other hother
    obtain rfl | hother := List.mem_cons.mp hother
    · exact before start hstart
    · exact Nat.le_trans (before start hstart) (behind other hother)

/-- If elements start at the slot, the last one that bisection counts does. -/
theorem Splits.exists_last {v : SlotVector α} {slot count : Nat}
    (splits : Splits v.entries slot count) (sorted : Sorted v.entries) (hmem : slot ∈ v.starts) :
    ∃ last, last + 1 = count ∧ v.starts[last]? = some slot := by
  obtain ⟨i, hi⟩ := List.getElem?_of_mem hmem
  obtain ⟨element, hentry⟩ := getElem?_starts_eq_some_iff.mp hi
  have hless : i < count := by
    by_contra hnot
    exact Nat.lt_irrefl _ (splits.behind i _ hentry (Nat.le_of_not_lt hnot))
  obtain ⟨last, rfl⟩ : ∃ last, count = last + 1 := ⟨count - 1, by omega⟩
  obtain ⟨⟨start, other⟩, hother⟩ : ∃ entry, v.entries[last]? = some entry :=
    ⟨_, Array.getElem?_eq_getElem splits.le_size⟩
  have hle : slot ≤ start := sorted.le hentry hother (Nat.le_of_lt_succ hless)
  have hge : start ≤ slot := splits.before last _ hother (Nat.lt_succ_self _)
  obtain rfl := Nat.le_antisymm hle hge
  exact ⟨last, rfl, getElem?_starts_eq_some_iff.mpr ⟨other, hother⟩⟩

theorem finds_search {v : SlotVector α} (sorted : Sorted v.entries) (slot : Nat) :
    (v.search slot).Finds v.starts slot := by
  have splits := splits_countUpTo sorted slot
  cases houtcome : v.search slot with
  | found position => exact found_of_search houtcome
  | missing position =>
      obtain ⟨rfl, hlast⟩ := missing_of_search houtcome
      refine splits.finds sorted fun hmem => ?_
      obtain ⟨last, hcount, hslot⟩ := splits.exists_last sorted hmem
      exact hlast last hcount hslot

/-- An element is found where the search ends with its position. -/
theorem get?_eq_some_iff {v : SlotVector α} {slot : Nat} {element : α} :
    v.get? slot = some element ↔ ∃ position, v.search slot = .found position ∧
      v.entries[position]? = some (slot, element) := by
  unfold get? lookup
  cases houtcome : v.search slot with
  | found position =>
      obtain ⟨found, hentry⟩ := getElem?_starts_eq_some_iff.mp (found_of_search houtcome)
      simp [resolve, hentry]
  | missing position =>
      cases position with
      | zero => simp [resolve]
      | succ last => by_cases hnext : v.next ≤ slot <;> simp [resolve, hnext]

/-- Whatever a look-up finds starts at the slot. -/
theorem mem_of_get? {v : SlotVector α} {slot : Nat} {element : α}
    (h : v.get? slot = some element) : (slot, element) ∈ v.entries.toList := by
  obtain ⟨position, -, hentry⟩ := get?_eq_some_iff.mp h
  exact Array.mem_def.mp (Array.mem_of_getElem? hentry)

/-- If elements start at different slots, each is found where it starts. -/
theorem get?_of_mem {v : SlotVector α}
    (sorted : v.entries.toList.Pairwise fun a b => a.1 < b.1) {slot : Nat} {element : α}
    (h : (slot, element) ∈ v.entries.toList) : v.get? slot = some element := by
  have finds := finds_search (sorted.imp Nat.le_of_lt) slot
  cases houtcome : v.search slot with
  | missing position =>
      rw [houtcome] at finds
      exact absurd (mem_starts_iff.mpr ⟨element, h⟩) finds.1
  | found position =>
      obtain ⟨found, hentry⟩ := getElem?_starts_eq_some_iff.mp (found_of_search houtcome)
      have nodup : v.starts.Nodup := List.pairwise_map.mpr (sorted.imp Nat.ne_of_lt)
      have hmem := Array.mem_def.mp (Array.mem_of_getElem? hentry)
      obtain ⟨-, rfl⟩ := Prod.mk.inj (List.inj_on_of_nodup_map nodup h hmem rfl)
      exact get?_eq_some_iff.mpr ⟨position, houtcome, hentry⟩

section Append

variable [HasWidth α]

/-- The slot where the element at a position starts, if the first one starts at `first`; behind the
last position, the slot after all of them. -/
def slotOf (first : Nat) (elements : List α) (position : Nat) : Nat :=
  first + ((elements.take position).map HasWidth.width).sum

variable {first : Nat} {elements : List α} {i j : Nat}

@[simp]
theorem slotOf_zero : slotOf first elements 0 = first := rfl

@[simp]
theorem slotOf_cons_succ {element : α} :
    slotOf first (element :: elements) (i + 1) =
      slotOf (first + HasWidth.width element) elements i := by
  simp [slotOf, Nat.add_assoc]

theorem slotOf_succ {element : α} (h : elements[i]? = some element) :
    slotOf first elements (i + 1) = slotOf first elements i + HasWidth.width element := by
  simp [slotOf, List.take_add_one, h, Nat.add_assoc]

theorem slotOf_le (hle : i ≤ j) : slotOf first elements i ≤ slotOf first elements j := by
  refine monotone_nat_of_le_succ (f := slotOf first elements) (fun position => ?_) hle
  cases h : elements[position]? with
  | none => simp [slotOf, List.take_add_one, h]
  | some element => rw [slotOf_succ h]; exact Nat.le_add_right _ _

theorem slotOf_lt (positive : ∀ element : α, 0 < HasWidth.width element) (hlt : i < j)
    (hi : i < elements.length) : slotOf first elements i < slotOf first elements j := by
  refine Nat.lt_of_lt_of_le ?_ (slotOf_le (Nat.succ_le_of_lt hlt))
  rw [slotOf_succ (List.getElem?_eq_getElem hi)]
  exact Nat.lt_add_of_pos_right (positive _)

theorem append_cons (v : SlotVector α) (element : α) (rest : List α) :
    v.append (element :: rest) = (v.push element).append rest := rfl

theorem append_append (v : SlotVector α) (first second : List α) :
    v.append (first ++ second) = (v.append first).append second := List.foldl_append ..

theorem toList_append (v : SlotVector α) (elements : List α) :
    (v.append elements).toList = v.toList ++ elements := by
  induction elements generalizing v with
  | nil => simp [append]
  | cons element rest ih =>
      rw [append_cons, ih]
      simp [push, toList]

theorem next_append (v : SlotVector α) (elements : List α) :
    (v.append elements).next = v.next + (elements.map HasWidth.width).sum := by
  induction elements generalizing v with
  | nil => rfl
  | cons element rest ih =>
      rw [append_cons, ih]
      simp [push, Nat.add_assoc]

/-- Adding elements that take slots moves the next slot on. -/
theorem next_le_append (v : SlotVector α) (elements : List α) :
    v.next ≤ (v.append elements).next := by
  rw [next_append]
  exact Nat.le_add_right _ _

theorem next_startingAt (first : Nat) (elements : List α) :
    ((startingAt first).append elements).next = slotOf first elements elements.length := by
  rw [next_append, slotOf, List.take_length]
  rfl

/-- The elements are laid out behind those that were there. -/
theorem entries_append (v : SlotVector α) (elements : List α) :
    (v.append elements).entries.toList =
      v.entries.toList ++ elements.zipIdx.map fun (element, i) =>
        (slotOf v.next elements i, element) := by
  induction elements generalizing v with
  | nil => simp [append]
  | cons element rest ih =>
      rw [append_cons, ih, List.zipIdx_cons']
      simp [push]

theorem getElem?_entries (first : Nat) (elements : List α) (i : Nat) :
    ((startingAt first).append elements).entries[i]? =
      elements[i]?.map fun element => (slotOf first elements i, element) := by
  rw [← Array.getElem?_toList, entries_append]
  simp [startingAt, Function.comp_def]

theorem length_entries (first : Nat) (elements : List α) :
    ((startingAt first).append elements).entries.toList.length = elements.length := by
  simp [entries_append, startingAt]

theorem getElem_entries (h : i < ((startingAt first).append elements).entries.toList.length) :
    ((startingAt first).append elements).entries.toList[i] =
      (slotOf first elements i, elements.get ⟨i, length_entries first elements ▸ h⟩) := by
  simp [entries_append, startingAt]

/-- Each added element starts behind what was there and the elements added before it. -/
theorem mem_append_iff (v : SlotVector α) {elements : List α} {start : Nat} {element : α} :
    (start, element) ∈ (v.append elements).entries.toList ↔
      (start, element) ∈ v.entries.toList ∨
        ∃ before after, elements = before ++ element :: after ∧
          start = v.next + (before.map HasWidth.width).sum := by
  rw [entries_append, List.mem_append]
  refine or_congr_right ⟨fun h => ?_, ?_⟩
  · obtain ⟨⟨found, i⟩, hfound, heq⟩ := List.mem_map.mp h
    obtain ⟨rfl, rfl⟩ := Prod.mk.inj heq
    obtain ⟨hi, rfl⟩ : ∃ hi : i < elements.length, elements[i] = found :=
      List.getElem?_eq_some_iff.mp (List.mem_zipIdx_iff_getElem?.mp hfound)
    exact ⟨elements.take i, elements.drop (i + 1), by simp, rfl⟩
  · rintro ⟨before, after, rfl, rfl⟩
    refine List.mem_map.mpr ⟨(element, before.length), ?_, by simp [slotOf]⟩
    exact List.mem_zipIdx_iff_getElem?.mpr (by simp)

theorem starts_append (first : Nat) (elements : List α) :
    ((startingAt first).append elements).starts =
      (List.range elements.length).map (slotOf first elements) := by
  refine List.ext_getElem ?_ fun i _ _ => ?_
  · rw [starts, List.length_map, length_entries, List.length_map, List.length_range]
  · simp only [starts, List.getElem_map, getElem_entries, List.getElem_range]

theorem sorted_append (first : Nat) (elements : List α) :
    Sorted ((startingAt first).append elements).entries := by
  rw [← pairwise_starts_iff, starts_append]
  exact List.pairwise_map.mpr (List.pairwise_lt_range.imp fun hlt => slotOf_le (Nat.le_of_lt hlt))

/-- Each element starts where the one before it ends. -/
theorem isChain_entries (first : Nat) (elements : List α) :
    ((startingAt first).append elements).entries.toList.IsChain
      fun a b => b.1 = a.1 + HasWidth.width a.2 := by
  refine List.isChain_iff_getElem.mpr fun i hi => ?_
  rw [getElem_entries, getElem_entries]
  exact slotOf_succ (List.getElem?_eq_getElem _)

theorem fst_head?_entries (first : Nat) (elements : List α) :
    ∀ entry ∈ ((startingAt first).append elements).entries.toList.head?, entry.1 = first := by
  intro entry hentry
  rw [List.head?_eq_getElem?, Array.getElem?_toList, getElem?_entries] at hentry
  obtain ⟨element, -, rfl⟩ := Option.map_eq_some_iff.mp hentry
  rfl

/-- The elements start one behind the other, all from `first` on and before the next slot. -/
theorem strict_append (first : Nat) (positive : ∀ element : α, 0 < HasWidth.width element)
    (elements : List α) :
    ((startingAt first).append elements).entries.toList.Pairwise (fun a b => a.1 < b.1) ∧
      ∀ entry ∈ ((startingAt first).append elements).entries.toList,
        first ≤ entry.1 ∧ entry.1 < ((startingAt first).append elements).next := by
  refine ⟨?_, fun entry hentry => ?_⟩
  · refine List.pairwise_iff_getElem.mpr fun i j hi hj hlt => ?_
    rw [getElem_entries, getElem_entries]
    exact slotOf_lt positive hlt (length_entries first elements ▸ hi)
  · obtain ⟨i, hi, rfl⟩ := List.getElem_of_mem hentry
    have hless : i < elements.length := length_entries first elements ▸ hi
    rw [getElem_entries, next_startingAt]
    exact ⟨slotOf_le (Nat.zero_le i), slotOf_lt positive hless hless⟩

end Append

end JavaClass.SlotVector
