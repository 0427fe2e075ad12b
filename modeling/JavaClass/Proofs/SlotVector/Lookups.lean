import JavaClass.Proofs.SlotVector

/-!
# What a look-up says

A look-up answers with an element that starts at the slot if there is one, else
with the element that goes on there, and with neither before the first slot and
from the next one on. The widths of the elements may be any. An element of no
slots shares its start with the one behind it, and whichever of the two a search
finds, the answer is right.
-/

namespace JavaClass.SlotVector

variable {α : Type} [HasWidth α] {first : Nat} {elements : List α} {slot i j : Nat}
  {answer : Lookup α}

/-- An element starts at the slot. -/
def IsStart (first : Nat) (elements : List α) (slot : Nat) : Prop :=
  ∃ i < elements.length, slotOf first elements i = slot

instance : Decidable (IsStart first elements slot) :=
  inferInstanceAs (Decidable (∃ i < elements.length, slotOf first elements i = slot))

/-- The element at a position starts before the slot and ends behind it. -/
def GoesOn (first : Nat) (elements : List α) (slot i : Nat) : Prop :=
  ∃ element, elements[i]? = some element ∧ slotOf first elements i < slot ∧
    slot < slotOf first elements i + HasWidth.width element

/-- The slot lies before the first one, or all elements end before it. -/
def IsBeyond (first : Nat) (elements : List α) (slot : Nat) : Prop :=
  slot < first ∨ slotOf first elements elements.length ≤ slot

/-- What an answer says is so. -/
def Lookup.Fits (first : Nat) (elements : List α) (slot : Nat) : Lookup α → Prop
  | .start i element => elements[i]? = some element ∧ slotOf first elements i = slot
  | .inside i => ¬IsStart first elements slot ∧ GoesOn first elements slot i
  | .outside => ¬IsStart first elements slot ∧ IsBeyond first elements slot

theorem isStart_of_getElem? {element : α} (hi : elements[i]? = some element)
    (hslot : slotOf first elements i = slot) : IsStart first elements slot :=
  ⟨i, (List.getElem?_eq_some_iff.mp hi).1, hslot⟩

theorem goesOn_iff :
    GoesOn first elements slot i ↔ i < elements.length ∧ slotOf first elements i < slot ∧
      slot < slotOf first elements (i + 1) := by
  constructor
  · rintro ⟨element, hi, hstart, hstop⟩
    rw [← slotOf_succ hi] at hstop
    exact ⟨(List.getElem?_eq_some_iff.mp hi).1, hstart, hstop⟩
  · rintro ⟨hless, hstart, hstop⟩
    have hi := List.getElem?_eq_getElem hless
    rw [slotOf_succ hi] at hstop
    exact ⟨_, hi, hstart, hstop⟩

theorem GoesOn.le (goesOn : GoesOn first elements slot i) (goesOn' : GoesOn first elements slot j) :
    i ≤ j := by
  obtain ⟨-, hstart, -⟩ := goesOn_iff.mp goesOn
  obtain ⟨-, -, hstop⟩ := goesOn_iff.mp goesOn'
  by_contra hnot
  have hle : slotOf first elements (j + 1) ≤ slotOf first elements i := slotOf_le (by omega)
  omega

theorem GoesOn.unique (goesOn : GoesOn first elements slot i)
    (goesOn' : GoesOn first elements slot j) : i = j :=
  Nat.le_antisymm (goesOn.le goesOn') (goesOn'.le goesOn)

theorem GoesOn.not_isBeyond (goesOn : GoesOn first elements slot i) :
    ¬IsBeyond first elements slot := by
  obtain ⟨hless, hstart, hstop⟩ := goesOn_iff.mp goesOn
  have hfirst : first ≤ slotOf first elements i := slotOf_le (Nat.zero_le i)
  have hlast : slotOf first elements (i + 1) ≤ slotOf first elements elements.length :=
    slotOf_le hless
  rintro (hbefore | hbehind) <;> omega

theorem exists_of_finds_found
    (finds : (Search.found i).Finds ((startingAt first).append elements).starts slot) :
    ∃ element, ((startingAt first).append elements).entries[i]? = some (slot, element) ∧
      elements[i]? = some element ∧ slotOf first elements i = slot := by
  obtain ⟨element, hentry⟩ := getElem?_starts_eq_some_iff.mp finds
  have hmap := (getElem?_entries first elements i).symm.trans hentry
  obtain ⟨_, hi, heq⟩ := Option.map_eq_some_iff.mp hmap
  obtain ⟨hslot, rfl⟩ := Prod.mk.inj heq
  exact ⟨_, hentry, hi, hslot⟩

/-- The place where a slot goes in parts the elements that start before it from those that start
behind it. -/
theorem between_of_finds_missing
    (finds : (Search.missing i).Finds ((startingAt first).append elements).starts slot) :
    ¬IsStart first elements slot ∧ i ≤ elements.length ∧
      (∀ j < i, slotOf first elements j < slot) ∧
        ∀ j < elements.length, i ≤ j → slot < slotOf first elements j := by
  obtain ⟨absent, bound, ordered⟩ := finds
  rw [starts_append] at absent bound ordered
  rw [List.length_map, List.length_range] at bound
  have absent : ¬IsStart first elements slot := by simpa [IsStart] using absent
  obtain ⟨-, behind, before⟩ := List.pairwise_append.mp ordered
  -- the order gives `≤` on both sides, and no element starts at the slot
  refine ⟨absent, bound, fun j hj => ?_, fun j hless hj => ?_⟩
  · have mem : slotOf first elements j ∈
        ((List.range elements.length).map (slotOf first elements)).take i :=
      List.mem_take_iff_getElem.mpr ⟨j, by simp; omega, by simp⟩
    have hle := before _ mem slot List.mem_cons_self
    exact Nat.lt_of_le_of_ne hle fun heq => absent ⟨j, by omega, heq⟩
  · have mem : slotOf first elements j ∈
        ((List.range elements.length).map (slotOf first elements)).drop i :=
      List.mem_drop_iff_getElem.mpr ⟨j - i, by simp; omega, by simp [Nat.add_sub_cancel' hj]⟩
    have hle := (List.pairwise_cons.mp behind).1 _ mem
    exact Nat.lt_of_le_of_ne hle fun heq => absent ⟨j, hless, heq.symm⟩

/-- The answer that is made of what a search says is right if the search is. -/
theorem fits_resolve {outcome : Search}
    (finds : outcome.Finds ((startingAt first).append elements).starts slot) :
    (((startingAt first).append elements).resolve slot outcome).Fits first elements slot := by
  cases outcome with
  | found i =>
      obtain ⟨element, hentry, hi, hslot⟩ := exists_of_finds_found finds
      rw [resolve, hentry]
      exact ⟨hi, hslot⟩
  | missing i =>
      obtain ⟨absent, bound, before, behind⟩ := between_of_finds_missing finds
      cases i with
      | zero =>
          refine ⟨absent, ?_⟩
          obtain hempty | hless := Nat.eq_zero_or_pos elements.length
          · rw [IsBeyond, hempty]
            exact Nat.lt_or_ge slot first
          · exact .inl (behind 0 hless (Nat.le_refl 0))
      | succ last =>
          rw [resolve, next_startingAt]
          split
          · rename_i hbeyond
            exact ⟨absent, .inr hbeyond⟩
          · rename_i hless
            refine ⟨absent, goesOn_iff.mpr ⟨bound, before last (Nat.lt_succ_self last), ?_⟩⟩
            -- the element ends where the next one starts, or at the next slot if it is the last one
            obtain hlast | hmore := Nat.eq_or_lt_of_le bound
            · rw [← hlast] at hless
              exact Nat.lt_of_not_le hless
            · exact behind (last + 1) hmore (Nat.le_refl _)

/-- The layout of the elements decides the answer, up to the choice among elements with one
start. -/
structure Answers (first : Nat) (elements : List α) (slot : Nat) (answer : Lookup α) : Prop where
  start : ∀ i element, answer = .start i element →
    elements[i]? = some element ∧ slotOf first elements i = slot
  exists_start : IsStart first elements slot → ∃ i element, answer = .start i element
  inside_iff : ∀ i, answer = .inside i ↔
    ¬IsStart first elements slot ∧ GoesOn first elements slot i
  unique : ∀ i j, GoesOn first elements slot i → GoesOn first elements slot j → i = j
  outside_iff : answer = .outside ↔ ¬IsStart first elements slot ∧ IsBeyond first elements slot

/-- Answers of two kinds never fit one slot, so the right one is given whenever it is due. -/
theorem Lookup.Fits.answers (fits : answer.Fits first elements slot) :
    Answers first elements slot answer := by
  cases answer with
  | start i element =>
      obtain ⟨hi, hslot⟩ := fits
      have isStart := isStart_of_getElem? hi hslot
      exact {
        start := by rintro _ _ ⟨⟩; exact ⟨hi, hslot⟩
        exists_start := fun _ => ⟨i, element, rfl⟩
        inside_iff := fun j => ⟨nofun, fun h => absurd isStart h.1⟩
        unique := fun _ _ => GoesOn.unique
        outside_iff := ⟨nofun, fun h => absurd isStart h.1⟩ }
  | inside i =>
      obtain ⟨absent, goesOn⟩ := fits
      exact {
        start := nofun
        exists_start := fun isStart => absurd isStart absent
        inside_iff := by
          refine fun j => ⟨?_, fun h => congrArg _ (goesOn.unique h.2)⟩
          rintro ⟨⟩
          exact ⟨absent, goesOn⟩
        unique := fun _ _ => GoesOn.unique
        outside_iff := ⟨nofun, fun h => absurd h.2 goesOn.not_isBeyond⟩ }
  | outside =>
      obtain ⟨absent, isBeyond⟩ := fits
      exact {
        start := nofun
        exists_start := fun isStart => absurd isStart absent
        inside_iff := fun i => ⟨nofun, fun h => absurd isBeyond h.2.not_isBeyond⟩
        unique := fun _ _ => GoesOn.unique
        outside_iff := ⟨fun _ => ⟨absent, isBeyond⟩, fun _ => rfl⟩ }

theorem withSlots_append (first : Nat) (elements : List α) :
    ((startingAt first).append elements).withSlots =
      elements.zipIdx.map fun (element, i) => (slotOf first elements i, i, element) := by
  refine List.ext_getElem ?_ fun i _ _ => ?_
  · rw [withSlots, List.length_map, List.length_zipIdx, length_entries, List.length_map,
      List.length_zipIdx]
  · simp only [withSlots, List.getElem_map, List.getElem_zipIdx, getElem_entries,
      List.get_eq_getElem, Nat.zero_add]

/-- A search that keeps its promise among all starts that are in order. -/
def FindsInOrder (search : List Nat → Nat → Search) : Prop :=
  ∀ starts slot, starts.Pairwise (· ≤ ·) → (search starts slot).Finds starts slot

/-- The search by bisection, among starts alone. -/
def bisected (starts : List Nat) (slot : Nat) : Search :=
  SlotVector.search ⟨(starts.map (·, ())).toArray, 0⟩ slot

theorem findsInOrder_bisected : FindsInOrder bisected := by
  intro starts slot sorted
  have hstarts : SlotVector.starts ⟨(starts.map (·, ())).toArray, 0⟩ = starts := by
    simp [SlotVector.starts, Function.comp_def]
  have finds := finds_search (v := ⟨(starts.map (·, ())).toArray, 0⟩)
    (pairwise_starts_iff.mp (hstarts.symm ▸ sorted)) slot
  rw [hstarts] at finds
  exact finds

/-- An element of as many slots as it says. -/
structure Block where
  width : Nat
  deriving DecidableEq

instance : HasWidth Block := ⟨Block.width⟩

/-- Blocks of no slots before, between and behind those that take some. -/
def blocks : List Block := [⟨0⟩, ⟨2⟩, ⟨0⟩, ⟨0⟩, ⟨3⟩, ⟨0⟩]

/-- Look-ups answer by the layout of the elements, with any search that finds what is in order and
with bisection. An element gets the slot behind the widths of those that were added before it, and
the list of the elements with their slots and positions has each of them once, in order. -/
theorem lookup_answers {search : List Nat → Nat → Search} (finds : FindsInOrder search)
    (first : Nat) (elements : List α) (slot : Nat) :
    let v := (startingAt first).append elements
    Answers first elements slot (v.resolve slot (search v.starts slot)) ∧
      Answers first elements slot (v.lookup slot) ∧
      (∀ i, ((startingAt first).append (elements.take i)).next = slotOf first elements i) ∧
      v.next = slotOf first elements elements.length ∧
      v.withSlots =
        elements.zipIdx.map fun (element, i) => (slotOf first elements i, i, element) := by
  intro v
  have sorted : Sorted v.entries := sorted_append first elements
  refine ⟨?_, ?_, fun i => next_append .., next_startingAt .., withSlots_append ..⟩
  · exact (fits_resolve (finds v.starts slot (pairwise_starts_iff.mpr sorted))).answers
  · exact (fits_resolve (finds_search sorted slot)).answers

theorem lookup_answers_blocks :
    FindsInOrder bisected ∧
      let v := (startingAt 1).append blocks
      v.resolve 2 (bisected v.starts 2) = .inside 1 ∧ v.lookup 2 = .inside 1 ∧
      (∃ i element, v.lookup 3 = .start i element ∧ blocks[i]? = some element ∧
        slotOf 1 blocks i = 3) ∧
      v.lookup 7 = .outside ∧
      v.withSlots =
        [(1, 0, ⟨0⟩), (1, 1, ⟨2⟩), (3, 2, ⟨0⟩), (3, 3, ⟨0⟩), (3, 4, ⟨3⟩), (6, 5, ⟨0⟩)] := by
  have answers (slot : Nat) := lookup_answers findsInOrder_bisected 1 blocks slot
  obtain ⟨searched, found, -, -, listed⟩ := answers 2
  obtain ⟨-, shared, -⟩ := answers 3
  obtain ⟨-, behind, -⟩ := answers 7
  have inside : ¬IsStart 1 blocks 2 ∧ GoesOn 1 blocks 2 1 :=
    ⟨by decide, ⟨2⟩, rfl, by decide, by decide⟩
  refine ⟨findsInOrder_bisected, (searched.inside_iff 1).mpr inside,
    (found.inside_iff 1).mpr inside, ?_, ?_, listed⟩
  · obtain ⟨i, element, h⟩ := shared.exists_start (by decide)
    exact ⟨i, element, h, shared.start i element h⟩
  · exact behind.outside_iff.mpr ⟨by decide, .inr (by decide)⟩

end JavaClass.SlotVector
