import JavaClass.Proofs.Listing.Basic

/-!
# Arranging an outline

An outline is arranged by placing a label wherever something is referred to, and
the lines of that position right behind the label. The outline of what was
arranged is the outline itself, with its lines put in the order of their
positions, and the arrangement does not depend on the order of the lines of
different positions.
-/

namespace JavaClass

namespace Outline

/-- The positions that something refers to, some of them several times. -/
def mentioned (o : Outline) : List Nat :=
  o.instructions.flatMap Instruction.targets ++ o.blocks.flatMap TryBlock.targets ++
    o.lines.map (·.1)

/-- Exchanges the positions. -/
def map (f : Nat → Nat) (o : Outline) : Outline :=
  ⟨o.instructions.map (·.map f), o.blocks.map (·.map f), o.lines.map fun line => (f line.1, line.2),
    o.maxStack, o.maxLocals⟩

/-- The lines that start at a position. -/
def linesAt (o : Outline) (position : Nat) : List UInt16 :=
  (o.lines.filter (·.1 = position)).map (·.2)

/-- The label at a position and the lines that start there, if anything refers to it. -/
def marks (o : Outline) (position : Nat) : List (Instruction Nat) :=
  if position ∈ o.mentioned then
    .label position :: (o.linesAt position).map fun number => .line number position
  else []

/-- Instructions from a position on, with the marks before each of them and behind the last. -/
def arrangeFrom (o : Outline) : (position : Nat) → List (Instruction Nat) → List (Instruction Nat)
  | position, [] => o.marks position
  | position, i :: rest => o.marks position ++ i :: o.arrangeFrom (position + 1) rest

/-- The outline with its positions for labels. -/
def arrange (o : Outline) : Listing Nat :=
  ⟨o.arrangeFrom 0 o.instructions, o.blocks, o.maxStack, o.maxLocals⟩

/-- No instruction is a mark, and all positions lie within the code or right behind it. -/
structure Proper (o : Outline) : Prop where
  code : ∀ i ∈ o.instructions, i.isPseudo = false
  bound : ∀ position ∈ o.mentioned, position ≤ o.instructions.length

/-- Two outlines that differ at most in the order of the lines of different positions. -/
structure Same (o o' : Outline) : Prop where
  instructions : o'.instructions = o.instructions
  blocks : o'.blocks = o.blocks
  linesAt : ∀ position, o'.linesAt position = o.linesAt position
  maxStack : o'.maxStack = o.maxStack
  maxLocals : o'.maxLocals = o.maxLocals

variable {o o' : Outline}

theorem mentioned_map (f : Nat → Nat) (o : Outline) :
    (o.map f).mentioned = o.mentioned.map f := by
  simp only [mentioned, map, List.flatMap_map, Instruction.targets_map, TryBlock.targets_map,
    List.map_append, List.map_flatMap, List.map_map, Function.comp_def]

theorem map_map (f g : Nat → Nat) (o : Outline) : (o.map f).map g = o.map (g ∘ f) := by
  simp [map, Function.comp_def, Instruction.map_map, TryBlock.map_map]

theorem map_eq_self {f : Nat → Nat} (h : ∀ position ∈ o.mentioned, f position = position) :
    o.map f = o := by
  have hinstructions : o.instructions.map (·.map f) = o.instructions := by
    rw [List.map_congr_left (g := id), List.map_id]
    intro i hi
    rw [Instruction.map_congr (g := id), Instruction.map_id]
    · rfl
    · intro position hposition
      refine h position (List.mem_append_left _ (List.mem_append_left _ ?_))
      exact List.mem_flatMap.mpr ⟨i, hi, hposition⟩
  have hblocks : o.blocks.map (·.map f) = o.blocks := by
    rw [List.map_congr_left (g := id), List.map_id]
    intro block hblock
    rw [TryBlock.map_congr (g := id)]
    · rfl
    · intro position hposition
      refine h position (List.mem_append_left _ (List.mem_append_right _ ?_))
      exact List.mem_flatMap.mpr ⟨block, hblock, hposition⟩
  have hlines : (o.lines.map fun line => (f line.1, line.2)) = o.lines := by
    rw [List.map_congr_left (g := id), List.map_id]
    intro line hline
    exact Prod.ext (h line.1 (List.mem_append_right _ (List.mem_map_of_mem hline))) rfl
  rw [map, hinstructions, hblocks, hlines]

theorem mem_lines_iff {position : Nat} :
    position ∈ o.lines.map (·.1) ↔ o.linesAt position ≠ [] := by
  simp only [linesAt, ne_eq, List.map_eq_nil_iff, List.filter_eq_nil_iff, List.mem_map,
    decide_eq_true_iff, not_forall, not_not, exists_prop]

theorem Same.mem_mentioned_iff (same : o.Same o') {position : Nat} :
    position ∈ o'.mentioned ↔ position ∈ o.mentioned := by
  simp only [mentioned, List.mem_append, mem_lines_iff, same.instructions, same.blocks,
    same.linesAt]

theorem Same.marks (same : o.Same o') (position : Nat) : o'.marks position = o.marks position := by
  simp only [Outline.marks, same.mem_mentioned_iff, same.linesAt]

theorem Same.arrangeFrom (same : o.Same o') (position : Nat) (is : List (Instruction Nat)) :
    o'.arrangeFrom position is = o.arrangeFrom position is := by
  induction is generalizing position with
  | nil => exact same.marks position
  | cons i rest ih => rw [Outline.arrangeFrom, Outline.arrangeFrom, same.marks, ih]

/-- The arrangement only depends on the lines of each position. -/
theorem Same.arrange (same : o.Same o') : o'.arrange = o.arrange := by
  rw [Outline.arrange, Outline.arrange, same.instructions, same.arrangeFrom, same.blocks,
    same.maxStack, same.maxLocals]

theorem linesAt_eq_nil {position : Nat} (h : position ∉ o.mentioned) :
    o.linesAt position = [] := by
  by_contra hne
  exact h (List.mem_append_right _ (mem_lines_iff.mpr hne))

theorem mem_marks {position : Nat} {i : Instruction Nat} (h : i ∈ o.marks position) :
    position ∈ o.mentioned ∧
      (i = .label position ∨ ∃ number ∈ o.linesAt position, i = .line number position) := by
  unfold marks at h
  split at h
  · rename_i hmem
    obtain rfl | h := List.mem_cons.mp h
    · exact ⟨hmem, .inl rfl⟩
    · obtain ⟨number, hnumber, rfl⟩ := List.mem_map.mp h
      exact ⟨hmem, .inr ⟨number, hnumber, rfl⟩⟩
  · cases h

theorem isPseudo_marks {position : Nat} {i : Instruction Nat} (h : i ∈ o.marks position) :
    i.isPseudo = true := by
  obtain ⟨-, rfl | ⟨number, -, rfl⟩⟩ := mem_marks h
  · rfl
  · rfl

theorem filter_marks (position : Nat) : (o.marks position).filter (!·.isPseudo) = [] := by
  rw [List.filter_eq_nil_iff]
  intro i hi
  simp [isPseudo_marks hi]

/-- The instructions among the marks are those of the outline. -/
theorem filter_arrangeFrom {is : List (Instruction Nat)} (code : ∀ i ∈ is, i.isPseudo = false)
    (position : Nat) : (o.arrangeFrom position is).filter (!·.isPseudo) = is := by
  induction is generalizing position with
  | nil => exact filter_marks position
  | cons i rest ih =>
      have hi := code i List.mem_cons_self
      rw [arrangeFrom, List.filter_append, filter_marks, List.nil_append,
        List.filter_cons_of_pos (by simp [hi]), ih fun j hj => code j (List.mem_cons_of_mem _ hj)]

theorem filter_arrange (proper : o.Proper) :
    o.arrange.instructions.filter (!·.isPseudo) = o.instructions :=
  filter_arrangeFrom proper.code 0

theorem mem_of_mem_arrange (proper : o.Proper) {i : Instruction Nat}
    (mem : i ∈ o.arrange.instructions) (coded : i.isPseudo = false) : i ∈ o.instructions := by
  rw [← filter_arrange proper]
  exact List.mem_filter.mpr ⟨mem, by simp [coded]⟩

theorem targets_arrangeFrom {is : List (Instruction Nat)}
    (his : ∀ i ∈ is, ∀ position ∈ i.targets, position ∈ o.mentioned) (start : Nat) :
    ∀ i ∈ o.arrangeFrom start is, ∀ position ∈ i.targets, position ∈ o.mentioned := by
  have hmarks : ∀ start, ∀ i ∈ o.marks start, ∀ position ∈ i.targets, position ∈ o.mentioned := by
    intro start i hi position hposition
    obtain ⟨hmem, rfl | ⟨number, -, rfl⟩⟩ := mem_marks hi
    · rwa [List.mem_singleton.mp hposition]
    · rwa [List.mem_singleton.mp hposition]
  induction is generalizing start with
  | nil => exact hmarks start
  | cons i rest ih =>
      intro j hj
      obtain hj | hj := List.mem_append.mp hj
      · exact hmarks start j hj
      · obtain rfl | hj := List.mem_cons.mp hj
        · exact his j List.mem_cons_self
        · exact ih (fun k hk => his k (List.mem_cons_of_mem _ hk)) _ j hj

/-- An arrangement refers to what the outline mentions. -/
theorem mem_mentioned_of_referenced {position : Nat} (h : position ∈ o.arrange.referenced) :
    position ∈ o.mentioned := by
  obtain h | h := List.mem_append.mp h
  · obtain ⟨i, hi, hposition⟩ := List.mem_flatMap.mp h
    refine targets_arrangeFrom (fun j hj k hk => ?_) 0 i hi position hposition
    exact List.mem_append_left _ (List.mem_append_left _ (List.mem_flatMap.mpr ⟨j, hj, hk⟩))
  · exact List.mem_append_left _ (List.mem_append_right _ h)

theorem position_arrangeFrom {is : List (Instruction Nat)} (code : ∀ i ∈ is, i.isPseudo = false)
    {start position : Nat} (hmem : position ∈ o.mentioned) (hstart : start ≤ position)
    (hstop : position ≤ start + is.length) :
    Listing.position (o.arrangeFrom start is) position = position - start := by
  have hmarks (rest : List (Instruction Nat)) :
      Listing.position (o.marks position ++ rest) position = 0 := by
    rw [marks, if_pos hmem, List.cons_append, Listing.position_label]
  induction is generalizing start with
  | nil =>
      obtain rfl : start = position := by simpa using Nat.le_antisymm hstart hstop
      have h := hmarks []
      rw [List.append_nil] at h
      rw [arrangeFrom, h, Nat.sub_self]
  | cons i rest ih =>
      obtain rfl | hlt := Nat.eq_or_lt_of_le hstart
      · rw [arrangeFrom, hmarks, Nat.sub_self]
      · have hi := code i List.mem_cons_self
        rw [List.length_cons] at hstop
        have hrest := ih (fun j hj => code j (List.mem_cons_of_mem _ hj)) hlt (by omega)
        have hother : ∀ j ∈ o.marks start, j.isPseudo ∧ j ≠ .label position := by
          intro j hj
          refine ⟨isPseudo_marks hj, ?_⟩
          obtain ⟨-, rfl | ⟨number, -, rfl⟩⟩ := mem_marks hj
          · simpa using Nat.ne_of_lt hlt
          · simp
        have hne : i ≠ .label position := by
          rintro rfl
          cases hi
        rw [arrangeFrom, Listing.position_marks hother, Listing.position_cons hne, hi, hrest]
        simp only [Bool.false_eq_true, if_false]
        omega

theorem position_arrange (proper : o.Proper) {position : Nat} (h : position ∈ o.mentioned) :
    Listing.position o.arrange.instructions position = position := by
  have hbound := proper.bound position h
  exact position_arrangeFrom proper.code h (Nat.zero_le _) (by omega)

theorem count_marks (start position : Nat) : (o.marks start).count (.label position) =
    if start = position ∧ position ∈ o.mentioned then 1 else 0 := by
  have hlines : ((o.linesAt start).map fun number => Instruction.line number start).count
      (.label position) = 0 := by
    rw [List.count_eq_zero]
    simp
  unfold marks
  split
  · rename_i hmem
    rw [List.count_cons, hlines, Nat.zero_add]
    by_cases heq : start = position
    · subst heq
      simp [hmem]
    · simp [heq]
  · rename_i hmem
    rw [if_neg]
    · rfl
    · rintro ⟨rfl, h⟩
      exact hmem h

theorem count_arrangeFrom {is : List (Instruction Nat)} (code : ∀ i ∈ is, i.isPseudo = false)
    {start position : Nat} (hmem : position ∈ o.mentioned) :
    (o.arrangeFrom start is).count (.label position) =
      if start ≤ position ∧ position ≤ start + is.length then 1 else 0 := by
  induction is generalizing start with
  | nil =>
      rw [arrangeFrom, count_marks]
      simp only [hmem, and_true, List.length_nil, Nat.add_zero]
      by_cases heq : start = position
      · simp [heq]
      · rw [if_neg heq, if_neg]
        omega
  | cons i rest ih =>
      have hi := code i List.mem_cons_self
      have hne : i ≠ .label position := by
        rintro rfl
        cases hi
      rw [arrangeFrom, List.count_append, count_marks, List.count_cons_of_ne (by simpa using hne),
        ih fun j hj => code j (List.mem_cons_of_mem _ hj)]
      simp only [hmem, and_true, List.length_cons]
      split <;> split <;> split <;> omega

/-- Each label of an arrangement has exactly one place. -/
theorem placed_arrange (proper : o.Proper) : o.arrange.Placed := by
  intro position h
  have hmem := mem_mentioned_of_referenced h
  have hbound := proper.bound position hmem
  unfold arrange
  rw [count_arrangeFrom proper.code hmem, if_pos]
  omega

/-- The lines among the marks of a position are those of the position. -/
theorem filterMap_marks (o : Outline) (start : Nat) :
    (o.marks start).filterMap Instruction.line? =
      (o.linesAt start).map fun number => (start, number) := by
  unfold marks
  split
  · rw [List.filterMap_cons_none rfl, List.filterMap_map]
    exact List.filterMap_eq_map.symm ▸ rfl
  · rename_i hmem
    rw [linesAt_eq_nil hmem]
    rfl

theorem linesAt_marks (start position : Nat) :
    (((o.marks start).filterMap Instruction.line?).filter (·.1 = position)).map (·.2) =
      if start = position then o.linesAt position else [] := by
  rw [filterMap_marks]
  by_cases heq : start = position
  · subst heq
    simp [Function.comp_def, List.filter_map]
  · simp [heq, Function.comp_def, List.filter_map]

theorem linesAt_arrangeFrom {is : List (Instruction Nat)} (code : ∀ i ∈ is, i.isPseudo = false)
    (start position : Nat) :
    (((o.arrangeFrom start is).filterMap Instruction.line?).filter (·.1 = position)).map (·.2) =
      if start ≤ position ∧ position ≤ start + is.length then o.linesAt position else [] := by
  induction is generalizing start with
  | nil =>
      rw [arrangeFrom, linesAt_marks, List.length_nil, Nat.add_zero]
      by_cases heq : start = position
      · simp [heq]
      · rw [if_neg heq, if_neg]
        omega
  | cons i rest ih =>
      have hi := code i List.mem_cons_self
      rw [arrangeFrom, List.filterMap_append, List.filter_append, List.map_append, linesAt_marks,
        List.filterMap_cons_none (Instruction.line?_eq_none hi),
        ih (fun j hj => code j (List.mem_cons_of_mem _ hj)), List.length_cons]
      by_cases heq : start = position
      · rw [if_pos heq, if_neg (by omega), if_pos (by omega), List.append_nil]
      · rw [if_neg heq, List.nil_append]
        by_cases hrest : start + 1 ≤ position ∧ position ≤ start + 1 + rest.length
        · rw [if_pos hrest, if_pos (by omega)]
        · rw [if_neg hrest, if_neg (by omega)]

/-- The lines of a position, in their order, are those of the outline. -/
theorem linesAt_arrange (proper : o.Proper) (position : Nat) :
    ((o.arrange.instructions.filterMap Instruction.line?).filter (·.1 = position)).map (·.2) =
      o.linesAt position := by
  unfold arrange
  rw [linesAt_arrangeFrom proper.code]
  split
  · rfl
  · rename_i hout
    refine (linesAt_eq_nil fun hmem => hout ?_).symm
    have hbound := proper.bound position hmem
    omega

/-- Lists of lines that agree at each position have the same lines. -/
theorem perm_of_linesAt {first second : List (Nat × UInt16)}
    (h : ∀ position, (first.filter (·.1 = position)).map (·.2) =
      (second.filter (·.1 = position)).map (·.2)) : first.Perm second := by
  have hcount (lines : List (Nat × UInt16)) (line : Nat × UInt16) :
      lines.count line = ((lines.filter (·.1 = line.1)).map (·.2)).count line.2 := by
    rw [List.count, List.count, List.countP_map, List.countP_filter]
    apply List.countP_congr
    intro other _
    simp [Prod.ext_iff, and_comm]
  apply List.perm_iff_count.mpr
  intro line
  rw [hcount first, hcount second, h]

/-- Every line of the outline is placed exactly once. -/
theorem perm_lines_arrange (proper : o.Proper) :
    (o.arrange.instructions.filterMap Instruction.line?).Perm o.lines := by
  apply perm_of_linesAt
  exact linesAt_arrange proper

theorem lines_outline_arrange (proper : o.Proper) :
    o.arrange.outline.lines = o.arrange.instructions.filterMap Instruction.line? := by
  change (o.arrange.instructions.filterMap Instruction.line?).map _ = _
  rw [List.map_congr_left (g := id), List.map_id]
  intro line hline
  obtain ⟨i, hi, hsome⟩ := List.mem_filterMap.mp hline
  refine Prod.ext (position_arrange proper ?_) rfl
  refine mem_mentioned_of_referenced (List.mem_append_left _ ?_)
  exact List.mem_flatMap.mpr ⟨i, hi, Instruction.mem_targets_of_line? hsome⟩

/-- The outline of an arranged outline is the same. -/
theorem outline_arrange (proper : o.Proper) : o.Same o.arrange.outline := by
  have hlabel {position : Nat} (h : position ∈ o.mentioned) :
      Listing.position o.arrange.instructions position = id position := position_arrange proper h
  refine ⟨?_, ?_, fun position => ?_, rfl, rfl⟩
  · change ((o.arrangeFrom 0 o.instructions).filter (!·.isPseudo)).map _ = _
    rw [filter_arrangeFrom proper.code, List.map_congr_left (g := id), List.map_id]
    intro i hi
    rw [Instruction.map_congr (g := id)]
    · exact i.map_id
    · intro label hlabel'
      refine hlabel (List.mem_append_left _ (List.mem_append_left _ ?_))
      exact List.mem_flatMap.mpr ⟨i, hi, hlabel'⟩
  · change o.blocks.map _ = _
    rw [List.map_congr_left (g := id), List.map_id]
    intro block hblock
    rw [TryBlock.map_congr (g := id)]
    · rfl
    · intro label hlabel'
      refine hlabel (List.mem_append_left _ (List.mem_append_right _ ?_))
      exact List.mem_flatMap.mpr ⟨block, hblock, hlabel'⟩
  · rw [linesAt, lines_outline_arrange proper, linesAt_arrange proper]

/-- Lines that are in the order of their positions are those of another list in that order if both
have the same lines at each position, in the same order there. -/
theorem eq_of_sorted_of_filter {first second : List (Nat × UInt16)}
    (sorted : first.Pairwise (·.1 ≤ ·.1)) (sorted' : second.Pairwise (·.1 ≤ ·.1))
    (h : ∀ position, first.filter (·.1 = position) = second.filter (·.1 = position)) :
    first = second := by
  induction first generalizing second with
  | nil =>
      cases second with
      | nil => rfl
      | cons other rest => simpa using h other.1
  | cons line lines ih =>
      cases second with
      | nil => simpa using h line.1
      | cons other rest =>
          -- both start with the lines of the smallest position
          have hmem : line ∈ other :: rest := by
            refine List.mem_of_mem_filter (p := (·.1 = line.1)) ?_
            rw [← h line.1]
            simp
          have hmem' : other ∈ line :: lines := by
            refine List.mem_of_mem_filter (p := (·.1 = other.1)) ?_
            rw [h other.1]
            simp
          have hle : other.1 ≤ line.1 := by
            obtain rfl | hmem := List.mem_cons.mp hmem
            · exact Nat.le_refl _
            · exact List.rel_of_pairwise_cons sorted' hmem
          have hle' : line.1 ≤ other.1 := by
            obtain rfl | hmem := List.mem_cons.mp hmem'
            · exact Nat.le_refl _
            · exact List.rel_of_pairwise_cons sorted hmem
          have heq : line.1 = other.1 := Nat.le_antisymm hle' hle
          obtain rfl : line = other := by
            have hfilter := h line.1
            rw [List.filter_cons_of_pos (by simp), List.filter_cons_of_pos (by simp [heq])]
              at hfilter
            exact (List.cons.inj hfilter).1
          refine congrArg (line :: ·) (ih sorted.of_cons sorted'.of_cons fun position => ?_)
          have hfilter := h position
          rw [List.filter_cons, List.filter_cons] at hfilter
          split at hfilter
          · exact (List.cons.inj hfilter).2
          · exact hfilter

/-- Sorting lines by their positions keeps the lines of each position in their order. -/
theorem filter_mergeSort (lines : List (Nat × UInt16)) (position : Nat) :
    (lines.mergeSort (·.1 ≤ ·.1)).filter (·.1 = position) = lines.filter (·.1 = position) := by
  have hsublist : (lines.filter (·.1 = position)).Sublist (lines.mergeSort (·.1 ≤ ·.1)) := by
    refine List.sublist_mergeSort (fun a b c hab hbc => ?_) (fun a b => ?_) ?_
      List.filter_sublist
    · simp only [decide_eq_true_iff] at hab hbc ⊢
      omega
    · simp only [Bool.or_eq_true, decide_eq_true_iff]
      omega
    · refine List.pairwise_filter.mpr (List.pairwise_of_forall fun a b ha hb => ?_)
      simp_all
  have hlength := ((List.mergeSort_perm lines (·.1 ≤ ·.1)).filter (·.1 = position)).length_eq
  refine (List.Sublist.eq_of_length ?_ hlength.symm).symm
  simpa using hsublist.filter (·.1 = position)

theorem filter_eq_map (lines : List (Nat × UInt16)) (position : Nat) :
    lines.filter (·.1 = position) =
      ((lines.filter (·.1 = position)).map (·.2)).map fun number => (position, number) := by
  rw [List.map_map, List.map_congr_left (g := id), List.map_id]
  intro line hline
  have hposition : line.1 = position := by simpa using (List.mem_filter.mp hline).2
  exact Prod.ext hposition.symm rfl

/-- The lines of an arrangement come in the order of their positions. -/
theorem sorted_lines_arrangeFrom {is : List (Instruction Nat)}
    (code : ∀ i ∈ is, i.isPseudo = false) (start : Nat) :
    ((o.arrangeFrom start is).filterMap Instruction.line?).Pairwise (·.1 ≤ ·.1) ∧
      ∀ line ∈ (o.arrangeFrom start is).filterMap Instruction.line?, start ≤ line.1 := by
  have hmarks (start : Nat) : ((o.marks start).filterMap Instruction.line?).Pairwise (·.1 ≤ ·.1) ∧
      ∀ line ∈ (o.marks start).filterMap Instruction.line?, line.1 = start := by
    rw [filterMap_marks]
    refine ⟨List.pairwise_map.mpr (List.pairwise_of_forall fun _ _ => Nat.le_refl start), ?_⟩
    intro line hline
    obtain ⟨number, -, rfl⟩ := List.mem_map.mp hline
    rfl
  induction is generalizing start with
  | nil =>
      obtain ⟨hsorted, hstart⟩ := hmarks start
      exact ⟨hsorted, fun line hline => (hstart line hline).ge⟩
  | cons i rest ih =>
      obtain ⟨hsorted, hstart⟩ := hmarks start
      obtain ⟨hrest, hbound⟩ := ih (fun j hj => code j (List.mem_cons_of_mem _ hj)) (start + 1)
      rw [arrangeFrom, List.filterMap_append,
        List.filterMap_cons_none (Instruction.line?_eq_none (code i List.mem_cons_self))]
      refine ⟨List.pairwise_append.mpr ⟨hsorted, hrest, fun line hline later hlater => ?_⟩,
        fun line hline => ?_⟩
      · have hline := hstart line hline
        have hlater := hbound later hlater
        omega
      · obtain hline | hline := List.mem_append.mp hline
        · exact (hstart line hline).ge
        · exact Nat.le_of_succ_le (hbound line hline)

/-- Arranging an outline sorts its lines by their positions, and keeps the order of the lines of
each position. -/
theorem lines_arrange (proper : o.Proper) :
    o.arrange.outline.lines = o.lines.mergeSort (·.1 ≤ ·.1) := by
  rw [lines_outline_arrange proper]
  apply eq_of_sorted_of_filter (sorted_lines_arrangeFrom proper.code 0).1
  · refine (List.pairwise_mergeSort (fun a b c hab hbc => ?_) (fun a b => ?_) o.lines).imp
      fun h => of_decide_eq_true h
    · simp only [decide_eq_true_iff] at hab hbc ⊢
      omega
    · simp only [Bool.or_eq_true, decide_eq_true_iff]
      omega
  · intro position
    have hlines := linesAt_arrange proper position
    rw [arrange] at hlines
    rw [filter_mergeSort, filter_eq_map, hlines, linesAt, ← filter_eq_map]

/-- The marks of a position stand right before the instruction there, or at the end. -/
theorem exists_cut_arrangeFrom {is : List (Instruction Nat)}
    (code : ∀ i ∈ is, i.isPseudo = false) {start count : Nat} (h : count ≤ is.length) :
    ∃ before after, o.arrangeFrom start is = before ++ (o.marks (start + count) ++ after) ∧
      before.filter (!·.isPseudo) = is.take count ∧
      (count = is.length ∧ after = [] ∨
        ∃ i rest, is[count]? = some i ∧ after = i :: rest) := by
  induction is generalizing start count with
  | nil =>
      obtain rfl := Nat.le_zero.mp h
      exact ⟨[], [], by simp [arrangeFrom], rfl, .inl ⟨rfl, rfl⟩⟩
  | cons i rest ih =>
      cases count with
      | zero => exact ⟨[], i :: o.arrangeFrom (start + 1) rest, rfl, rfl, .inr ⟨i, _, rfl, rfl⟩⟩
      | succ count =>
          have hi := code i List.mem_cons_self
          obtain ⟨before, after, hcut, hbefore, hafter⟩ :=
            @ih (fun j hj => code j (List.mem_cons_of_mem _ hj)) (start + 1) count
              (Nat.le_of_succ_le_succ h)
          refine ⟨o.marks start ++ i :: before, after, ?_, ?_, ?_⟩
          · rw [arrangeFrom, hcut, Nat.succ_add_eq_add_succ, List.append_assoc, List.cons_append]
          · rw [List.filter_append, filter_marks, List.nil_append,
              List.filter_cons_of_pos (by simp [hi]), hbefore, List.take_succ_cons]
          · simpa using hafter

theorem length_marks_le (position : Nat) :
    (o.marks position).length ≤ 1 + (o.lines.filter (·.1 = position)).length := by
  unfold marks
  split
  · rw [List.length_cons, List.length_map, linesAt, List.length_map]
    omega
  · exact Nat.zero_le _

theorem length_filter_lines (position : Nat) :
    (o.lines.filter (position ≤ ·.1)).length =
      (o.lines.filter (·.1 = position)).length +
        (o.lines.filter (position + 1 ≤ ·.1)).length := by
  induction o.lines with
  | nil => rfl
  | cons line rest ih =>
      obtain hlt | rfl | hgt := Nat.lt_trichotomy line.1 position
      · rw [List.filter_cons_of_neg (by simpa using hlt),
          List.filter_cons_of_neg (by simpa using Nat.ne_of_lt hlt),
          List.filter_cons_of_neg (by simp; omega), ih]
      · rw [List.filter_cons_of_pos (by simp), List.filter_cons_of_pos (by simp),
          List.filter_cons_of_neg (by simp), List.length_cons, List.length_cons, ih]
        omega
      · rw [List.filter_cons_of_pos (by simp; omega),
          List.filter_cons_of_neg (by simpa using Nat.ne_of_gt hgt),
          List.filter_cons_of_pos (by simp; omega), List.length_cons, List.length_cons, ih]
        omega

theorem length_arrangeFrom_le (position : Nat) (is : List (Instruction Nat)) :
    (o.arrangeFrom position is).length ≤
      2 * is.length + 1 + (o.lines.filter (position ≤ ·.1)).length := by
  have hmarks (position : Nat) := o.length_marks_le position
  have hlines (position : Nat) := o.length_filter_lines position
  induction is generalizing position with
  | nil =>
      have hmark := hmarks position
      have hline := hlines position
      rw [arrangeFrom, List.length_nil]
      omega
  | cons i rest ih =>
      have hmark := hmarks position
      have hline := hlines position
      have hrest := ih (position + 1)
      rw [arrangeFrom, List.length_append, List.length_cons, List.length_cons]
      omega

/-- An arrangement has at most one label for each position. -/
theorem length_arrange_le (o : Outline) :
    o.arrange.instructions.length ≤ 2 * o.instructions.length + 1 + o.lines.length := by
  have h := length_arrangeFrom_le (o := o) 0 o.instructions
  rw [List.filter_eq_self.mpr (by simp)] at h
  exact h

/-- The outline that a class file gives back. -/
def normal (o : Outline) : Outline :=
  { o with instructions := o.instructions.map Instruction.normal }

theorem mentioned_normal (o : Outline) : o.normal.mentioned = o.mentioned := by
  simp [mentioned, normal, List.flatMap_map]

theorem marks_normal (o : Outline) (position : Nat) :
    o.normal.marks position = o.marks position := by
  rw [marks, mentioned_normal, marks]
  rfl

theorem arrangeFrom_normal (o : Outline) (position : Nat) (is : List (Instruction Nat)) :
    o.normal.arrangeFrom position (is.map Instruction.normal) =
      (o.arrangeFrom position is).map Instruction.normal := by
  have hmarks (position : Nat) : (o.marks position).map Instruction.normal = o.marks position := by
    rw [List.map_congr_left (g := id), List.map_id]
    exact fun i hi => Instruction.normal_eq_self (isPseudo_marks hi)
  induction is generalizing position with
  | nil => rw [List.map_nil, arrangeFrom, arrangeFrom, marks_normal, hmarks]
  | cons i rest ih =>
      rw [List.map_cons, arrangeFrom, arrangeFrom, marks_normal, ih, List.map_append, hmarks,
        List.map_cons]

/-- Bringing an outline into normal form leaves its marks where they are. -/
theorem arrange_normal (o : Outline) : o.normal.arrange = o.arrange.normal := by
  rw [arrange, normal, Listing.normal, arrange]
  simp only [Listing.mk.injEq, and_true]
  exact arrangeFrom_normal o 0 o.instructions

theorem Same.normal (same : o.Same o') : o.normal.Same o'.normal :=
  ⟨congrArg (List.map Instruction.normal) same.instructions, same.blocks, same.linesAt,
    same.maxStack, same.maxLocals⟩

theorem Proper.normal (proper : o.Proper) : o.normal.Proper where
  code := by
    intro i hi
    obtain ⟨source, hsource, rfl⟩ := List.mem_map.mp hi
    rw [Instruction.isPseudo_normal, proper.code source hsource]
  bound := by
    rw [mentioned_normal]
    intro position h
    exact (proper.bound position h).trans_eq (List.length_map ..).symm

end Outline

/-- The outline of a listing whose positions are exchanged for what its labels stand for. -/
theorem Listing.outline_normal_map {α : Type} [DecidableEq α] {listing : Listing α} {f : Nat → Nat}
    {g : α → Nat}
    (h : ∀ label ∈ listing.referenced, f (position listing.instructions label) = g label) :
    listing.outline.normal.map f =
      ⟨(listing.instructions.filter (!·.isPseudo)).map fun i => (i.map g).normal,
        listing.blocks.map (·.map g),
        (listing.instructions.filterMap Instruction.line?).map fun line => (g line.1, line.2),
        listing.maxStack, listing.maxLocals⟩ := by
  have hlabel {i : Instruction α} (hi : i ∈ listing.instructions) {label : α}
      (hlabel : label ∈ i.targets) : f (position listing.instructions label) = g label :=
    h label (List.mem_append_left _ (List.mem_flatMap.mpr ⟨i, hi, hlabel⟩))
  rw [Outline.map, Outline.normal, outline]
  simp only [Outline.mk.injEq, and_true, List.map_map]
  refine ⟨List.map_congr_left fun i hi => ?_, List.map_congr_left fun block hblock => ?_,
    List.map_congr_left fun line hline => ?_⟩
  · simp only [Function.comp_apply, ← Instruction.normal_map, Instruction.map_map]
    exact congrArg Instruction.normal (Instruction.map_congr fun label hmem =>
      hlabel (List.mem_of_mem_filter hi) hmem)
  · simp only [Function.comp_apply, TryBlock.map_map]
    exact TryBlock.map_congr fun label hmem =>
      h label (List.mem_append_right _ (List.mem_flatMap.mpr ⟨block, hblock, hmem⟩))
  · obtain ⟨i, hi, hsome⟩ := List.mem_filterMap.mp hline
    exact Prod.ext (hlabel hi (Instruction.mem_targets_of_line? hsome)) rfl

/-- The outline of any listing is proper. -/
theorem Listing.proper_outline {α : Type} [DecidableEq α] (listing : Listing α) :
    listing.outline.Proper where
  code := by
    intro i hi
    obtain ⟨source, hsource, rfl⟩ := List.mem_map.mp hi
    rw [Instruction.isPseudo_map]
    simpa using (List.mem_filter.mp hsource).2
  bound := by
    have hbound (label : α) :
        position listing.instructions label ≤ listing.outline.instructions.length :=
      (position_le _ label).trans_eq (List.length_map ..).symm
    intro k hk
    simp only [Outline.mentioned, outline, List.mem_append, List.mem_flatMap, List.mem_map] at hk
    obtain (⟨_, ⟨i, -, rfl⟩, hk⟩ | ⟨_, ⟨block, -, rfl⟩, hk⟩) | ⟨_, ⟨line, -, rfl⟩, rfl⟩ := hk
    · rw [Instruction.targets_map] at hk
      obtain ⟨label, -, rfl⟩ := List.mem_map.mp hk
      exact hbound label
    · rw [TryBlock.targets_map] at hk
      obtain ⟨label, -, rfl⟩ := List.mem_map.mp hk
      exact hbound label
    · exact hbound line.1

/-- A listing arranges an outline with small tokens for its positions, and is short enough for a
body to hold it. -/
structure Listing.Arranged (listing : Listing LabelToken) (o : Outline) : Prop where
  proper : o.Proper
  tokens : ∃ f : Nat → LabelToken, Set.InjOn f {position | position ∈ o.mentioned} ∧
    (∀ position ∈ o.mentioned, (f position).id.toNat ≤ 65535) ∧ listing = o.arrange.map f
  length_le : listing.instructions.length ≤ 2 ^ 32

end JavaClass
