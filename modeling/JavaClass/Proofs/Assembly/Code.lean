import JavaClass.Proofs.Assembly.Instructions

/-!
# Runs of instructions

A class draft that takes the instructions of a method lays them out one after
the other. Each label is placed once, at the offset that the code has reached,
and lines are collected in the order in which they are told.

## Implementation notes

`Laid` is about cells whose offsets may still be missing, so it speaks of any
function that gives each placed label its offset. Two runs one after the other
are one run, and every single instruction is a run.
-/

namespace JavaClass

open ConstantPool

/-- Instructions laid out as cells from an offset on, with each label where the function says. -/
inductive Laid (table : ConstantTable) (bootstraps : Array Bootstrap)
    (offset : LabelToken → Nat) : Nat → List (Instruction LabelToken) → List Cell → Prop where
  | nil {origin} : Laid table bootstraps offset origin [] []
  | label {origin token rest cells} (placed : offset token = origin)
      (others : Laid table bootstraps offset origin rest cells) :
      Laid table bootstraps offset origin (.label token :: rest) cells
  | line {origin number token rest cells}
      (others : Laid table bootstraps offset origin rest cells) :
      Laid table bootstraps offset origin (.line number token :: rest) cells
  | code {origin i rest first cells} (pseudo : i.isPseudo = false)
      (spelled : Spells table bootstraps origin first i)
      (others : Laid table bootstraps offset (origin + (blankCells first).length) rest cells) :
      Laid table bootstraps offset origin (i :: rest) (first ++ cells)

theorem Laid.append {table : ConstantTable} {bootstraps : Array Bootstrap}
    {offset : LabelToken → Nat} {origin : Nat} {is more : List (Instruction LabelToken)}
    {cells others : List Cell} (h : Laid table bootstraps offset origin is cells)
    (h' : Laid table bootstraps offset (origin + (blankCells cells).length) more others) :
    Laid table bootstraps offset origin (is ++ more) (cells ++ others) := by
  induction h with
  | nil => exact h'
  | label placed _ ih => exact .label placed (ih h')
  | line _ ih => exact .line (ih h')
  | code pseudo spelled _ ih =>
      rw [List.append_assoc]
      refine .code pseudo spelled (ih ?_)
      rwa [blankCells_append, List.length_append, ← Nat.add_assoc] at h'

/-- The second draft has these instructions more than the first, laid out as these cells. -/
structure MethodDraft.Follows (method method' : MethodDraft) (is : List (Instruction LabelToken))
    (cells : List Cell) : Prop extends method.Gains method' cells where
  lines : method'.lines.toList =
    method.lines.toList ++ (is.filterMap Instruction.line?).map Prod.swap
  same : method' = { method with
    code := method'.code
    labels := method'.labels
    fixups := method'.fixups
    lines := method'.lines
    hasCode := method'.hasCode }
  kept : ∀ {token : LabelToken} {n : Nat}, method.labels[token]? = some n →
    method'.labels[token]? = some n
  placed : ∀ {token : LabelToken} {n : Nat}, method'.labels[token]? = some n →
    method.labels[token]? = some n ∨ .label token ∈ is
  once : ∀ {token : LabelToken}, .label token ∈ is →
    method.labels[token]? = none ∧ (∃ n, method'.labels[token]? = some n) ∧
      is.count (.label token) = 1

theorem MethodDraft.Follows.trans {first second third : MethodDraft}
    {is more : List (Instruction LabelToken)} {cells others : List Cell}
    (h : first.Follows second is cells) (h' : second.Follows third more others) :
    first.Follows third (is ++ more) (cells ++ others) where
  toGains := h.toGains.trans h'.toGains
  lines := by
    rw [h'.lines, h.lines, List.filterMap_append, List.map_append, List.append_assoc]
  same := by rw [h'.same, h.same]
  kept := fun found => h'.kept (h.kept found)
  placed := by
    intro token n found
    obtain found | hmem := h'.placed found
    · exact (h.placed found).imp_right (List.mem_append_left _)
    · exact .inr (List.mem_append_right _ hmem)
  once := by
    intro token hmem
    rw [List.count_append]
    by_cases hfirst : .label token ∈ is
    · obtain ⟨hnew, ⟨n, hn⟩, hcount⟩ := h.once hfirst
      have hnot : .label token ∉ more := by
        intro hmore
        rw [(h'.once hmore).1] at hn
        cases hn
      exact ⟨hnew, ⟨n, h'.kept hn⟩, by rw [hcount, List.count_eq_zero_of_not_mem hnot]⟩
    · obtain ⟨hnew, hplaced, hcount⟩ := h'.once ((List.mem_append.mp hmem).resolve_left hfirst)
      refine ⟨?_, hplaced, by rw [hcount, List.count_eq_zero_of_not_mem hfirst]⟩
      cases hfound : first.labels[token]? with
      | none => rfl
      | some n => rw [h.kept hfound] at hnew; cases hnew

namespace ClassDraft

variable {draft draft' draft'' : ClassDraft} {method method' method'' : MethodDraft}

/-- A method took instructions, and nothing else was changed. -/
structure Ran (draft draft' : ClassDraft) (method method' : MethodDraft)
    (is : List (Instruction LabelToken)) (cells : List Cell) : Prop where
  others : draft' = { draft with
    pool := draft'.pool
    bootstraps := draft'.bootstraps
    positions := draft'.positions
    method := some method' }
  follows : method.Follows method' is cells
  grows : draft.Grows draft' (is.flatMap Instruction.calls)
  laid : ∀ table bootstraps offset, draft'.ShownIn table bootstraps →
    (∀ {token : LabelToken} {n : Nat}, method'.labels[token]? = some n → offset token = n) →
      Laid table bootstraps offset method.code.size is cells

theorem Ran.trans {is more : List (Instruction LabelToken)} {cells others : List Cell}
    (h : draft.Ran draft' method method' is cells)
    (h' : draft'.Ran draft'' method' method'' more others) :
    draft.Ran draft'' method method'' (is ++ more) (cells ++ others) where
  others := by rw [h'.others, h.others]
  follows := h.follows.trans h'.follows
  grows := by
    rw [List.flatMap_append]
    exact h.grows.trans h'.grows
  laid := by
    intro table bootstraps offset shown hoffset
    have hfirst := h.laid table bootstraps offset (h'.grows.shownIn shown)
      fun found => hoffset (h'.follows.kept found)
    have hsecond := h'.laid table bootstraps offset shown hoffset
    rw [h.follows.size] at hsecond
    exact hfirst.append hsecond

section Single

variable (sound : draft.Sound) (hmethod : draft.method = some method)

include sound hmethod

theorem ran_nil : draft.Ran draft method method [] [] where
  others := by rw [← hmethod]
  follows := {
    toGains := .of_same rfl rfl
    lines := by simp
    same := rfl
    kept := id
    placed := .inl
    once := by simp }
  grows := sound.grows_of_same rfl rfl rfl
  laid := fun _ _ _ _ _ => .nil

theorem ran_label {token : LabelToken} (h : instruction (.label token) draft = .ok () draft') :
    ∃ method', draft.Ran draft' method method' [.label token] [] := by
  simp only [instruction, place] at h
  obtain ⟨refused, draft₁, hplace, h⟩ := bind_eq_ok_iff.mp h
  obtain ⟨found, hfound, rfl, rfl⟩ := onMethod_eq_ok_iff.mp hplace
  obtain rfl : method = found := Option.some.inj (hmethod.symm.trans hfound)
  cases hcontains : method.labels.contains token with
  | true =>
      rw [MethodDraft.place, hcontains] at h
      cases h
  | false =>
      rw [MethodDraft.place, hcontains] at h
      cases h
      have hnew : method.labels[token]? = none :=
        Std.TreeMap.getElem?_eq_none_of_contains_eq_false hcontains
      have hlookup (other : LabelToken) :
          (method.labels.insert token method.code.size)[other]? =
            if token = other then some method.code.size else method.labels[other]? := by
        rw [Std.TreeMap.getElem?_insert]
        simp only [Std.LawfulEqCmp.compare_eq_iff_eq]
      refine ⟨{ method with labels := method.labels.insert token method.code.size }, rfl,
        ⟨.of_same rfl rfl, ?_, rfl, ?_, ?_, ?_⟩, sound.grows_of_same rfl rfl rfl, ?_⟩
      · simp [Instruction.line?]
      · intro other n hother
        rw [hlookup, if_neg]
        · exact hother
        · rintro rfl
          rw [hnew] at hother
          cases hother
      · intro other n hother
        rw [hlookup] at hother
        split at hother
        · rename_i heq
          exact .inr (by rw [heq]; exact List.mem_singleton_self _)
        · exact .inl hother
      · intro other hother
        obtain rfl : other = token := by simpa using hother
        exact ⟨hnew, ⟨_, by rw [hlookup, if_pos rfl]⟩, by simp⟩
      · intro table bootstraps offset _ hoffset
        exact .label (hoffset (by rw [hlookup, if_pos rfl])) .nil

theorem ran_line {number : UInt16} {token : LabelToken}
    (h : instruction (.line number token) draft = .ok () draft') :
    ∃ method', draft.Ran draft' method method' [.line number token] [] := by
  obtain ⟨found, hfound, rfl⟩ := editMethod_eq_ok_iff.mp h
  obtain rfl : method = found := Option.some.inj (hmethod.symm.trans hfound)
  refine ⟨_, rfl, ⟨.of_same rfl rfl, ?_, rfl, id, .inl, by simp⟩,
    sound.grows_of_same rfl rfl rfl, fun _ _ _ _ _ => .line .nil⟩
  simp [Instruction.line?]

theorem ran_code {i : Instruction LabelToken} (hpseudo : i.isPseudo = false)
    (documented : i.Documented) (h : instruction i draft = .ok () draft') :
    ∃ method' cells, draft.Ran draft' method method' [i] cells := by
  obtain ⟨method', cells, wrote⟩ := writes_instruction sound hmethod hpseudo documented h
  have hlabel (token : LabelToken) : i ≠ .label token := by
    rintro rfl
    cases hpseudo
  have hlabels : method'.labels = method.labels := by rw [wrote.appends.same]
  have hlines : method'.lines = method.lines := by rw [wrote.appends.same]
  refine ⟨method', cells, wrote.others,
    ⟨wrote.appends.toGains, ?_, ?_, ?_, ?_, ?_⟩, ?_, ?_⟩
  · simp [hlines, Instruction.line?_eq_none hpseudo]
  · rw [wrote.appends.same]
  · rw [hlabels]
    exact id
  · rw [hlabels]
    exact .inl
  · intro token hmem
    exact absurd (List.mem_singleton.mp hmem).symm (hlabel token)
  · simpa using wrote.grows
  · intro table bootstraps offset shown _
    have hlaid : Laid table bootstraps offset _ [i] (cells ++ []) :=
      .code hpseudo (wrote.spells table bootstraps shown) .nil
    rwa [List.append_nil] at hlaid

/-- Every instruction is a run. -/
theorem ran_instruction {i : Instruction LabelToken} (documented : i.Documented)
    (h : instruction i draft = .ok () draft') :
    ∃ method' cells, draft.Ran draft' method method' [i] cells := by
  cases hpseudo : i.isPseudo with
  | false => exact ran_code sound hmethod hpseudo documented h
  | true =>
      cases i with
      | label token =>
          obtain ⟨method', ran⟩ := ran_label sound hmethod h
          exact ⟨method', [], ran⟩
      | line number token =>
          obtain ⟨method', ran⟩ := ran_line sound hmethod h
          exact ⟨method', [], ran⟩
      | _ => cases hpseudo

end Single

/-- What is known of a draft that took the instructions of a method. -/
theorem ran_instructions {is : List (Instruction LabelToken)} (sound : draft.Sound)
    (hmethod : draft.method = some method) (documented : ∀ i ∈ is, i.Documented)
    (h : Receiver.Takes receive (is.map .instruction) draft draft') :
    ∃ method' cells, draft.Ran draft' method method' is cells := by
  induction is generalizing draft method with
  | nil =>
      cases h
      exact ⟨method, [], ran_nil sound hmethod⟩
  | cons i rest ih =>
      obtain ⟨draft₁, hfirst, hrest⟩ := Receiver.takes_cons_iff.mp h
      obtain ⟨method₁, first, ran₁⟩ :=
        ran_instruction sound hmethod (documented i List.mem_cons_self) hfirst
      have hmethod₁ : draft₁.method = some method₁ := by rw [ran₁.others]
      obtain ⟨method', cells, ran₂⟩ := ih ran₁.grows.sound hmethod₁
        (fun j hj => documented j (List.mem_cons_of_mem _ hj)) hrest
      exact ⟨method', first ++ cells, ran₁.trans ran₂⟩

end ClassDraft

end JavaClass
