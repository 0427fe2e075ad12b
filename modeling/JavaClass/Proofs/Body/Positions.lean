import JavaClass.Proofs.Body.Edits

/-!
# Positions from an index

A look-up by position or by handle goes through an index that is made once and
dropped when the list changes. An index that is kept is the one that would be
made now, so a look-up answers what the walk says.
-/

namespace JavaClass

namespace PositionIndex

/-- Entering one position after the other. -/
def enter (positions : Array (Option Nat)) (handles : List InstructionHandle) (start : Nat) :
    Array (Option Nat) :=
  (handles.zipIdx start).foldl
    (fun positions (handle, position) =>
      positions.setIfInBounds handle.slot.toNat (some position)) positions

theorem positions_ofHandles (slotCount : Nat) (handles : List InstructionHandle) :
    (ofHandles slotCount handles).positions =
      enter (Array.replicate slotCount none) handles 0 := rfl

theorem enter_cons (positions : Array (Option Nat)) (handle : InstructionHandle)
    (handles : List InstructionHandle) (start : Nat) :
    enter positions (handle :: handles) start =
      enter (positions.setIfInBounds handle.slot.toNat (some start)) handles (start + 1) := rfl

theorem enter_other {positions : Array (Option Nat)} {handles : List InstructionHandle}
    {start : Nat} {slot : UInt32} (h : slot ∉ handles.map (·.slot)) :
    (enter positions handles start)[slot.toNat]? = positions[slot.toNat]? := by
  induction handles generalizing positions start with
  | nil => rfl
  | cons handle handles ih =>
      simp only [List.map_cons, List.mem_cons, not_or] at h
      have hne : handle.slot.toNat ≠ slot.toNat :=
        fun heq => h.1 (UInt32.toNat_inj.mp heq.symm)
      rw [enter_cons, ih h.2, Array.getElem?_setIfInBounds_ne hne]

/-- Each handle is entered with its position. -/
theorem enter_getElem? {positions : Array (Option Nat)} {handles : List InstructionHandle}
    {start position : Nat} {handle : InstructionHandle}
    (nodup : (handles.map (·.slot)).Nodup) (h : handles[position]? = some handle)
    (hlt : handle.slot.toNat < positions.size) :
    (enter positions handles start)[handle.slot.toNat]? = some (some (start + position)) := by
  induction handles generalizing positions start position with
  | nil => simp at h
  | cons first handles ih =>
      rw [List.map_cons, List.nodup_cons] at nodup
      rw [enter_cons]
      cases position with
      | zero =>
          obtain rfl : first = handle := by simpa using h
          rw [enter_other nodup.1]
          simp [hlt]
      | succ position =>
          rw [ih nodup.2 (by simpa using h) (by simpa using hlt)]
          congr 2
          omega

end PositionIndex

namespace MethodBody

variable {body : MethodBody} {order : List UInt32}

/-- The index, if there is one, is the one that would be made now. -/
def Indexed (body : MethodBody) : Prop :=
  ∀ index, body.index = some index → index = body.makeIndex

theorem indexed_of_none (h : body.index = none) : body.Indexed := by
  intro index hindex
  rw [h] at hindex
  cases hindex

/-- An index stays right while the handles of the walk and the number of slots stay. -/
theorem Indexed.of_sameHandles {other : MethodBody} (indexed : body.Indexed)
    (hindex : other.index = body.index) (hsize : other.slots.size = body.slots.size)
    (hhandles : other.toList.map (·.1) = body.toList.map (·.1)) : other.Indexed := by
  intro index h
  rw [indexed index (hindex ▸ h), makeIndex, makeIndex, hsize, hhandles]

theorem sameList_withIndex (body : MethodBody) :
    body.SameList body.withIndex.2 ∧ body.withIndex.2.id = body.id := by
  unfold withIndex
  split <;> exact ⟨⟨rfl, rfl, rfl, rfl, rfl⟩, rfl⟩

theorem withIndex_fst (indexed : body.Indexed) : body.withIndex.1 = body.makeIndex := by
  unfold withIndex
  split
  · rename_i index hindex
    exact indexed index hindex
  · rfl

/-- Making the index leaves a body whose index is right. -/
theorem Indexed.withIndex (indexed : body.Indexed) : body.withIndex.2.Indexed := by
  obtain ⟨same, hid⟩ := body.sameList_withIndex
  intro index hindex
  have hmake : body.withIndex.2.makeIndex = body.makeIndex := by
    rw [makeIndex, makeIndex, same.slots, same.toList_eq hid]
  rw [hmake]
  unfold MethodBody.withIndex at hindex
  split at hindex
  · exact indexed index hindex
  · exact (Option.some.inj hindex).symm

/-- What a body holds besides its list does not matter to the index. -/
theorem Indexed.furnish (indexed : body.Indexed) (tryBlocks : Array (TryBlock Label))
    (maxStack maxLocals : UInt16) :
    { body with tryBlocks, maxStack, maxLocals : MethodBody }.Indexed := by
  have same : body.SameList { body with tryBlocks, maxStack, maxLocals } :=
    ⟨rfl, rfl, rfl, rfl, rfl⟩
  exact indexed.of_sameHandles rfl rfl (by rw [same.toList_eq rfl])

namespace Chain

variable (chain : body.Chain order)

include chain

/-- Every edit either drops the index or leaves the handles alone. -/
theorem indexed_perform (indexed : body.Indexed) (edit : Edit) :
    (body.perform edit).2.Indexed := by
  have makes := body.makes_perform edit
  generalize (body.perform edit).2 = edited at makes ⊢
  cases makes with
  | refused => exact indexed
  | inserted => exact indexed_of_none rfl
  | unlinked => exact indexed_of_none rfl
  | @replaced handle _ linked i =>
      obtain ⟨before, after, rfl, -, -, -, -⟩ := chain.split_of_linkedNode linked
      obtain ⟨chain', -⟩ := toList_editNode chain i
      refine indexed.of_sameHandles rfl (size_editNode handle.slot _) ?_
      have hhandle : (body.editNode handle.slot ({ · with instruction := i })).handle =
          body.handle := by
        funext slot
        simp only [MethodBody.handle, generation_editNode]
        rfl
      exact (chain'.handles_toList.trans (by rw [hhandle])).trans chain.handles_toList.symm
  | newLabel =>
      have same : body.SameList body.newLabel.2 := ⟨rfl, rfl, rfl, rfl, rfl⟩
      exact indexed.of_sameHandles rfl rfl (by rw [same.toList_eq rfl])
  | resolved token =>
      obtain ⟨same, hid⟩ := body.sameList_resolve token
      have hindex : (body.resolve token).2.index = body.index := by
        unfold resolve newLabel
        split <;> rfl
      exact indexed.of_sameHandles hindex (by rw [same.slots]) (by rw [same.toList_eq hid])

/-- A handle at a position of the walk is entered in the index with this position. -/
theorem makeIndex_positions {position : Nat} {handle : InstructionHandle}
    (h : (body.toList.map (·.1))[position]? = some handle) :
    body.makeIndex.positions[handle.slot.toNat]? = some (some position) := by
  have hmem : handle ∈ body.toList.map (·.1) := List.mem_of_getElem? h
  have hnodup : ((body.toList.map (·.1)).map (·.slot)).Nodup := by
    rw [List.map_map]
    exact chain.wellLinked.slots_nodup
  rw [chain.handles_toList] at hmem
  obtain ⟨slot, hslot, rfl⟩ := List.mem_map.mp hmem
  obtain ⟨node, hnode⟩ := Option.isSome_iff_exists.mp ((chain.node?_isSome_iff slot).mpr hslot)
  have hlt : slot.toNat < (Array.replicate body.slots.size (none : Option Nat)).size := by
    rw [Array.size_replicate]
    exact lt_size_of_node? hnode
  rw [makeIndex, PositionIndex.positions_ofHandles, PositionIndex.enter_getElem? hnodup h hlt,
    Nat.zero_add]

/-- A handle of the walk has the position where the walk meets it. -/
theorem indexOf_eq_ok (indexed : body.Indexed) {position : Nat} {handle : InstructionHandle}
    (h : (body.toList.map (·.1))[position]? = some handle) :
    (body.indexOf handle).1 = .ok position := by
  have hmem : handle ∈ body.toList.map (·.1) := List.mem_of_getElem? h
  have hslot : (body.node? handle.slot).isSome := by
    rw [chain.handles_toList] at hmem
    obtain ⟨slot, hslot, rfl⟩ := List.mem_map.mp hmem
    exact (chain.node?_isSome_iff slot).mpr hslot
  obtain ⟨node, hnode⟩ := Option.isSome_iff_exists.mp hslot
  have hlinked := (chain.linkedNode_eq_ok_iff handle node).mpr ⟨hmem, hnode⟩
  have hposition : body.withIndex.1.positions[handle.slot.toNat]?.join = some position := by
    rw [withIndex_fst indexed, chain.makeIndex_positions h]
    rfl
  unfold indexOf
  simp only [hlinked, hposition]

theorem indexOf_eq_error {handle : InstructionHandle}
    (h : handle ∉ body.toList.map (·.1)) :
    (body.indexOf handle).1 = .error (.unlinked handle) := by
  have hunlinked := (chain.linkedNode_eq_error_iff handle).mpr h
  unfold indexOf
  simp only [hunlinked]

end Chain

end MethodBody

end JavaClass
