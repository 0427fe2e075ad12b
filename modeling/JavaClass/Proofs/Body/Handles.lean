import JavaClass.Proofs.Body.Positions

/-!
# Handles on the instructions of a body

Every operation of a body accepts the handles on its walk and refuses all
others. An edit fills one slot, empties one, or does neither, and only emptying
a slot changes the generation that its handles carry.
-/

namespace JavaClass

namespace MethodBody

variable {body : MethodBody} {order : List UInt32}

/-- What an edit does to the slots: it fills one, empties one, or does neither. -/
inductive SlotEffect (body : MethodBody) : Edit → Except Error Answer → MethodBody → Prop where
  | fill {edit body'} (slot : UInt32) (notRemove : ∀ handle, edit ≠ .remove handle)
      (empty : body.node? slot = none)
      (node : ∀ t, (body'.node? t).isSome ↔ t = slot ∨ (body.node? t).isSome)
      (generation : ∀ t, body'.generation t = body.generation t) :
      SlotEffect body edit (.ok (.handle (body'.handle slot))) body'
  | vacate {handle i body'} (full : (body.node? handle.slot).isSome)
      (node : ∀ t, (body'.node? t).isSome ↔ t ≠ handle.slot ∧ (body.node? t).isSome)
      (generation : ∀ t, body'.generation t =
        if t = handle.slot then body.generation t + 1 else body.generation t) :
      SlotEffect body (.remove handle) (.ok (.instruction i)) body'
  | keep {edit answer body'} (notHandle : ∀ handle, answer ≠ .ok (.handle handle))
      (notRemoved : ∀ handle, edit = .remove handle → ∃ error, answer = .error error)
      (node : ∀ t, (body'.node? t).isSome ↔ (body.node? t).isSome)
      (generation : ∀ t, body'.generation t = body.generation t) :
      SlotEffect body edit answer body'

section Insert

variable {front rest : List UInt32} (chain : body.Chain (front ++ rest)) (room : body.HasRoom)
  (i : Instruction Label)

include chain room

theorem slotEffect_insertBetween {edit : Edit} (notRemove : ∀ handle, edit ≠ .remove handle) :
    SlotEffect body edit
      (.ok (.handle (body.insertBetween i front.getLast? rest.head?).1))
      (body.insertBetween i front.getLast? rest.head?).2 := by
  rw [insertBetween_fst]
  refine .fill body.nextSlot notRemove (nextSlot_unused chain room) (fun t => ?_)
    (sameSlots_insertBetween chain room i).2.2
  have h := congrArg Option.isSome (instruction?_insertBetween chain room i t)
  rw [instruction?, Option.isSome_map] at h
  rw [h]
  by_cases ht : t = body.nextSlot <;> simp [instruction?, ht]

end Insert

theorem SlotEffect.refused {edit : Edit} {error : Error} :
    SlotEffect body edit (.error error) body :=
  .keep (by simp) (fun _ _ => ⟨error, rfl⟩) (fun _ => Iff.rfl) fun _ => rfl

/-- The effect of each edit on the slots of a body with a chain. -/
theorem Chain.slotEffect (chain : body.Chain order) (edit : Edit)
    (bound : (body.perform edit).2.slots.size ≤ 2 ^ 32) :
    SlotEffect body edit (body.perform edit).1 (body.perform edit).2 := by
  cases edit with
  | append i =>
      have hlast : body.append i =
          body.insertBetween i order.getLast? ([] : List UInt32).head? := by
        rw [MethodBody.append, chain.last]
        rfl
      simp only [MethodBody.perform, hlast] at bound ⊢
      exact slotEffect_insertBetween (by simpa using chain) (hasRoom_of_insertBetween bound) i
        (by simp)
  | prepend i =>
      have hfirst : body.prepend i =
          body.insertBetween i ([] : List UInt32).getLast? order.head? := by
        rw [MethodBody.prepend, chain.first]
        rfl
      simp only [MethodBody.perform, hfirst] at bound ⊢
      exact slotEffect_insertBetween (by simpa using chain) (hasRoom_of_insertBetween bound) i
        (by simp)
  | insertBefore anchor i =>
      simp only [MethodBody.perform, MethodBody.insertBefore] at bound ⊢
      cases hnode : body.linkedNode anchor with
      | error error => exact .refused
      | ok node =>
          rw [hnode] at bound
          obtain ⟨before, after, rfl, -, -, hbefore, -⟩ := chain.split_of_linkedNode hnode
          have hafter : some anchor.slot = (anchor.slot :: after).head? := rfl
          simp only [Except.map, settle, hbefore, hafter] at bound ⊢
          exact slotEffect_insertBetween chain (hasRoom_of_insertBetween bound) i (by simp)
  | insertAfter anchor i =>
      simp only [MethodBody.perform, MethodBody.insertAfter] at bound ⊢
      cases hnode : body.linkedNode anchor with
      | error error => exact .refused
      | ok node =>
          rw [hnode] at bound
          obtain ⟨before, after, rfl, -, -, -, hafter⟩ := chain.split_of_linkedNode hnode
          have chain₀ : body.Chain ((before ++ [anchor.slot]) ++ after) := by simpa using chain
          have hbefore : some anchor.slot = (before ++ [anchor.slot]).getLast? := by simp
          simp only [Except.map, settle, hafter] at bound ⊢
          rw [hbefore] at bound ⊢
          exact slotEffect_insertBetween chain₀ (hasRoom_of_insertBetween bound) i (by simp)
  | remove handle =>
      simp only [MethodBody.perform]
      cases hnode : body.linkedNode handle with
      | error error =>
          simp only [remove, hnode]
          exact .refused
      | ok node =>
          obtain ⟨before, after, rfl, -, -, hbefore, hafter⟩ := chain.split_of_linkedNode hnode
          simp only [remove_eq hnode, settle, hbefore, hafter]
          refine .vacate ((chain.node?_isSome_iff _).mpr (by simp)) (fun t => ?_)
            (sameSlots_unlink chain).2.2
          have h := congrArg Option.isSome (instruction?_unlink chain t)
          rw [instruction?, Option.isSome_map] at h
          rw [h]
          by_cases ht : t = handle.slot <;> simp [instruction?, ht]
  | replace handle i =>
      simp only [MethodBody.perform, MethodBody.replace]
      cases hnode : body.linkedNode handle with
      | error error => exact .refused
      | ok node =>
          refine .keep (by simp [Except.map, settle]) (by simp) (fun t => ?_)
            (generation_editNode handle.slot ({ · with instruction := i }))
          have h := body.node?_editNode handle.slot ({ · with instruction := i }) t
          change ((body.editNode handle.slot _).node? t).isSome ↔ _
          rw [h]
          split <;> simp
  | newLabel => exact .keep (by simp [MethodBody.perform]) (by simp) (fun _ => Iff.rfl) fun _ => rfl
  | resolve token =>
      have hslots := (body.sameList_resolve token).1.slots
      refine .keep (by simp [MethodBody.perform]) (by simp) (fun t => ?_) fun t => ?_
      · simp only [MethodBody.perform, node?, hslots]
      · simp only [MethodBody.perform, generation, hslots]

theorem id_relink (before after next previous : Option UInt32) :
    (body.relink before after next previous).id = body.id := by
  unfold relink linkBefore
  split <;> unfold linkAfter <;> split <;> rfl

/-- No edit changes the identity of a body. -/
theorem id_perform (body : MethodBody) (edit : Edit) : (body.perform edit).2.id = body.id := by
  have makes := body.makes_perform edit
  generalize (body.perform edit).2 = after at makes ⊢
  cases makes with
  | refused => rfl
  | inserted i before after =>
      rw [insertBetween_snd]
      exact (id_relink ..).trans (withNode_fields i before after).1
  | unlinked => exact id_relink ..
  | replaced => rfl
  | newLabel => rfl
  | resolved token => exact (body.sameList_resolve token).2

/-- Every operation of a body takes the handle. -/
structure Accepts (body : MethodBody) (handle : InstructionHandle) : Prop where
  instruction : ∃ i, body.instruction handle = .ok i
  replace : ∀ i, ∃ changed, body.replace handle i = .ok changed
  remove : ∃ result, body.remove handle = .ok result
  insertBefore : ∀ i, ∃ result, body.insertBefore handle i = .ok result
  insertAfter : ∀ i, ∃ result, body.insertAfter handle i = .ok result
  next : ∃ following, body.next handle = .ok following
  previous : ∃ preceding, body.previous handle = .ok preceding
  indexOf : ∃ position, (body.indexOf handle).1 = .ok position

/-- Every operation of a body refuses the handle as one that is not linked. -/
structure Refuses (body : MethodBody) (handle : InstructionHandle) : Prop where
  instruction : body.instruction handle = .error (.unlinked handle)
  replace : ∀ i, (body.replace handle i).map (fun _ => ()) = .error (.unlinked handle)
  remove : (body.remove handle).map (fun _ => ()) = .error (.unlinked handle)
  insertBefore : ∀ i, (body.insertBefore handle i).map (·.1) = .error (.unlinked handle)
  insertAfter : ∀ i, (body.insertAfter handle i).map (·.1) = .error (.unlinked handle)
  next : body.next handle = .error (.unlinked handle)
  previous : body.previous handle = .error (.unlinked handle)
  indexOf : (body.indexOf handle).1 = .error (.unlinked handle)

namespace Chain

variable (chain : body.Chain order)

include chain

theorem accepts_of_mem (indexed : body.Indexed) {handle : InstructionHandle}
    (h : handle ∈ body.toList.map (·.1)) : body.Accepts handle := by
  obtain ⟨position, hposition⟩ := List.getElem?_of_mem h
  have hslot : (body.node? handle.slot).isSome := by
    rw [chain.handles_toList] at h
    obtain ⟨slot, hslot, rfl⟩ := List.mem_map.mp h
    exact (chain.node?_isSome_iff slot).mpr hslot
  obtain ⟨node, hnode⟩ := Option.isSome_iff_exists.mp hslot
  have hlinked := (chain.linkedNode_eq_ok_iff handle node).mpr ⟨h, hnode⟩
  exact {
    instruction := ⟨_, by rw [instruction, hlinked]; rfl⟩
    replace := fun i => ⟨_, by rw [replace, hlinked]; rfl⟩
    remove := ⟨_, remove_eq hlinked⟩
    insertBefore := fun i => ⟨_, by rw [insertBefore, hlinked]; rfl⟩
    insertAfter := fun i => ⟨_, by rw [insertAfter, hlinked]; rfl⟩
    next := ⟨_, by rw [next, hlinked]; rfl⟩
    previous := ⟨_, by rw [previous, hlinked]; rfl⟩
    indexOf := ⟨position, chain.indexOf_eq_ok indexed hposition⟩ }

theorem refuses_of_notMem {handle : InstructionHandle}
    (h : handle ∉ body.toList.map (·.1)) : body.Refuses handle := by
  have hunlinked := (chain.linkedNode_eq_error_iff handle).mpr h
  exact {
    instruction := by rw [instruction, hunlinked]; rfl
    replace := fun i => by rw [replace, hunlinked]; rfl
    remove := by rw [remove, hunlinked]; rfl
    insertBefore := fun i => by rw [insertBefore, hunlinked]; rfl
    insertAfter := fun i => by rw [insertAfter, hunlinked]; rfl
    next := by rw [next, hunlinked]; rfl
    previous := by rw [previous, hunlinked]; rfl
    indexOf := chain.indexOf_eq_error h }

/-- The handles on the walk are accepted, and all others are refused. -/
theorem accepts_iff (indexed : body.Indexed) (handle : InstructionHandle) :
    body.Accepts handle ↔ handle ∈ body.toList.map (·.1) := by
  refine ⟨fun accepts => ?_, chain.accepts_of_mem indexed⟩
  by_contra h
  obtain ⟨i, hi⟩ := accepts.instruction
  rw [(chain.refuses_of_notMem h).instruction] at hi
  cases hi

end Chain

theorem contains_iff (handle : InstructionHandle) :
    body.contains handle = true ↔ handle ∈ body.toList.map (·.1) := by
  simp [contains]

end MethodBody

end JavaClass
