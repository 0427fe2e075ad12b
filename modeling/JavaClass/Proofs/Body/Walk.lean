import Mathlib.Data.Fintype.Card
import JavaClass.Body.Position
import JavaClass.Proofs.Body.Chain

/-!
# Walking a method body

A body with a chain is walked from the first slot to the last and back. The
walk gives one entry for each slot of the chain, so every statement about the
list of instructions is a statement about the chain.
-/

namespace JavaClass.MethodBody

variable {body : MethodBody} {order : List UInt32}

/-- The instruction in a slot, or anything at all if there is none. -/
def contents (body : MethodBody) (slot : UInt32) : Instruction Label :=
  (body.instruction? slot).getD (.simple ⟨0⟩)

/-- What a walk finds in a slot. -/
def entry (body : MethodBody) (slot : UInt32) : InstructionHandle × Instruction Label :=
  (body.handle slot, body.contents slot)

namespace Chain

variable (chain : body.Chain order)

include chain

/-- A chain visits no slot twice, so it is no longer than there are slots. -/
theorem length_le : order.length ≤ body.slots.size := by
  have hlt : ∀ slot ∈ order, slot.toNat ∈ List.range body.slots.size := by
    intro slot hmem
    obtain ⟨node, hnode⟩ := Option.isSome_iff_exists.mp ((chain.node?_isSome_iff slot).mpr hmem)
    exact List.mem_range.mpr (lt_size_of_node? hnode)
  have hnodup : (order.map UInt32.toNat).Nodup :=
    chain.nodup.map (fun _ _ h => UInt32.toNat_inj.mp h)
  have hsubset : order.map UInt32.toNat ⊆ List.range body.slots.size := by
    intro n hn
    obtain ⟨slot, hmem, rfl⟩ := List.mem_map.mp hn
    exact hlt slot hmem
  simpa using (hnodup.subperm hsubset).length_le

theorem walkFrom_eq (fuel : Nat) (before after : List UInt32) (horder : order = before ++ after)
    (hfuel : after.length ≤ fuel) (done : List (InstructionHandle × Instruction Label)) :
    body.walkFrom fuel after.head? done = done.reverse ++ after.map body.entry := by
  induction after generalizing fuel before done with
  | nil => cases fuel <;> simp [walkFrom]
  | cons slot after ih =>
      obtain ⟨fuel, rfl⟩ : ∃ n, fuel = n + 1 := ⟨fuel - 1, by simp at hfuel; omega⟩
      obtain ⟨node, hnode, -, hafter⟩ := chain.links before slot after horder
      have hcontents : node.instruction = body.contents slot := by
        simp [contents, instruction?, hnode]
      simp only [List.head?_cons, walkFrom, hnode]
      rw [hafter, ih fuel (before ++ [slot]) (by simp [horder]) (by simpa using hfuel)]
      simp [entry, hcontents]

/-- A walk meets the slots of the chain in order. -/
theorem toList_eq : body.toList = order.map body.entry := by
  rw [toList, chain.first, chain.walkFrom_eq _ [] order rfl chain.length_le]
  rfl

theorem walkBackFrom_eq (fuel : Nat) (before after : List UInt32)
    (horder : order = before ++ after) (hfuel : before.length ≤ fuel) :
    body.walkBackFrom fuel before.getLast? = before.reverse.map body.handle := by
  induction before using List.reverseRecOn generalizing fuel after with
  | nil => cases fuel <;> simp [walkBackFrom]
  | append_singleton before slot ih =>
      obtain ⟨fuel, rfl⟩ : ∃ n, fuel = n + 1 := ⟨fuel - 1, by simp at hfuel; omega⟩
      obtain ⟨node, hnode, hbefore, -⟩ := chain.links before slot after (by simpa using horder)
      simp only [List.getLast?_append, List.getLast?_singleton, Option.some_or, walkBackFrom,
        hnode]
      rw [hbefore, ih fuel (slot :: after) (by simpa using horder) (by simpa using hfuel)]
      simp

/-- A walk from the last instruction meets the slots in the opposite order. -/
theorem backward_eq : body.backward = order.reverse.map body.handle := by
  rw [backward, chain.last, chain.walkBackFrom_eq _ order [] (by simp) chain.length_le]

theorem handles_toList : body.toList.map (·.1) = order.map body.handle := by
  rw [chain.toList_eq, List.map_map]
  rfl

/-- A handle is accepted exactly if a walk meets it. -/
theorem linkedNode_eq_ok_iff (handle : InstructionHandle) (node : BodyNode) :
    body.linkedNode handle = .ok node ↔
      handle ∈ body.toList.map (·.1) ∧ body.node? handle.slot = some node := by
  rw [chain.handles_toList]
  have hhandle : handle.body = body.id ∧ handle.generation = body.generation handle.slot ↔
      body.handle handle.slot = handle := by
    cases handle
    simp [MethodBody.handle, eq_comm]
  unfold linkedNode
  cases hnode : body.node? handle.slot with
  | none => simp
  | some found =>
      have hmem : handle.slot ∈ order := (chain.node?_isSome_iff _).mp (by simp [hnode])
      have hiff : handle ∈ order.map body.handle ↔ body.handle handle.slot = handle := by
        constructor
        · intro h
          obtain ⟨slot, -, rfl⟩ := List.mem_map.mp h
          rfl
        · intro h
          exact h ▸ List.mem_map_of_mem hmem
      simp only [hhandle, hiff]
      split <;> simp_all

theorem linkedNode_eq_error_iff (handle : InstructionHandle) :
    body.linkedNode handle = .error (.unlinked handle) ↔
      handle ∉ body.toList.map (·.1) := by
  constructor
  · intro h hmem
    have hslot : (body.node? handle.slot).isSome := by
      rw [chain.handles_toList] at hmem
      obtain ⟨slot, hslot, rfl⟩ := List.mem_map.mp hmem
      exact (chain.node?_isSome_iff slot).mpr hslot
    obtain ⟨node, hnode⟩ := Option.isSome_iff_exists.mp hslot
    rw [(chain.linkedNode_eq_ok_iff handle node).mpr ⟨hmem, hnode⟩] at h
    cases h
  · intro h
    cases hresult : body.linkedNode handle with
    | ok node => exact absurd ((chain.linkedNode_eq_ok_iff handle node).mp hresult).1 h
    | error e =>
        unfold linkedNode at hresult
        split at hresult
        · split at hresult <;> simp_all
        · simp_all

/-- A handle that is accepted splits the chain at its slot. -/
theorem split_of_linkedNode {handle : InstructionHandle} {node : BodyNode}
    (h : body.linkedNode handle = .ok node) :
    ∃ before after, order = before ++ handle.slot :: after ∧
      handle = body.handle handle.slot ∧ body.contents handle.slot = node.instruction ∧
      node.before = before.getLast? ∧ node.after = after.head? := by
  obtain ⟨hmem, hnode⟩ := (chain.linkedNode_eq_ok_iff handle node).mp h
  rw [chain.handles_toList] at hmem
  obtain ⟨slot, hslot, rfl⟩ := List.mem_map.mp hmem
  obtain ⟨before, after, rfl⟩ := List.append_of_mem hslot
  obtain ⟨found, hfound, hbefore, hafter⟩ := chain.links before slot after rfl
  obtain rfl : found = node := Option.some.inj (hfound.symm.trans hnode)
  exact ⟨before, after, rfl, rfl, by simp [contents, instruction?, hnode], hbefore, hafter⟩

end Chain

end JavaClass.MethodBody
