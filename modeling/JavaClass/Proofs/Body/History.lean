import Mathlib.Logic.Function.Basic
import JavaClass.Body.Workspace
import JavaClass.Proofs.Body.Handles

/-!
# The history of a workspace

A workspace is run together with a record of its nodes. Each body numbers the
nodes that are put into it; the record keeps which node is in which slot and
which nodes were removed. A handle that a body gave out for a node is accepted
by this body until the node is removed, and never by another body.

## Implementation notes

The record decides nothing: the bodies of a run are changed by the operations
of the library alone. The bounds on bodies, slots and removals are those of the
32-bit numbers that stand for them, and all three hold of a run if they hold in
the end. The removals from a slot of a copy are counted from the copying on.
-/

namespace JavaClass

/-- What was put into the slots of a body and taken out of them. -/
structure NodeRecord where
  /-- The number of the node in each slot. -/
  occupant : UInt32 → Option Nat
  /-- How many nodes were put in; the next one gets this number. -/
  inserted : Nat
  removed : List Nat
  /-- How many nodes were removed from each slot. -/
  removals : UInt32 → Nat

namespace NodeRecord

def empty : NodeRecord := ⟨fun _ => none, 0, [], fun _ => 0⟩

/-- A node is put into a slot. -/
def enter (record : NodeRecord) (slot : UInt32) : NodeRecord :=
  { record with
    occupant := Function.update record.occupant slot (some record.inserted)
    inserted := record.inserted + 1 }

/-- The node in a slot is removed. -/
def leave (record : NodeRecord) (slot : UInt32) : NodeRecord :=
  { record with
    occupant := Function.update record.occupant slot none
    removed := (record.occupant slot).toList ++ record.removed
    removals := Function.update record.removals slot (record.removals slot + 1) }

/-- The record after an edit that was answered so. -/
def after (record : NodeRecord) (edit : MethodBody.Edit) :
    Except Error MethodBody.Answer → NodeRecord
  | .ok (.handle handle) => record.enter handle.slot
  | .ok (.instruction _) =>
      match edit with
      | .remove handle => record.leave handle.slot
      | _ => record
  | _ => record

/-- An edit puts a node into a slot, removes the node of a slot, or leaves the record as it is. -/
theorem after_cases (record : NodeRecord) (edit : MethodBody.Edit)
    (answer : Except Error MethodBody.Answer) :
    record.after edit answer = record ∨ (∃ slot, record.after edit answer = record.enter slot) ∨
      ∃ slot, record.after edit answer = record.leave slot := by
  unfold after
  split
  · exact .inr (.inl ⟨_, rfl⟩)
  · split
    · exact .inr (.inr ⟨_, rfl⟩)
    · exact .inl rfl
  · exact .inl rfl

/-- The record of a copy, from which nothing was removed yet. -/
def copy (record : NodeRecord) : NodeRecord :=
  { record with removed := [], removals := fun _ => 0 }

end NodeRecord

namespace MethodBody

variable {body : MethodBody} {record : NodeRecord} {position : Nat}

/-- The body at a position has a chain and agrees with its record. -/
structure Recorded (body : MethodBody) (record : NodeRecord) (position : Nat) : Prop where
  chain : ∃ order, body.Chain order
  indexed : body.Indexed
  id : body.id = UInt32.ofNat position
  occupied : ∀ slot, (record.occupant slot).isSome ↔ (body.node? slot).isSome
  injective : ∀ s t number,
    record.occupant s = some number → record.occupant t = some number → s = t
  numbered : ∀ slot number, record.occupant slot = some number →
    number < record.inserted ∧ number ∉ record.removed
  removed_lt : ∀ number ∈ record.removed, number < record.inserted

/-- A handle was given out for a node when its slot had seen so many removals. -/
structure Named (body : MethodBody) (record : NodeRecord) (handle : InstructionHandle)
    (number base : Nat) : Prop where
  base_le : base ≤ record.removals handle.slot
  generation : body.generation handle.slot =
    handle.generation + UInt32.ofNat (record.removals handle.slot - base)
  lt : number < record.inserted
  removed_iff : number ∈ record.removed ↔ base < record.removals handle.slot
  present : number ∉ record.removed → record.occupant handle.slot = some number

theorem recorded_empty (position : Nat) :
    (empty (UInt32.ofNat position)).Recorded .empty position where
  chain := ⟨[], chain_empty _⟩
  indexed := indexed_of_none rfl
  id := rfl
  occupied := by simp [NodeRecord.empty, node?, empty]
  injective := by simp [NodeRecord.empty]
  numbered := by simp [NodeRecord.empty]
  removed_lt := by simp [NodeRecord.empty]

namespace Recorded

variable (recorded : body.Recorded record position)

include recorded

/-- What no edit of the list changed is recorded as before. -/
theorem of_sameList {other : MethodBody} (same : body.SameList other) (hid : other.id = body.id)
    (indexed : other.Indexed) : other.Recorded record position where
  chain := by
    obtain ⟨order, chain⟩ := recorded.chain
    exact ⟨order, chain.of_sameList same⟩
  indexed := indexed
  id := hid.trans recorded.id
  occupied := by
    intro slot
    rw [recorded.occupied slot, node?, node?, same.slots]
  injective := recorded.injective
  numbered := recorded.numbered
  removed_lt := recorded.removed_lt

theorem copy (other : Nat) : (body.copy (UInt32.ofNat other)).Recorded record.copy other where
  chain := by
    obtain ⟨order, chain⟩ := recorded.chain
    exact ⟨order, chain.of_sameList ⟨rfl, rfl, rfl, rfl, rfl⟩⟩
  indexed := indexed_of_none rfl
  id := rfl
  occupied := recorded.occupied
  injective := recorded.injective
  numbered := by
    intro slot number h
    exact ⟨(recorded.numbered slot number h).1, by simp [NodeRecord.copy]⟩
  removed_lt := by simp [NodeRecord.copy]

end Recorded

theorem SlotEffect.after_keep {edit : Edit} {answer : Except Error Answer}
    (notHandle : ∀ handle, answer ≠ .ok (.handle handle))
    (notRemoved : ∀ handle, edit = .remove handle → ∃ error, answer = .error error) :
    record.after edit answer = record := by
  cases answer with
  | error error => rfl
  | ok answer =>
      cases answer with
      | handle handle => exact absurd rfl (notHandle handle)
      | instruction i =>
          cases edit with
          | remove handle =>
              obtain ⟨error, herror⟩ := notRemoved handle rfl
              cases herror
          | _ => rfl
      | label label => rfl
      | done => rfl

/-- The numbers in the slots stay different and new when an edit is recorded. -/
theorem Recorded.perform (recorded : body.Recorded record position) (edit : Edit)
    (bound : (body.perform edit).2.slots.size ≤ 2 ^ 32) :
    (body.perform edit).2.Recorded (record.after edit (body.perform edit).1) position := by
  obtain ⟨order, chain⟩ := recorded.chain
  have hchain := (chain.follows edit bound).1
  have hindexed := chain.indexed_perform recorded.indexed edit
  have hid := (body.id_perform edit).trans recorded.id
  have effect := chain.slotEffect edit bound
  generalize (body.perform edit).1 = answer at effect ⊢
  generalize (body.perform edit).2 = body' at effect hchain hindexed hid ⊢
  cases effect with
  | fill slot notRemove empty node generation =>
      have hempty : record.occupant slot = none := by
        rw [← Option.not_isSome_iff_eq_none, recorded.occupied, empty]
        simp
      refine ⟨hchain, hindexed, hid, fun t => ?_, fun s t number hs ht => ?_,
        fun t number h => ?_, fun number h => ?_⟩
      · rw [node, ← recorded.occupied]
        by_cases ht : t = slot <;> simp [NodeRecord.after, NodeRecord.enter, handle, ht]
      · simp only [NodeRecord.after, NodeRecord.enter, handle, Function.update_apply] at hs ht
        split at hs <;> split at ht
        · simp_all
        · have := (recorded.numbered t number ht).1
          simp_all
        · have := (recorded.numbered s number hs).1
          simp_all
        · exact recorded.injective s t number hs ht
      · simp only [NodeRecord.after, NodeRecord.enter, handle, Function.update_apply] at h ⊢
        split at h
        · obtain rfl : record.inserted = number := Option.some.inj h
          refine ⟨by omega, fun hremoved => ?_⟩
          exact absurd (recorded.removed_lt _ hremoved) (by omega)
        · obtain ⟨hlt, hremoved⟩ := recorded.numbered t number h
          exact ⟨by omega, hremoved⟩
      · have := recorded.removed_lt number h
        simp only [NodeRecord.after, NodeRecord.enter]
        omega
  | @vacate handle i _ full node generation =>
      obtain ⟨old, hold⟩ := Option.isSome_iff_exists.mp
        ((recorded.occupied handle.slot).mpr full)
      refine ⟨hchain, hindexed, hid, fun t => ?_, fun s t number hs ht => ?_,
        fun t number h => ?_, fun number h => ?_⟩
      · rw [node, ← recorded.occupied]
        by_cases ht : t = handle.slot <;> simp [NodeRecord.after, NodeRecord.leave, ht]
      · simp only [NodeRecord.after, NodeRecord.leave, Function.update_apply] at hs ht
        split at hs <;> split at ht
        · cases hs
        · cases hs
        · cases ht
        · exact recorded.injective s t number hs ht
      · simp only [NodeRecord.after, NodeRecord.leave, Function.update_apply] at h ⊢
        split at h
        · cases h
        · rename_i hne
          obtain ⟨hlt, hremoved⟩ := recorded.numbered t number h
          refine ⟨hlt, ?_⟩
          rw [hold, Option.toList_some, List.singleton_append, List.mem_cons, not_or]
          refine ⟨?_, hremoved⟩
          rintro rfl
          exact hne (recorded.injective t handle.slot number h hold)
      · simp only [NodeRecord.after, NodeRecord.leave, hold, Option.toList_some,
          List.singleton_append, List.mem_cons] at h ⊢
        obtain rfl | h := h
        · exact (recorded.numbered handle.slot number hold).1
        · exact recorded.removed_lt number h
  | keep notHandle notRemoved node generation =>
      rw [SlotEffect.after_keep notHandle notRemoved]
      exact { recorded with
        chain := hchain
        indexed := hindexed
        id := hid
        occupied := fun slot => (recorded.occupied slot).trans (node slot).symm }

/-- A handle stays given out for its node whatever an edit does. -/
theorem Named.perform (recorded : body.Recorded record position) {handle : InstructionHandle}
    {number base : Nat} (named : body.Named record handle number base) (edit : Edit)
    (bound : (body.perform edit).2.slots.size ≤ 2 ^ 32) :
    (body.perform edit).2.Named (record.after edit (body.perform edit).1) handle number base := by
  obtain ⟨order, chain⟩ := recorded.chain
  have effect := chain.slotEffect edit bound
  generalize (body.perform edit).1 = answer at effect ⊢
  generalize (body.perform edit).2 = body' at effect ⊢
  cases effect with
  | fill slot notRemove empty node generation =>
      refine ⟨named.base_le, (generation _).trans named.generation,
        named.lt.trans (Nat.lt_succ_self _), named.removed_iff, fun hpresent => ?_⟩
      have hoccupant := named.present hpresent
      have hne : handle.slot ≠ slot := by
        rintro rfl
        have hsome := (recorded.occupied handle.slot).mp (by simp [hoccupant])
        rw [empty] at hsome
        cases hsome
      simpa [NodeRecord.after, NodeRecord.enter, MethodBody.handle, hne] using hoccupant
  | @vacate removed i _ full node generation =>
      obtain ⟨old, hold⟩ := Option.isSome_iff_exists.mp
        ((recorded.occupied removed.slot).mpr full)
      have hbase := named.base_le
      by_cases hslot : handle.slot = removed.slot
      · -- the slot of the handle is vacated: its node is removed now or was removed before
        have hremoved : number ∈ (record.leave removed.slot).removed := by
          by_cases hpresent : number ∈ record.removed
          · simp [NodeRecord.leave, hpresent]
          · simp [NodeRecord.leave, ← hslot, named.present hpresent]
        have hcount : record.removals handle.slot + 1 - base =
            record.removals handle.slot - base + 1 := by omega
        refine ⟨?_, ?_, named.lt, ?_, fun hpresent => absurd hremoved hpresent⟩
        · simp only [NodeRecord.after, NodeRecord.leave, ← hslot, Function.update_self]
          omega
        · rw [generation, if_pos hslot, named.generation]
          simp only [NodeRecord.after, NodeRecord.leave, ← hslot, Function.update_self, hcount]
          rw [UInt32.ofNat_add, UInt32.add_assoc]
          rfl
        · refine iff_of_true hremoved ?_
          simp only [NodeRecord.after, NodeRecord.leave, ← hslot, Function.update_self]
          omega
      · have hother : number ∉ record.removed → number ≠ old := by
          rintro hpresent rfl
          exact hslot (recorded.injective _ _ number (named.present hpresent) hold)
        have hremoved : number ∈ (record.leave removed.slot).removed ↔
            number ∈ record.removed := by
          simp only [NodeRecord.leave, hold, Option.toList_some, List.singleton_append,
            List.mem_cons, or_iff_right_iff_imp]
          rintro rfl
          by_contra hpresent
          exact hother hpresent rfl
        refine ⟨?_, ?_, named.lt, hremoved.trans ?_, fun hpresent => ?_⟩
        · simpa [NodeRecord.after, NodeRecord.leave, hslot] using hbase
        · rw [generation, if_neg hslot]
          simpa [NodeRecord.after, NodeRecord.leave, hslot] using named.generation
        · simpa [NodeRecord.after, NodeRecord.leave, hslot] using named.removed_iff
        · have hoccupant := named.present (fun h => hpresent (hremoved.mpr h))
          simpa [NodeRecord.after, NodeRecord.leave, hslot] using hoccupant
  | keep notHandle notRemoved node generation =>
      rw [SlotEffect.after_keep notHandle notRemoved]
      exact { named with generation := (generation _).trans named.generation }

namespace Recorded

variable (recorded : body.Recorded record position)

include recorded

/-- Each handle of the walk is given out for the node in its slot. -/
theorem named_of_mem {handle : InstructionHandle} {number : Nat}
    (hmem : handle ∈ body.toList.map (·.1)) (h : record.occupant handle.slot = some number) :
    body.Named record handle number (record.removals handle.slot) := by
  obtain ⟨order, chain⟩ := recorded.chain
  rw [chain.handles_toList] at hmem
  obtain ⟨slot, -, rfl⟩ := List.mem_map.mp hmem
  obtain ⟨hlt, hpresent⟩ := recorded.numbered _ number h
  exact {
    base_le := Nat.le_refl _
    generation := by simp [MethodBody.handle]
    lt := hlt
    removed_iff := iff_of_false hpresent (Nat.lt_irrefl _)
    present := fun _ => h }

theorem mem_iff_occupied (handle : InstructionHandle) :
    handle ∈ body.toList.map (·.1) ↔
      (record.occupant handle.slot).isSome ∧ handle.body = body.id ∧
        handle.generation = body.generation handle.slot := by
  obtain ⟨order, chain⟩ := recorded.chain
  rw [chain.handles_toList, recorded.occupied, chain.node?_isSome_iff]
  constructor
  · intro h
    obtain ⟨slot, hslot, rfl⟩ := List.mem_map.mp h
    exact ⟨hslot, rfl, rfl⟩
  · rintro ⟨hslot, hbody, hgeneration⟩
    refine List.mem_map.mpr ⟨handle.slot, hslot, ?_⟩
    rw [MethodBody.handle, ← hbody, ← hgeneration]

/-- The body that gave a handle out for a node has it on the walk until the node is removed. -/
theorem mem_iff_present {handle : InstructionHandle} {number base : Nat}
    (named : body.Named record handle number base) (hbody : handle.body = body.id)
    (bound : record.removals handle.slot < 2 ^ 32) :
    handle ∈ body.toList.map (·.1) ↔ number ∉ record.removed := by
  rw [recorded.mem_iff_occupied]
  constructor
  · rintro ⟨-, -, hgeneration⟩ hremoved
    -- fewer than `2 ^ 32` removals since then, so the generation cannot have come round
    have hbase := named.removed_iff.mp hremoved
    have hzero : UInt32.ofNat (record.removals handle.slot - base) = 0 := by
      have h := named.generation
      rw [← hgeneration] at h
      exact (UInt32.add_eq_left.mp h.symm)
    have htoNat := congrArg UInt32.toNat hzero
    rw [UInt32.toNat_ofNat', Nat.mod_eq_of_lt (by omega)] at htoNat
    simp at htoNat
    omega
  · intro hpresent
    have hsame : record.removals handle.slot - base = 0 := by
      have := named.base_le
      have := mt named.removed_iff.mpr hpresent
      omega
    refine ⟨by simp [named.present hpresent], hbody, ?_⟩
    rw [named.generation, hsame]
    simp

end Recorded

end MethodBody

/-- One step with a workspace. -/
inductive WorkspaceStep where
  | create
  | copy (source : Nat)
  | edit (position : Nat) (edit : MethodBody.Edit)
  /-- Looking up an instruction or a position, which may make the index. -/
  | look (position : Nat)
  /-- Changing what a body holds besides its list. -/
  | furnish (position : Nat) (tryBlocks : Array (TryBlock Label)) (maxStack maxLocals : UInt16)

/-- A workspace, and the record of the body at each position. -/
structure RecordedWorkspace where
  workspace : Workspace
  record : Nat → NodeRecord

namespace RecordedWorkspace

def empty : RecordedWorkspace := ⟨.empty, fun _ => .empty⟩

/-- Adds a body with its record. -/
def add (state : RecordedWorkspace) (workspace : Workspace) (record : NodeRecord) :
    RecordedWorkspace :=
  ⟨workspace, Function.update state.record state.workspace.bodies.size record⟩

/-- Exchanges a body and its record. -/
def set (state : RecordedWorkspace) (position : Nat) (body : MethodBody) (record : NodeRecord) :
    RecordedWorkspace :=
  ⟨state.workspace.set position body, Function.update state.record position record⟩

/-- Performs a step. A step on a body that there is not does nothing. -/
def step (state : RecordedWorkspace) : WorkspaceStep → RecordedWorkspace
  | .create => state.add state.workspace.addEmpty .empty
  | .copy source =>
      match state.workspace.bodies[source]? with
      | some body => state.add (state.workspace.addCopy body) (state.record source).copy
      | none => state
  | .edit position edit =>
      match state.workspace.bodies[position]? with
      | some body =>
          state.set position (body.perform edit).2
            ((state.record position).after edit (body.perform edit).1)
      | none => state
  | .look position =>
      match state.workspace.bodies[position]? with
      | some body => state.set position body.withIndex.2 (state.record position)
      | none => state
  | .furnish position tryBlocks maxStack maxLocals =>
      match state.workspace.bodies[position]? with
      | some body =>
          state.set position { body with tryBlocks, maxStack, maxLocals } (state.record position)
      | none => state

/-- Performs steps one after the other. -/
def run (state : RecordedWorkspace) (steps : List WorkspaceStep) : RecordedWorkspace :=
  steps.foldl step state

/-- Bodies, slots and removals fit the 32-bit numbers that stand for them. -/
structure Bounded (state : RecordedWorkspace) : Prop where
  bodies : state.workspace.bodies.size ≤ 2 ^ 32
  slots : ∀ (position : Nat) (body : MethodBody), state.workspace.bodies[position]? = some body →
    body.slots.size ≤ 2 ^ 32
  removals : ∀ position < state.workspace.bodies.size, ∀ slot,
    (state.record position).removals slot < 2 ^ 32

/-- The body at a position gives a handle out for the node of this number. -/
def Issues (state : RecordedWorkspace) (position : Nat) (handle : InstructionHandle)
    (number : Nat) : Prop :=
  ∃ body, state.workspace.bodies[position]? = some body ∧
    handle ∈ body.toList.map (·.1) ∧
    (state.record position).occupant handle.slot = some number

/-- What a step does to one body and its record. -/
inductive BodyStep (body : MethodBody) (record : NodeRecord) : MethodBody → NodeRecord → Prop where
  | edit (edit : MethodBody.Edit) :
      BodyStep body record (body.perform edit).2 (record.after edit (body.perform edit).1)
  | keep {body'} (same : body.SameList body') (id : body'.id = body.id)
      (indexed : ∀ order, body.Chain order → body.Indexed → body'.Indexed) :
      BodyStep body record body' record

/-- What a step does to a workspace. -/
inductive StepEffect (state : RecordedWorkspace) : RecordedWorkspace → Prop where
  | nothing : StepEffect state state
  | create : StepEffect state (state.add state.workspace.addEmpty .empty)
  | copy {source body} (found : state.workspace.bodies[source]? = some body) :
      StepEffect state (state.add (state.workspace.addCopy body) (state.record source).copy)
  | set {position body body' record'} (found : state.workspace.bodies[position]? = some body)
      (step : BodyStep body (state.record position) body' record') :
      StepEffect state (state.set position body' record')

theorem stepEffect (state : RecordedWorkspace) (step : WorkspaceStep) :
    StepEffect state (state.step step) := by
  cases step with
  | create => exact .create
  | copy source =>
      simp only [RecordedWorkspace.step]
      cases found : state.workspace.bodies[source]? with
      | none => exact .nothing
      | some body => exact .copy found
  | edit position edit =>
      simp only [RecordedWorkspace.step]
      cases found : state.workspace.bodies[position]? with
      | none => exact .nothing
      | some body => exact .set found (.edit edit)
  | look position =>
      simp only [RecordedWorkspace.step]
      cases found : state.workspace.bodies[position]? with
      | none => exact .nothing
      | some body =>
          obtain ⟨same, hid⟩ := body.sameList_withIndex
          exact .set found (.keep same hid fun _ _ indexed => indexed.withIndex)
  | furnish position tryBlocks maxStack maxLocals =>
      simp only [RecordedWorkspace.step]
      cases found : state.workspace.bodies[position]? with
      | none => exact .nothing
      | some body =>
          exact .set found (.keep ⟨rfl, rfl, rfl, rfl, rfl⟩ rfl fun _ _ indexed =>
            indexed.furnish tryBlocks maxStack maxLocals)

section BodyStep

variable {body body' : MethodBody} {record record' : NodeRecord} {position : Nat}

theorem BodyStep.slotCount_le (step : BodyStep body record body' record') :
    body.slots.size ≤ body'.slots.size := by
  cases step with
  | edit edit => exact MethodBody.slotCount_le_perform edit
  | keep same => rw [same.slots]

theorem BodyStep.removals_le (step : BodyStep body record body' record') (slot : UInt32) :
    record.removals slot ≤ record'.removals slot := by
  cases step with
  | keep => exact Nat.le_refl _
  | edit edit =>
      obtain h | ⟨entered, h⟩ | ⟨left, h⟩ := record.after_cases edit (body.perform edit).1
      · rw [h]
      · rw [h]
        exact Nat.le_refl _
      · simp only [h, NodeRecord.leave, Function.update_apply]
        split
        · rename_i hslot
          rw [hslot]
          omega
        · exact Nat.le_refl _

theorem BodyStep.removed_subset (step : BodyStep body record body' record') :
    record.removed ⊆ record'.removed := by
  cases step with
  | keep => exact List.Subset.refl _
  | edit edit =>
      obtain h | ⟨entered, h⟩ | ⟨left, h⟩ := record.after_cases edit (body.perform edit).1
      · rw [h]
        exact List.Subset.refl _
      · rw [h]
        exact List.Subset.refl _
      · rw [h]
        exact List.subset_append_right _ _

theorem BodyStep.recorded (step : BodyStep body record body' record')
    (recorded : body.Recorded record position) (bound : body'.slots.size ≤ 2 ^ 32) :
    body'.Recorded record' position := by
  cases step with
  | edit edit => exact recorded.perform edit bound
  | keep same id indexed =>
      obtain ⟨order, chain⟩ := recorded.chain
      exact recorded.of_sameList same id (indexed order chain recorded.indexed)

theorem BodyStep.named (step : BodyStep body record body' record')
    (recorded : body.Recorded record position) (bound : body'.slots.size ≤ 2 ^ 32)
    {handle : InstructionHandle} {number base : Nat}
    (named : body.Named record handle number base) : body'.Named record' handle number base := by
  cases step with
  | edit edit => exact named.perform recorded edit bound
  | keep same =>
      refine { named with generation := ?_ }
      rw [← named.generation, MethodBody.generation, MethodBody.generation, same.slots]

end BodyStep

/-- Each body has the identity of its position and agrees with its record. -/
def Sound (state : RecordedWorkspace) : Prop :=
  ∀ (position : Nat) (body : MethodBody), state.workspace.bodies[position]? = some body →
    body.Recorded (state.record position) position

/-- The body at a position gave a handle out for a node, when its slot had seen so many
removals. -/
def Gave (state : RecordedWorkspace) (position : Nat) (handle : InstructionHandle)
    (number base : Nat) : Prop :=
  handle.body = UInt32.ofNat position ∧ ∃ body, state.workspace.bodies[position]? = some body ∧
    body.Named (state.record position) handle number base

variable {state : RecordedWorkspace}

/-- A body that was put at the end, or one from before. -/
theorem find_push {bodies : Array MethodBody} {body found : MethodBody} {position : Nat}
    (h : (bodies.push body)[position]? = some found) :
    (position = bodies.size ∧ found = body) ∨
      (position ≠ bodies.size ∧ bodies[position]? = some found) := by
  rw [Array.getElem?_push] at h
  split at h
  · rename_i hsize
    exact .inl ⟨hsize, (Option.some.inj h).symm⟩
  · rename_i hsize
    exact .inr ⟨hsize, h⟩

theorem find_set {bodies : Array MethodBody} {body body' found : MethodBody}
    {position other : Nat} (hbody : bodies[position]? = some body)
    (h : (bodies.setIfInBounds position body')[other]? = some found) :
    (other = position ∧ found = body') ∨ (other ≠ position ∧ bodies[other]? = some found) := by
  obtain ⟨hlt, -⟩ := Array.getElem?_eq_some_iff.mp hbody
  by_cases hother : other = position
  · subst hother
    rw [Array.getElem?_setIfInBounds_self_of_lt hlt] at h
    exact .inl ⟨rfl, (Option.some.inj h).symm⟩
  · rw [Array.getElem?_setIfInBounds_ne (Ne.symm hother)] at h
    exact .inr ⟨hother, h⟩

theorem find_push_of_found {bodies : Array MethodBody} {body : MethodBody} {position : Nat}
    (added : MethodBody) (h : bodies[position]? = some body) :
    position ≠ bodies.size ∧ (bodies.push added)[position]? = some body := by
  obtain ⟨hlt, -⟩ := Array.getElem?_eq_some_iff.mp h
  have hne : position ≠ bodies.size := by omega
  exact ⟨hne, by rw [Array.getElem?_push, if_neg hne, h]⟩

theorem find_set_self {bodies : Array MethodBody} {body : MethodBody} {position : Nat}
    (body' : MethodBody) (h : bodies[position]? = some body) :
    (bodies.setIfInBounds position body')[position]? = some body' :=
  Array.getElem?_setIfInBounds_self_of_lt (Array.getElem?_eq_some_iff.mp h).1

theorem Bounded.of_add {added : MethodBody} {record : NodeRecord}
    (bounded : (state.add ⟨state.workspace.bodies.push added⟩ record).Bounded) :
    state.Bounded := by
  refine ⟨?_, fun position body hbody => ?_, fun position hlt slot => ?_⟩
  · have := bounded.bodies
    simp only [add, Array.size_push] at this
    omega
  · exact bounded.slots position body (find_push_of_found added hbody).2
  · have hne : position ≠ state.workspace.bodies.size := by omega
    have h := bounded.removals position (by simp only [add, Array.size_push]; omega) slot
    simpa [add, hne] using h

/-- What is bounded after a step was bounded before. -/
theorem Bounded.of_step {step : WorkspaceStep} (bounded : (state.step step).Bounded) :
    state.Bounded := by
  have effect := stepEffect state step
  generalize state.step step = after at effect bounded
  cases effect with
  | nothing => exact bounded
  | create => exact bounded.of_add
  | copy found => exact bounded.of_add
  | @set position body body' record' found step =>
      have hsize : (state.set position body' record').workspace.bodies.size =
          state.workspace.bodies.size := Array.size_setIfInBounds
      refine ⟨hsize ▸ bounded.bodies, fun other found' hfound' => ?_, fun other hlt slot => ?_⟩
      · by_cases hother : other = position
        · subst hother
          obtain rfl : body = found' := Option.some.inj (found.symm.trans hfound')
          exact step.slotCount_le.trans (bounded.slots other body' (find_set_self body' found))
        · refine bounded.slots other found' ?_
          rw [← hfound']
          exact Array.getElem?_setIfInBounds_ne (Ne.symm hother)
      · have h := bounded.removals other (hsize ▸ hlt) slot
        by_cases hother : other = position
        · subst hother
          simp only [RecordedWorkspace.set, Function.update_self] at h
          exact (step.removals_le slot).trans_lt h
        · simpa [RecordedWorkspace.set, hother] using h

theorem Sound.step (sound : state.Sound) {step : WorkspaceStep}
    (bounded : (state.step step).Bounded) : (state.step step).Sound := by
  have effect := stepEffect state step
  generalize state.step step = after at effect bounded ⊢
  cases effect with
  | nothing => exact sound
  | create =>
      intro position body hbody
      obtain ⟨rfl, rfl⟩ | ⟨hne, hbody⟩ := find_push hbody
      · simpa [add, Workspace.nextId] using
          MethodBody.recorded_empty state.workspace.bodies.size
      · simpa [add, hne] using sound position body hbody
  | copy found =>
      intro position body hbody
      obtain ⟨rfl, rfl⟩ | ⟨hne, hbody⟩ := find_push hbody
      · simpa [add, Workspace.nextId] using
          (sound _ _ found).copy state.workspace.bodies.size
      · simpa [add, hne] using sound position body hbody
  | @set position body body' record' found step =>
      intro other found' hfound'
      obtain ⟨rfl, rfl⟩ | ⟨hne, hfound'⟩ := find_set found hfound'
      · have bound := bounded.slots other _ (find_set_self _ found)
        simpa [RecordedWorkspace.set] using step.recorded (sound _ _ found) bound
      · simpa [RecordedWorkspace.set, hne] using sound other found' hfound'

/-- A handle that was given out stays given out for its node. -/
theorem Gave.step (sound : state.Sound) {step : WorkspaceStep}
    (bounded : (state.step step).Bounded) {k : Nat} {handle : InstructionHandle}
    {number base : Nat} (gave : state.Gave k handle number base) :
    (state.step step).Gave k handle number base := by
  obtain ⟨hbody, body, found, named⟩ := gave
  have effect := stepEffect state step
  generalize state.step step = after at effect bounded ⊢
  cases effect with
  | nothing => exact ⟨hbody, body, found, named⟩
  | create =>
      obtain ⟨hne, hpush⟩ := find_push_of_found (.empty state.workspace.nextId) found
      exact ⟨hbody, body, hpush, by simpa [add, hne] using named⟩
  | @copy source copied _ =>
      obtain ⟨hne, hpush⟩ := find_push_of_found (copied.copy state.workspace.nextId) found
      exact ⟨hbody, body, hpush, by simpa [add, hne] using named⟩
  | @set position changed body' record' hchanged step =>
      by_cases hk : k = position
      · subst hk
        obtain rfl : changed = body := Option.some.inj (hchanged.symm.trans found)
        have hset := find_set_self body' found
        refine ⟨hbody, body', hset, ?_⟩
        have bound := bounded.slots k body' hset
        simpa [RecordedWorkspace.set] using step.named (sound k changed found) bound named
      · refine ⟨hbody, body, ?_, by simpa [RecordedWorkspace.set, hk] using named⟩
        rw [← found]
        exact Array.getElem?_setIfInBounds_ne (Ne.symm hk)

theorem run_append (state : RecordedWorkspace) (before after : List WorkspaceStep) :
    state.run (before ++ after) = (state.run before).run after := List.foldl_append ..

theorem Bounded.of_run {steps : List WorkspaceStep} (bounded : (state.run steps).Bounded) :
    state.Bounded := by
  induction steps generalizing state with
  | nil => exact bounded
  | cons first rest ih => exact (ih bounded).of_step

theorem Sound.run (sound : state.Sound) {steps : List WorkspaceStep}
    (bounded : (state.run steps).Bounded) : (state.run steps).Sound := by
  induction steps generalizing state with
  | nil => exact sound
  | cons first rest ih =>
      have hfirst : (state.step first).Bounded := Bounded.of_run bounded
      exact ih (sound.step hfirst) bounded

theorem Gave.run (sound : state.Sound) {steps : List WorkspaceStep}
    (bounded : (state.run steps).Bounded) {k : Nat} {handle : InstructionHandle}
    {number base : Nat} (gave : state.Gave k handle number base) :
    (state.run steps).Gave k handle number base := by
  induction steps generalizing state with
  | nil => exact gave
  | cons first rest ih =>
      have hfirst : (state.step first).Bounded := Bounded.of_run bounded
      exact ih (sound.step hfirst) bounded (gave.step sound hfirst)

theorem sound_empty : empty.Sound := by
  intro position body h
  simp [empty, Workspace.empty] at h

theorem size_le_step (step : WorkspaceStep) :
    state.workspace.bodies.size ≤ (state.step step).workspace.bodies.size := by
  have effect := stepEffect state step
  generalize state.step step = after at effect ⊢
  cases effect with
  | nothing => exact Nat.le_refl _
  | create => simp [add, Workspace.addEmpty]
  | copy => simp [add, Workspace.addCopy]
  | set => simp [RecordedWorkspace.set, Workspace.set]

theorem size_le_run (steps : List WorkspaceStep) :
    state.workspace.bodies.size ≤ (state.run steps).workspace.bodies.size := by
  induction steps generalizing state with
  | nil => exact Nat.le_refl _
  | cons first rest ih => exact (size_le_step first).trans ih

theorem removed_subset_step (step : WorkspaceStep) {k : Nat}
    (hk : k < state.workspace.bodies.size) :
    (state.record k).removed ⊆ ((state.step step).record k).removed := by
  have effect := stepEffect state step
  generalize state.step step = after at effect ⊢
  have hne : k ≠ state.workspace.bodies.size := by omega
  cases effect with
  | nothing => exact List.Subset.refl _
  | create => simp [add, hne]
  | copy => simp [add, hne]
  | @set position body body' record' found step =>
      by_cases hposition : k = position
      · subst hposition
        simpa [RecordedWorkspace.set] using step.removed_subset
      · simp [RecordedWorkspace.set, hposition]

/-- A node that was removed stays removed. -/
theorem removed_subset_run (steps : List WorkspaceStep) {k : Nat}
    (hk : k < state.workspace.bodies.size) :
    (state.record k).removed ⊆ ((state.run steps).record k).removed := by
  induction steps generalizing state with
  | nil => exact List.Subset.refl _
  | cons first rest ih =>
      exact List.Subset.trans (removed_subset_step first hk) (ih (hk.trans_le (size_le_step first)))

/-- An insertion gives out a handle for the node that it puts in. -/
theorem issues_of_insertion (sound : state.Sound) {position : Nat} {body : MethodBody}
    (found : state.workspace.bodies[position]? = some body) {edit : MethodBody.Edit}
    {handle : InstructionHandle} (answer : (body.perform edit).1 = .ok (.handle handle))
    (bounded : (state.step (.edit position edit)).Bounded) :
    (state.step (.edit position edit)).Issues position handle (state.record position).inserted := by
  have hstep : state.step (.edit position edit) =
      state.set position (body.perform edit).2
        ((state.record position).after edit (body.perform edit).1) := by
    simp only [RecordedWorkspace.step, found]
  rw [hstep] at bounded ⊢
  have hset := find_set_self (body.perform edit).2 found
  obtain ⟨order, chain⟩ := (sound position body found).chain
  obtain ⟨-, rule⟩ := chain.follows edit (bounded.slots position _ hset)
  rw [answer] at rule
  refine ⟨(body.perform edit).2, hset, rule.mem_of_handle, ?_⟩
  simp [RecordedWorkspace.set, answer, NodeRecord.after, NodeRecord.enter]

theorem Issues.gave (sound : state.Sound) {k : Nat} {handle : InstructionHandle} {number : Nat}
    (issued : state.Issues k handle number) :
    state.Gave k handle number ((state.record k).removals handle.slot) := by
  obtain ⟨body, found, hmem, hoccupant⟩ := issued
  have recorded := sound k body found
  have hbody := ((recorded.mem_iff_occupied handle).mp hmem).2.1
  exact ⟨hbody.trans recorded.id, body, found, recorded.named_of_mem hmem hoccupant⟩

/-- Given out and present: on the walk of the body that gave it out as long as the node is there,
and on the walk of no other body. -/
theorem Gave.mem_iff (sound : state.Sound) (bounded : state.Bounded) {k position : Nat}
    {handle : InstructionHandle} {number base : Nat} {body : MethodBody}
    (gave : state.Gave k handle number base)
    (found : state.workspace.bodies[position]? = some body) :
    handle ∈ body.toList.map (·.1) ↔ position = k ∧ number ∉ (state.record k).removed := by
  obtain ⟨hbody, giver, hgiver, named⟩ := gave
  have recorded := sound position body found
  obtain ⟨hposition, -⟩ := Array.getElem?_eq_some_iff.mp found
  obtain ⟨hk, -⟩ := Array.getElem?_eq_some_iff.mp hgiver
  have hsize := bounded.bodies
  by_cases heq : position = k
  · subst heq
    obtain rfl : body = giver := Option.some.inj (found.symm.trans hgiver)
    rw [recorded.mem_iff_present named (hbody.trans recorded.id.symm)
      (bounded.removals position hposition handle.slot)]
    simp
  · refine iff_of_false (fun hmem => ?_) fun h => heq h.1
    -- the identities of two bodies differ, because there are at most `2 ^ 32`
    have hid := ((recorded.mem_iff_occupied handle).mp hmem).2.1
    rw [hbody, recorded.id] at hid
    have htoNat := congrArg UInt32.toNat hid
    rw [UInt32.toNat_ofNat', UInt32.toNat_ofNat', Nat.mod_eq_of_lt (by omega),
      Nat.mod_eq_of_lt (by omega)] at htoNat
    exact heq htoNat.symm

/-- A handle is accepted by the body that gave it out until its node is removed, and then refused
for good; every other body, a copy included, refuses it. While it is accepted, the node it was
given out for is in its slot, and walking the list comes to the same answer for every handle. -/
theorem accepts_iff_giver_and_present (before after : List WorkspaceStep)
    (bounded : (empty.run (before ++ after)).Bounded) {k : Nat} {handle : InstructionHandle}
    {number : Nat} (issued : (empty.run before).Issues k handle number) {position : Nat}
    {body : MethodBody}
    (found : (empty.run (before ++ after)).workspace.bodies[position]? = some body) :
    (body.Accepts handle ↔
        position = k ∧ number ∉ ((empty.run (before ++ after)).record k).removed) ∧
      (¬ body.Accepts handle → body.Refuses handle) ∧
      (body.Accepts handle →
        ((empty.run (before ++ after)).record position).occupant handle.slot = some number) ∧
      (∀ between rest, after = between ++ rest →
        number ∈ ((empty.run (before ++ between)).record k).removed → body.Refuses handle) ∧
      ∀ other, body.contains other = true ↔ body.Accepts other := by
  have bounded₀ : (empty.run before).Bounded := by
    rw [run_append] at bounded
    exact bounded.of_run
  have sound₀ : (empty.run before).Sound := sound_empty.run bounded₀
  have sound : (empty.run (before ++ after)).Sound := sound_empty.run bounded
  have gave : (empty.run (before ++ after)).Gave k handle number
      (((empty.run before).record k).removals handle.slot) := by
    rw [run_append] at bounded ⊢
    exact (issued.gave sound₀).run sound₀ bounded
  have hmem := gave.mem_iff sound bounded found
  have recorded := sound position body found
  obtain ⟨order, chain⟩ := recorded.chain
  have hrefuses (h : ¬ body.Accepts handle) : body.Refuses handle :=
    chain.refuses_of_notMem fun hwalk => h (chain.accepts_of_mem recorded.indexed hwalk)
  refine ⟨(chain.accepts_iff recorded.indexed handle).trans hmem, hrefuses, fun h => ?_,
    fun between rest hafter hremoved => hrefuses fun h => ?_, fun other => ?_⟩
  · obtain ⟨rfl, hpresent⟩ := hmem.mp ((chain.accepts_iff recorded.indexed handle).mp h)
    obtain ⟨-, giver, -, named⟩ := gave
    exact named.present hpresent
  · obtain ⟨-, hpresent⟩ := hmem.mp ((chain.accepts_iff recorded.indexed handle).mp h)
    have hk : k < (empty.run (before ++ between)).workspace.bodies.size := by
      rw [hafter, ← List.append_assoc, run_append] at bounded
      obtain ⟨-, giver, hgiver, -⟩ := issued.gave sound₀
      rw [run_append]
      exact (Array.getElem?_eq_some_iff.mp hgiver).1.trans_le (size_le_run between)
    rw [hafter, ← List.append_assoc, run_append] at hpresent
    exact hpresent (removed_subset_run rest hk hremoved)
  · rw [MethodBody.contains_iff, chain.accepts_iff recorded.indexed]

/-- A slot that is used again: the stale handle is refused, the new one is accepted by its body and
refused by a copy. -/
theorem accepts_iff_giver_and_present_reused_slot :
    let first : List WorkspaceStep := [.create, .edit 0 (.append (.simple ⟨0⟩))]
    let second : List WorkspaceStep :=
      [.edit 0 (.remove ⟨0, 0, 0⟩), .edit 0 (.prepend (.simple ⟨1⟩))]
    let third : List WorkspaceStep := [.look 0, .copy 0]
    let final := empty.run ((first ++ second) ++ third)
    final.Bounded ∧ (empty.run first).Issues 0 ⟨0, 0, 0⟩ 0 ∧
      (empty.run (first ++ second)).Issues 0 ⟨0, 0, 1⟩ 1 ∧
      ∃ body copy, final.workspace.bodies[0]? = some body ∧
        final.workspace.bodies[1]? = some copy ∧ body.Refuses ⟨0, 0, 0⟩ ∧
        body.Accepts ⟨0, 0, 1⟩ ∧ copy.Refuses ⟨0, 0, 1⟩ := by
  intro first second third final
  have bounded : final.Bounded := by
    have hslots : final.workspace.bodies.toList.all (·.slots.size ≤ 2 ^ 32) = true := by decide
    refine ⟨by decide, fun position body found => ?_, fun position hlt slot => ?_⟩
    · obtain ⟨hlt, rfl⟩ := Array.getElem?_eq_some_iff.mp found
      simpa using List.all_eq_true.mp hslots _ (Array.getElem_mem_toList hlt)
    · obtain rfl | rfl : position = 0 ∨ position = 1 := by
        have hsize : final.workspace.bodies.size = 2 := by decide
        omega
      · change Function.update (fun _ => 0) 0 1 slot < _
        rw [Function.update_apply]
        split <;> decide
      · change 0 < 2 ^ 32
        decide
  have issued₀ : (empty.run first).Issues 0 ⟨0, 0, 0⟩ 0 := ⟨_, rfl, by decide, by decide⟩
  have issued₁ : (empty.run (first ++ second)).Issues 0 ⟨0, 0, 1⟩ 1 :=
    ⟨_, rfl, by decide, by decide⟩
  have bounded' : (empty.run (first ++ (second ++ third))).Bounded := bounded
  refine ⟨bounded, issued₀, issued₁, _, _, rfl, rfl, ?_, ?_, ?_⟩
  · obtain ⟨accepts, refuses, -⟩ := accepts_iff_giver_and_present first (second ++ third) bounded'
      issued₀ (show final.workspace.bodies[0]? = some _ from rfl)
    exact refuses fun h => (accepts.mp h).2 (by decide)
  · exact (accepts_iff_giver_and_present (first ++ second) third bounded issued₁ rfl).1.mpr
      ⟨rfl, by decide⟩
  · obtain ⟨accepts, refuses, -⟩ := accepts_iff_giver_and_present (first ++ second) third bounded
      issued₁ (show final.workspace.bodies[1]? = some _ from rfl)
    exact refuses fun h => absurd (accepts.mp h).1 (by decide)

end RecordedWorkspace

end JavaClass
