import Mathlib.Algebra.Ring.Nat
import Mathlib.Data.List.Basic
import Mathlib.Data.Finset.Card
import Mathlib.Data.List.Dedup
import JavaClass.Body.Basic

/-!
# The list inside a method body

The nodes of a body form one doubly linked list, and every slot without a node
is free. `Chain body order` says so, `order` being the slots of the list from
the first to the last. Inserting between two neighbours and taking a node out
keep a chain, and both say what the slots hold afterwards.

## Implementation notes

A link to a missing neighbour changes an end of the list instead, so what one
link does is said of the node in every slot and of both ends at once.
-/

namespace JavaClass.MethodBody

variable {body : MethodBody}

/-- The instruction in a slot. -/
def instruction? (body : MethodBody) (slot : UInt32) : Option (Instruction Label) :=
  (body.node? slot).map (·.instruction)

/-- Each node of a list names its neighbours. -/
def Links (body : MethodBody) (order : List UInt32) : Prop :=
  ∀ before slot after, order = before ++ slot :: after →
    ∃ node, body.node? slot = some node ∧
      node.before = before.getLast? ∧ node.after = after.head?

/-- The slots in `order` are linked in this order and all other slots are free. -/
structure Chain (body : MethodBody) (order : List UInt32) : Prop where
  nodup : order.Nodup
  first : body.first = order.head?
  last : body.last = order.getLast?
  size : body.size = order.length
  links : Links body order
  /-- No node lies outside the list. -/
  linked : ∀ slot, (body.node? slot).isSome → slot ∈ order
  free_nodup : body.free.Nodup
  mem_free : ∀ slot, slot ∈ body.free ↔ slot.toNat < body.slots.size ∧ body.node? slot = none

theorem chain_empty (id : UInt32) : Chain (empty id) [] where
  nodup := List.nodup_nil
  first := rfl
  last := rfl
  size := rfl
  links := by simp [Links]
  linked := by simp [node?, empty]
  free_nodup := List.nodup_nil
  mem_free := by simp [empty]

theorem lt_size_of_node? {slot : UInt32} {node : BodyNode} (h : body.node? slot = some node) :
    slot.toNat < body.slots.size := by
  by_contra hlt
  have : body.slots[slot.toNat]? = none := by simpa using hlt
  simp [node?, this] at h

/-- The slot that takes the next node. -/
def nextSlot (body : MethodBody) : UInt32 :=
  body.free.head?.getD (UInt32.ofNat body.slots.size)

/-- There is a place for one more node: a free slot, or a number for a new one. -/
def HasRoom (body : MethodBody) : Prop :=
  body.free = [] → body.slots.size < 2 ^ 32

theorem allocate_fst (node : BodyNode) : (body.allocate node).1 = body.nextSlot := by
  unfold allocate nextSlot
  cases body.free <;> rfl

theorem toNat_size (h : body.slots.size < 2 ^ 32) :
    (UInt32.ofNat body.slots.size).toNat = body.slots.size := by
  simpa using h

theorem node?_allocate {order : List UInt32} (chain : body.Chain order) (room : body.HasRoom)
    (node : BodyNode) (slot : UInt32) :
    (body.allocate node).2.node? slot =
      if slot = body.nextSlot then some node else body.node? slot := by
  unfold allocate nextSlot
  cases hfree : body.free with
  | nil =>
      have hsize := toNat_size (room hfree)
      simp only [node?, List.head?_nil, Option.getD_none, Array.getElem?_push]
      by_cases hslot : slot = UInt32.ofNat body.slots.size
      · simp [hslot, hsize]
      · have hne : slot.toNat ≠ body.slots.size := by
          intro h
          exact hslot (UInt32.toNat_inj.mp (h.trans hsize.symm))
        simp [hslot, hne]
  | cons taken rest =>
      have hlt : taken.toNat < body.slots.size :=
        ((chain.mem_free taken).mp (by simp [hfree])).1
      simp only [node?, List.head?_cons, Option.getD_some, Array.getElem?_modify]
      by_cases hslot : slot = taken
      · simp [hslot, hlt]
      · have hne : ¬ taken.toNat = slot.toNat := by
          intro h
          exact hslot (UInt32.toNat_inj.mp h.symm)
        simp [hslot, hne]

theorem generation_allocate (node : BodyNode) (slot : UInt32) :
    (body.allocate node).2.generation slot = body.generation slot := by
  unfold allocate
  cases hfree : body.free with
  | nil =>
      simp only [generation, Array.getElem?_push]
      by_cases hslot : slot.toNat = body.slots.size <;> simp [hslot]
  | cons taken rest =>
      simp only [generation, Array.getElem?_modify]
      by_cases hslot : taken.toNat = slot.toNat
      · cases body.slots[slot.toNat]? <;> simp [hslot]
      · simp [hslot]

theorem nextSlot_unused {order : List UInt32} (chain : body.Chain order) (room : body.HasRoom) :
    body.node? body.nextSlot = none := by
  unfold nextSlot
  cases hfree : body.free with
  | nil =>
      have hsize := toNat_size (room hfree)
      simp [node?, hsize]
  | cons taken rest => exact ((chain.mem_free taken).mp (by simp [hfree])).2

theorem nextSlot_notMem {order : List UInt32} (chain : body.Chain order) (room : body.HasRoom) :
    body.nextSlot ∉ order := by
  intro hmem
  obtain ⟨before, after, rfl⟩ := List.append_of_mem hmem
  obtain ⟨node, hnode, -⟩ := chain.links _ _ _ rfl
  simp [nextSlot_unused chain room] at hnode

/-- Changes the node in a slot, if there is one. -/
def editNode (body : MethodBody) (slot : UInt32) (edit : BodyNode → BodyNode) : MethodBody :=
  { body with slots := body.slots.modify slot.toNat fun s => { s with node := s.node.map edit } }

theorem node?_editNode (body : MethodBody) (slot : UInt32) (edit : BodyNode → BodyNode)
    (t : UInt32) :
    (body.editNode slot edit).node? t =
      if t = slot then (body.node? t).map edit else body.node? t := by
  simp only [editNode, node?, Array.getElem?_modify, UInt32.toNat_inj]
  by_cases ht : slot = t
  · subst ht
    cases body.slots[slot.toNat]? <;> simp
  · simp [ht, Ne.symm ht]

theorem generation_editNode (slot : UInt32) (edit : BodyNode → BodyNode) (t : UInt32) :
    (body.editNode slot edit).generation t = body.generation t := by
  simp only [editNode, generation, Array.getElem?_modify, UInt32.toNat_inj]
  by_cases ht : slot = t
  · subst ht
    cases body.slots[slot.toNat]? <;> simp
  · simp [ht]

theorem size_editNode (slot : UInt32) (edit : BodyNode → BodyNode) :
    (body.editNode slot edit).slots.size = body.slots.size := by
  simp [editNode]

theorem linkAfter_some {slot : UInt32} (after : Option UInt32)
    (h : (body.node? slot).isSome) :
    body.linkAfter (some slot) after = body.editNode slot ({ · with after }) := by
  have hslot : (some slot).filter (fun slot => (body.node? slot).isSome) = some slot := by
    simp [h]
  simp only [linkAfter, hslot, editNode]

theorem linkBefore_some {slot : UInt32} (before : Option UInt32)
    (h : (body.node? slot).isSome) :
    body.linkBefore (some slot) before = body.editNode slot ({ · with before }) := by
  have hslot : (some slot).filter (fun slot => (body.node? slot).isSome) = some slot := by
    simp [h]
  simp only [linkBefore, hslot, editNode]

/-- A neighbour is missing or has a node. -/
def Neighbour (body : MethodBody) (slot : Option UInt32) : Prop :=
  ∀ s, slot = some s → (body.node? s).isSome

theorem node?_linkAfter {slot : Option UInt32} (h : body.Neighbour slot)
    (after : Option UInt32) (t : UInt32) :
    (body.linkAfter slot after).node? t =
      if slot = some t then (body.node? t).map ({ · with after }) else body.node? t := by
  cases slot with
  | none => rfl
  | some s =>
      rw [linkAfter_some after (h s rfl), node?_editNode]
      simp [eq_comm]

theorem node?_linkBefore {slot : Option UInt32} (h : body.Neighbour slot)
    (before : Option UInt32) (t : UInt32) :
    (body.linkBefore slot before).node? t =
      if slot = some t then (body.node? t).map ({ · with before }) else body.node? t := by
  cases slot with
  | none => rfl
  | some s =>
      rw [linkBefore_some before (h s rfl), node?_editNode]
      simp [eq_comm]

theorem first_linkAfter {slot : Option UInt32} (h : body.Neighbour slot)
    (after : Option UInt32) :
    (body.linkAfter slot after).first = if slot = none then after else body.first := by
  cases slot with
  | none => rfl
  | some s => simp [linkAfter_some after (h s rfl), editNode]

theorem last_linkBefore {slot : Option UInt32} (h : body.Neighbour slot)
    (before : Option UInt32) :
    (body.linkBefore slot before).last = if slot = none then before else body.last := by
  cases slot with
  | none => rfl
  | some s => simp [linkBefore_some before (h s rfl), editNode]

/-- What a change of links leaves alone. -/
structure SameSlots (a b : MethodBody) : Prop where
  id : b.id = a.id
  free : b.free = a.free
  size : b.size = a.size
  slotCount : b.slots.size = a.slots.size
  generation : ∀ slot, b.generation slot = a.generation slot

theorem sameSlots_linkAfter {slot : Option UInt32} (h : body.Neighbour slot)
    (after : Option UInt32) : SameSlots body (body.linkAfter slot after) := by
  cases slot with
  | none => exact ⟨rfl, rfl, rfl, rfl, fun _ => rfl⟩
  | some s =>
      rw [linkAfter_some after (h s rfl)]
      exact ⟨rfl, rfl, rfl, size_editNode .., generation_editNode _ _⟩

theorem sameSlots_linkBefore {slot : Option UInt32} (h : body.Neighbour slot)
    (before : Option UInt32) : SameSlots body (body.linkBefore slot before) := by
  cases slot with
  | none => exact ⟨rfl, rfl, rfl, rfl, fun _ => rfl⟩
  | some s =>
      rw [linkBefore_some before (h s rfl)]
      exact ⟨rfl, rfl, rfl, size_editNode .., generation_editNode _ _⟩

theorem last_linkAfter {slot : Option UInt32} (h : body.Neighbour slot)
    (after : Option UInt32) : (body.linkAfter slot after).last = body.last := by
  cases slot with
  | none => rfl
  | some s => rw [linkAfter_some after (h s rfl)]; rfl

theorem first_linkBefore {slot : Option UInt32} (h : body.Neighbour slot)
    (before : Option UInt32) : (body.linkBefore slot before).first = body.first := by
  cases slot with
  | none => rfl
  | some s => rw [linkBefore_some before (h s rfl)]; rfl

theorem Chain.node?_isSome_iff {order : List UInt32} (chain : body.Chain order) (slot : UInt32) :
    (body.node? slot).isSome ↔ slot ∈ order := by
  refine ⟨chain.linked slot, fun hmem => ?_⟩
  obtain ⟨before, after, rfl⟩ := List.append_of_mem hmem
  obtain ⟨node, hnode, -⟩ := chain.links _ _ _ rfl
  simp [hnode]

/-- Makes `next` follow one neighbour and `previous` precede the other. -/
def relink (body : MethodBody) (before after next previous : Option UInt32) : MethodBody :=
  (body.linkAfter before next).linkBefore after previous

theorem slotCount_relink (before after next previous : Option UInt32) :
    (body.relink before after next previous).slots.size = body.slots.size := by
  unfold relink linkBefore
  split <;> unfold linkAfter <;> split <;> simp

section Relink

variable {before after : Option UInt32} (hbefore : body.Neighbour before)
  (hafter : body.Neighbour after) (next previous : Option UInt32)

include hbefore hafter

theorem neighbour_linkAfter : (body.linkAfter before next).Neighbour after := by
  intro s hs
  rw [node?_linkAfter hbefore]
  have hsome := hafter s hs
  split <;> simpa using hsome

theorem node?_relink (t : UInt32) :
    (body.relink before after next previous).node? t =
      (body.node? t).map fun node =>
        ⟨node.instruction, if after = some t then previous else node.before,
          if before = some t then next else node.after⟩ := by
  rw [relink, node?_linkBefore (neighbour_linkAfter hbefore hafter next),
    node?_linkAfter hbefore]
  by_cases ha : after = some t <;> by_cases hb : before = some t <;>
    cases body.node? t <;> simp [ha, hb]

theorem first_relink :
    (body.relink before after next previous).first =
      if before = none then next else body.first := by
  rw [relink, first_linkBefore (neighbour_linkAfter hbefore hafter next),
    first_linkAfter hbefore]

theorem last_relink :
    (body.relink before after next previous).last =
      if after = none then previous else body.last := by
  rw [relink, last_linkBefore (neighbour_linkAfter hbefore hafter next),
    last_linkAfter hbefore]

theorem sameSlots_relink : SameSlots body (body.relink before after next previous) := by
  have h₁ := sameSlots_linkAfter hbefore next
  have h₂ := sameSlots_linkBefore (neighbour_linkAfter hbefore hafter next) previous
  exact ⟨h₂.id.trans h₁.id, h₂.free.trans h₁.free, h₂.size.trans h₁.size,
    h₂.slotCount.trans h₁.slotCount, fun slot => (h₂.generation slot).trans (h₁.generation slot)⟩

end Relink

theorem notMem_of_nodup_middle {α : Type} {a b : List α} {x : α} (nodup : (a ++ x :: b).Nodup) :
    x ∉ a ∧ x ∉ b := by
  have hx := (List.nodup_cons.mp (List.nodup_middle.mp nodup)).1
  simpa only [List.mem_append, not_or] using hx

/-- In a list without repetitions an element stands at one place. -/
theorem split_unique {α : Type} {a b c d : List α} {x : α} (nodup : (a ++ x :: b).Nodup)
    (h : a ++ x :: b = c ++ x :: d) : a = c ∧ b = d := by
  have hx := notMem_of_nodup_middle nodup
  obtain ⟨hac, -, hbd⟩ := (List.append_cons_inj_of_notMem hx.1 hx.2).mp h
  exact ⟨hac, hbd⟩

theorem getLast?_ne_of_notMem {α : Type} {l : List α} {x : α} (h : x ∉ l) :
    l.getLast? ≠ some x :=
  fun hx => h (List.mem_of_getLast? hx)

theorem head?_ne_of_notMem {α : Type} {l : List α} {x : α} (h : x ∉ l) :
    l.head? ≠ some x :=
  fun hx => h (List.mem_of_head? hx)

/-- Exchanging the middle part of a list takes a link from the part before it and a link from the
part after it. -/
theorem links_relink (base : MethodBody) (front old middle rest : List UInt32)
    (links : body.Links (front ++ old ++ rest)) (nodup : (front ++ middle ++ rest).Nodup)
    (same : ∀ t, t ∈ front ∨ t ∈ rest → base.node? t = body.node? t)
    (inner : ∀ before slot after, middle = before ++ slot :: after →
      ∃ node, base.node? slot = some node ∧
        node.before = (front ++ before).getLast? ∧ node.after = (after ++ rest).head?)
    (hfront : base.Neighbour front.getLast?) (hrest : base.Neighbour rest.head?) :
    (base.relink front.getLast? rest.head? (middle ++ rest).head? (front ++ middle).getLast?).Links
      (front ++ middle ++ rest) := by
  intro before slot after horder
  rw [node?_relink hfront hrest]
  have hmem : slot ∈ front ++ middle ++ rest := by simp [horder]
  simp only [List.mem_append] at hmem
  rcases hmem with (hslot | hslot) | hslot
  · -- before the exchanged part only the link to the next node can change
    obtain ⟨f, b, rfl⟩ := List.append_of_mem hslot
    obtain ⟨rfl, rfl⟩ := split_unique (a := f) (b := b ++ middle ++ rest) (by simpa using nodup)
      (by simpa using horder)
    obtain ⟨node, hnode, hbefore, hafter⟩ := links f slot (b ++ old ++ rest) (by simp)
    have hnodup := (notMem_of_nodup_middle (a := f) (b := b ++ middle ++ rest)
      (by simpa using nodup)).2
    simp only [List.mem_append, not_or] at hnodup
    refine ⟨_, by rw [same slot (Or.inl hslot), hnode]; rfl, ?_, ?_⟩
    · simpa [head?_ne_of_notMem hnodup.2] using hbefore
    · cases b with
      | nil => simp
      | cons next b =>
          have hne : (next :: b).getLast? ≠ some slot := getLast?_ne_of_notMem hnodup.1.1
          rw [List.getLast?_cons] at hne
          simpa [List.getLast?_cons, hne] using hafter
  · -- an exchanged node has its links already
    obtain ⟨f, b, rfl⟩ := List.append_of_mem hslot
    obtain ⟨rfl, rfl⟩ := split_unique (a := front ++ f) (b := b ++ rest) (by simpa using nodup)
      (by simpa using horder)
    obtain ⟨node, hnode, hbefore, hafter⟩ := inner f slot b rfl
    have hnodup := notMem_of_nodup_middle (a := front ++ f) (b := b ++ rest)
      (by simpa using nodup)
    simp only [List.mem_append, not_or] at hnodup
    refine ⟨_, by rw [hnode]; rfl, ?_, ?_⟩
    · simpa [head?_ne_of_notMem hnodup.2.2] using hbefore
    · simpa [getLast?_ne_of_notMem hnodup.1.1] using hafter
  · -- behind the exchanged part only the link to the previous node can change
    obtain ⟨f, b, rfl⟩ := List.append_of_mem hslot
    obtain ⟨rfl, rfl⟩ := split_unique (a := front ++ middle ++ f) (b := b) (by simpa using nodup)
      (by simpa using horder)
    obtain ⟨node, hnode, hbefore, hafter⟩ := links (front ++ old ++ f) slot b (by simp)
    have hnodup := (notMem_of_nodup_middle (a := front ++ middle ++ f) (b := b)
      (by simpa using nodup)).1
    simp only [List.mem_append, not_or] at hnodup
    refine ⟨_, by rw [same slot (Or.inr hslot), hnode]; rfl, ?_, ?_⟩
    · cases f with
      | nil => simp
      | cons first f =>
          have hne : first ≠ slot := by
            rintro rfl
            exact hnodup.2 (List.mem_cons_self ..)
          simpa [hne, List.getLast?_append, List.getLast?_cons] using hbefore
    · simpa [getLast?_ne_of_notMem hnodup.1.1] using hafter

/-- The body between finding a place for a node and linking it. -/
def withNode (body : MethodBody) (i : Instruction Label) (before after : Option UInt32) :
    MethodBody :=
  (body.allocate ⟨i, before, after⟩).2

/-- Sets the size and drops the index. -/
def resize (body : MethodBody) (size : Nat) : MethodBody :=
  { body with size, index := none }

@[simp] theorem node?_resize (size : Nat) (t : UInt32) :
    (body.resize size).node? t = body.node? t := rfl

theorem links_resize {size : Nat} {order : List UInt32} :
    (body.resize size).Links order ↔ body.Links order := Iff.rfl

theorem insertBetween_snd (i : Instruction Label) (before after : Option UInt32) :
    (body.insertBetween i before after).2 =
      ((body.withNode i before after).relink before after (some body.nextSlot)
        (some body.nextSlot)).resize
        (((body.withNode i before after).relink before after (some body.nextSlot)
          (some body.nextSlot)).size + 1) := by
  rw [← allocate_fst ⟨i, before, after⟩]
  rfl

theorem insertBetween_fst (i : Instruction Label) (before after : Option UInt32) :
    (body.insertBetween i before after).1 =
      (body.insertBetween i before after).2.handle body.nextSlot := by
  rw [← allocate_fst ⟨i, before, after⟩]
  rfl

/-- Finding a place for a node changes the slots and the free ones, and nothing else. -/
theorem withNode_fields (i : Instruction Label) (before after : Option UInt32) :
    (body.withNode i before after).id = body.id ∧
      (body.withNode i before after).free = body.free.tail ∧
      (body.withNode i before after).first = body.first ∧
      (body.withNode i before after).last = body.last ∧
      (body.withNode i before after).size = body.size := by
  unfold withNode allocate
  cases body.free <;> simp

/-- How many slots there are after a node was inserted. -/
def grownSize (body : MethodBody) : Nat :=
  if body.free = [] then body.slots.size + 1 else body.slots.size

theorem slotCount_withNode (i : Instruction Label) (before after : Option UInt32) :
    (body.withNode i before after).slots.size = body.grownSize := by
  unfold withNode allocate grownSize
  cases body.free <;> simp

section Insert

variable {front rest : List UInt32} (chain : body.Chain (front ++ rest)) (room : body.HasRoom)
  (i : Instruction Label)

include chain room

theorem lt_grownSize_iff (slot : UInt32) :
    slot.toNat < body.grownSize ↔ slot.toNat < body.slots.size ∨ slot = body.nextSlot := by
  unfold grownSize nextSlot
  cases hfree : body.free with
  | nil =>
      have hsize := toNat_size (room hfree)
      simp only [if_true, List.head?_nil, Option.getD_none, ← UInt32.toNat_inj, hsize]
      omega
  | cons taken free =>
      have hlt := ((chain.mem_free taken).mp (by simp [hfree])).1
      simp only [reduceCtorEq, if_false, List.head?_cons, Option.getD_some]
      constructor
      · exact Or.inl
      · rintro (h | rfl)
        · exact h
        · exact hlt

omit room in
theorem mem_tail_free_iff (slot : UInt32) :
    slot ∈ body.free.tail ↔ slot ∈ body.free ∧ slot ≠ body.nextSlot := by
  unfold nextSlot
  cases hfree : body.free with
  | nil => simp
  | cons taken free =>
      have hnodup := List.nodup_cons.mp (hfree ▸ chain.free_nodup)
      simp only [List.tail_cons, List.mem_cons, List.head?_cons, Option.getD_some]
      constructor
      · intro h
        exact ⟨Or.inr h, fun heq => hnodup.1 (heq ▸ h)⟩
      · rintro ⟨rfl | h, hne⟩
        · exact absurd rfl hne
        · exact h

theorem neighbours_withNode :
    (body.withNode i front.getLast? rest.head?).Neighbour front.getLast? ∧
      (body.withNode i front.getLast? rest.head?).Neighbour rest.head? := by
  constructor
  · intro s hs
    rw [withNode, node?_allocate chain room]
    split
    · rfl
    · exact (chain.node?_isSome_iff s).mpr (by simp [List.mem_of_getLast? hs])
  · intro s hs
    rw [withNode, node?_allocate chain room]
    split
    · rfl
    · exact (chain.node?_isSome_iff s).mpr (by simp [List.mem_of_head? hs])

/-- Inserting fills the next free slot and leaves the other instructions alone. -/
theorem instruction?_insertBetween (t : UInt32) :
    (body.insertBetween i front.getLast? rest.head?).2.instruction? t =
      if t = body.nextSlot then some i else body.instruction? t := by
  obtain ⟨hfront, hrest⟩ := neighbours_withNode chain room i
  rw [insertBetween_snd, instruction?, node?_resize, node?_relink hfront hrest, withNode,
    node?_allocate chain room, Option.map_map]
  by_cases ht : t = body.nextSlot <;> simp [instruction?, Function.comp_def, ht]

theorem sameSlots_insertBetween :
    (body.insertBetween i front.getLast? rest.head?).2.id = body.id ∧
      (body.insertBetween i front.getLast? rest.head?).2.slots.size = body.grownSize ∧
      ∀ t, (body.insertBetween i front.getLast? rest.head?).2.generation t =
        body.generation t := by
  obtain ⟨hfront, hrest⟩ := neighbours_withNode chain room i
  have same := sameSlots_relink hfront hrest (some body.nextSlot) (some body.nextSlot)
  rw [insertBetween_snd]
  refine ⟨same.id.trans ?_, same.slotCount.trans (slotCount_withNode ..), fun t =>
    (same.generation t).trans (generation_allocate _ t)⟩
  exact (withNode_fields ..).1

/-- Inserting puts the next free slot between the two neighbours. -/
theorem chain_insertBetween :
    (body.insertBetween i front.getLast? rest.head?).2.Chain
      (front ++ body.nextSlot :: rest) := by
  obtain ⟨hfront, hrest⟩ := neighbours_withNode chain room i
  have same := sameSlots_relink hfront hrest (some body.nextSlot) (some body.nextSlot)
  have hfirst := first_relink hfront hrest (some body.nextSlot) (some body.nextSlot)
  have hlast := last_relink hfront hrest (some body.nextSlot) (some body.nextSlot)
  have hunused := nextSlot_notMem chain room
  have hnodup : (front ++ [body.nextSlot] ++ rest).Nodup := by
    rw [List.append_assoc, List.singleton_append]
    exact List.nodup_middle.mpr (List.nodup_cons.mpr ⟨hunused, chain.nodup⟩)
  obtain ⟨-, hfree, hfirst', hlast', hsize⟩ :=
    body.withNode_fields i front.getLast? rest.head?
  have hnode (t : UInt32) :
      (((body.insertBetween i front.getLast? rest.head?).2).node? t).isSome ↔
        t = body.nextSlot ∨ (body.node? t).isSome := by
    have h := congrArg Option.isSome (instruction?_insertBetween chain room i t)
    rw [instruction?, Option.isSome_map] at h
    rw [h]
    by_cases ht : t = body.nextSlot <;> simp [instruction?, ht]
  rw [insertBetween_snd] at hnode ⊢
  refine ⟨by simpa using hnodup, ?_, ?_, ?_, ?_, ?_, ?_, ?_⟩
  · change (relink ..).first = _
    rw [hfirst, hfirst', chain.first]
    cases front <;> simp
  · change (relink ..).last = _
    rw [hlast, hlast', chain.last]
    cases rest <;> simp [List.getLast?_append, List.getLast?_cons]
  · change (relink ..).size + 1 = _
    rw [same.size, hsize, chain.size]
    simp
    omega
  · rw [links_resize]
    have links := links_relink (body.withNode i front.getLast? rest.head?) front []
      [body.nextSlot] rest (by simpa using chain.links) hnodup ?_ ?_
      hfront hrest
    · simpa using links
    · intro t ht
      have hne : t ≠ body.nextSlot := by
        rintro rfl
        exact hunused (by simpa using ht)
      rw [withNode, node?_allocate chain room, if_neg hne]
    · intro before slot after hmiddle
      obtain ⟨rfl, rfl, rfl⟩ : before = [] ∧ slot = body.nextSlot ∧ after = [] := by
        cases before <;> simp_all
      exact ⟨⟨i, front.getLast?, rest.head?⟩,
        by rw [withNode, node?_allocate chain room, if_pos rfl], by simp, rfl⟩
  · intro slot hslot
    have hmem : slot = body.nextSlot ∨ slot ∈ front ++ rest :=
      ((hnode slot).mp hslot).imp_right (chain.linked slot)
    simp only [List.mem_append, List.mem_cons] at hmem ⊢
    tauto
  · change (relink ..).free.Nodup
    rw [same.free, hfree]
    exact chain.free_nodup.tail
  · intro slot
    change slot ∈ (relink ..).free ↔ slot.toNat < (relink ..).slots.size ∧ _
    rw [same.free, same.slotCount, slotCount_withNode, lt_grownSize_iff chain room, hfree,
      mem_tail_free_iff chain, chain.mem_free]
    simp only [← Option.not_isSome_iff_eq_none, hnode]
    tauto

end Insert

section Remove

variable {front rest : List UInt32} {slot : UInt32} (chain : body.Chain (front ++ slot :: rest))

/-- The body between emptying a slot and linking its neighbours. -/
def withoutNode (body : MethodBody) (slot : UInt32) : MethodBody :=
  { body with
    slots := body.slots.modify slot.toNat fun s => ⟨s.generation + 1, none⟩
    free := slot :: body.free }

theorem node?_withoutNode (t : UInt32) :
    (body.withoutNode slot).node? t = if t = slot then none else body.node? t := by
  simp only [withoutNode, node?, Array.getElem?_modify, UInt32.toNat_inj]
  by_cases ht : t = slot
  · subst ht
    cases body.slots[t.toNat]? <;> simp
  · simp [ht, Ne.symm ht]

/-- The body after the node between these neighbours was taken out. -/
def unlink (body : MethodBody) (slot : UInt32) (before after : Option UInt32) : MethodBody :=
  ((body.withoutNode slot).relink before after after before).resize
    (((body.withoutNode slot).relink before after after before).size - 1)

theorem remove_eq {handle : InstructionHandle} {node : BodyNode}
    (h : body.linkedNode handle = .ok node) :
    body.remove handle =
      .ok (node.instruction, body.unlink handle.slot node.before node.after) := by
  rw [remove, h]
  rfl

include chain

theorem generation_withoutNode (t : UInt32) :
    (body.withoutNode slot).generation t =
      if t = slot then body.generation t + 1 else body.generation t := by
  have hlt : slot.toNat < body.slots.size := by
    obtain ⟨node, hnode, -⟩ := chain.links front slot rest rfl
    exact lt_size_of_node? hnode
  simp only [withoutNode, generation, Array.getElem?_modify, UInt32.toNat_inj]
  by_cases ht : t = slot
  · subst ht
    simp [hlt]
  · simp [ht, Ne.symm ht]

theorem neighbours_withoutNode :
    (body.withoutNode slot).Neighbour front.getLast? ∧
      (body.withoutNode slot).Neighbour rest.head? := by
  have hne := notMem_of_nodup_middle chain.nodup
  constructor
  · intro s hs
    have hmem := List.mem_of_getLast? hs
    have hslot : s ≠ slot := fun h => hne.1 (h ▸ hmem)
    rw [node?_withoutNode, if_neg hslot]
    exact (chain.node?_isSome_iff s).mpr (by simp [hmem])
  · intro s hs
    have hmem := List.mem_of_head? hs
    have hslot : s ≠ slot := fun h => hne.2 (h ▸ hmem)
    rw [node?_withoutNode, if_neg hslot]
    exact (chain.node?_isSome_iff s).mpr (by simp [hmem])

/-- Taking a node out empties its slot and leaves the other instructions alone. -/
theorem instruction?_unlink (t : UInt32) :
    (body.unlink slot front.getLast? rest.head?).instruction? t =
      if t = slot then none else body.instruction? t := by
  obtain ⟨hfront, hrest⟩ := neighbours_withoutNode chain
  rw [unlink, instruction?, node?_resize, node?_relink hfront hrest, node?_withoutNode,
    Option.map_map]
  by_cases ht : t = slot <;> simp [instruction?, Function.comp_def, ht]

theorem sameSlots_unlink :
    (body.unlink slot front.getLast? rest.head?).id = body.id ∧
      (body.unlink slot front.getLast? rest.head?).slots.size = body.slots.size ∧
      ∀ t, (body.unlink slot front.getLast? rest.head?).generation t =
        if t = slot then body.generation t + 1 else body.generation t := by
  obtain ⟨hfront, hrest⟩ := neighbours_withoutNode chain
  have same := sameSlots_relink hfront hrest rest.head? front.getLast?
  exact ⟨same.id, same.slotCount.trans (by simp [withoutNode]), fun t =>
    (same.generation t).trans (generation_withoutNode chain t)⟩

/-- Taking a node out joins its neighbours. -/
theorem chain_unlink :
    (body.unlink slot front.getLast? rest.head?).Chain (front ++ rest) := by
  obtain ⟨hfront, hrest⟩ := neighbours_withoutNode chain
  have same := sameSlots_relink hfront hrest rest.head? front.getLast?
  have hne := notMem_of_nodup_middle chain.nodup
  have hnodup : (front ++ rest).Nodup := (List.nodup_cons.mp (List.nodup_middle.mp chain.nodup)).2
  have hnode (t : UInt32) :
      ((body.unlink slot front.getLast? rest.head?).node? t).isSome ↔
        t ≠ slot ∧ (body.node? t).isSome := by
    have h := congrArg Option.isSome (instruction?_unlink chain t)
    rw [instruction?, Option.isSome_map] at h
    rw [h]
    by_cases ht : t = slot <;> simp [instruction?, ht]
  refine ⟨hnodup, ?_, ?_, ?_, ?_, ?_, ?_, ?_⟩
  · change (relink ..).first = _
    rw [first_relink hfront hrest]
    change (if front.getLast? = none then rest.head? else body.first) = _
    rw [chain.first]
    cases front <;> simp
  · change (relink ..).last = _
    rw [last_relink hfront hrest]
    change (if rest.head? = none then front.getLast? else body.last) = _
    rw [chain.last]
    cases rest <;> simp [List.getLast?_append, List.getLast?_cons]
  · change (relink ..).size - 1 = _
    rw [same.size]
    change body.size - 1 = _
    rw [chain.size]
    simp
  · rw [unlink, links_resize]
    have links := links_relink (body.withoutNode slot) front [slot] [] rest
      (by simpa using chain.links) (by simpa using hnodup) ?_ ?_
      hfront hrest
    · simpa using links
    · intro t ht
      have hts : t ≠ slot := by
        rintro rfl
        exact ht.elim hne.1 hne.2
      rw [node?_withoutNode, if_neg hts]
    · intro before s after hmiddle
      simp at hmiddle
  · intro t ht
    obtain ⟨hts, hsome⟩ := (hnode t).mp ht
    have hmem := chain.linked t hsome
    simp only [List.mem_append, List.mem_cons] at hmem ⊢
    tauto
  · change (relink ..).free.Nodup
    rw [same.free]
    refine List.nodup_cons.mpr ⟨fun hmem => ?_, chain.free_nodup⟩
    have hnone := ((chain.mem_free slot).mp hmem).2
    have hsome := (chain.node?_isSome_iff slot).mpr (by simp)
    simp [hnone] at hsome
  · intro t
    have hlt : slot.toNat < body.slots.size := by
      obtain ⟨node, hslot, -⟩ := chain.links front slot rest rfl
      exact lt_size_of_node? hslot
    rw [(sameSlots_unlink chain).2.1]
    change t ∈ (relink ..).free ↔ _
    rw [same.free]
    change t ∈ slot :: body.free ↔ _
    rw [List.mem_cons, chain.mem_free]
    simp only [← Option.not_isSome_iff_eq_none, hnode]
    by_cases ht : t = slot
    · simp [ht, hlt]
    · simp [ht]

end Remove

end JavaClass.MethodBody
