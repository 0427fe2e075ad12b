import JavaClass.Body.Labels
import JavaClass.Proofs.Body.Walk

/-!
# Editing a method body

Editing a body is editing a plain list of instructions with their handles. The
rules of `ListStep` say what each edit does to such a list and what it answers;
`changeAll_refines_list` says that every run of edits follows these rules and
ends in a body whose links agree with its walk.

## Implementation notes

The rules leave open which handle a new instruction gets, except that it is on
no instruction of the list. A copy keeps the slots of its instructions, but its
handles carry its own identity.
-/

namespace JavaClass.MethodBody

/-- A change of a body. -/
inductive Edit where
  | append (i : Instruction Label)
  | prepend (i : Instruction Label)
  | insertBefore (anchor : InstructionHandle) (i : Instruction Label)
  | insertAfter (anchor : InstructionHandle) (i : Instruction Label)
  | remove (handle : InstructionHandle)
  | replace (handle : InstructionHandle) (i : Instruction Label)
  | newLabel
  | resolve (token : LabelToken)

/-- An edit, or going on with a copy under another identity. -/
inductive Change where
  | edit (edit : Edit)
  | copy (id : UInt32)

/-- What an edit gives back. -/
inductive Answer where
  | handle (handle : InstructionHandle)
  | instruction (i : Instruction Label)
  | label (label : Label)
  | done

/-- The answer that an edit gives after it was accepted, and the body as it was otherwise. -/
def settle {α : Type} (body : MethodBody) (answer : α → Answer × MethodBody) :
    Except Error α → Except Error Answer × MethodBody
  | .ok value => (.ok (answer value).1, (answer value).2)
  | .error error => (.error error, body)

/-- Performs an edit. -/
def perform (body : MethodBody) : Edit → Except Error Answer × MethodBody
  | .append i => (.ok (.handle (body.append i).1), (body.append i).2)
  | .prepend i => (.ok (.handle (body.prepend i).1), (body.prepend i).2)
  | .insertBefore anchor i =>
      body.settle (fun (handle, body) => (.handle handle, body)) (body.insertBefore anchor i)
  | .insertAfter anchor i =>
      body.settle (fun (handle, body) => (.handle handle, body)) (body.insertAfter anchor i)
  | .remove handle => body.settle (fun (i, body) => (.instruction i, body)) (body.remove handle)
  | .replace handle i => body.settle (fun body => (.done, body)) (body.replace handle i)
  | .newLabel => (.ok (.label body.newLabel.1), body.newLabel.2)
  | .resolve token => (.ok (.label (body.resolve token).1), (body.resolve token).2)

/-- Performs a change. -/
def change (body : MethodBody) : Change → Except Error Answer × MethodBody
  | .edit edit => body.perform edit
  | .copy id => (.ok .done, body.copy id)

/-- Performs changes one after the other, also after some were refused. -/
def changeAll (body : MethodBody) : List Change → List (Except Error Answer) × MethodBody
  | [] => ([], body)
  | first :: rest =>
      let (answer, body) := body.change first
      let (answers, body) := body.changeAll rest
      (answer :: answers, body)

/-- An instruction with its handle. -/
abbrev Entry := InstructionHandle × Instruction Label

/-- What an edit does to a list of instructions and what it answers. -/
inductive ListStep : List Entry → Edit → Except Error Answer → List Entry → Prop where
  | append {entries handle} (i) (fresh : handle ∉ entries.map (·.1)) :
      ListStep entries (.append i) (.ok (.handle handle)) (entries ++ [(handle, i)])
  | prepend {entries handle} (i) (fresh : handle ∉ entries.map (·.1)) :
      ListStep entries (.prepend i) (.ok (.handle handle)) ((handle, i) :: entries)
  | insertBefore {before anchor j after handle} (i)
      (fresh : handle ∉ (before ++ (anchor, j) :: after).map (·.1)) :
      ListStep (before ++ (anchor, j) :: after) (.insertBefore anchor i) (.ok (.handle handle))
        (before ++ (handle, i) :: (anchor, j) :: after)
  | insertAfter {before anchor j after handle} (i)
      (fresh : handle ∉ (before ++ (anchor, j) :: after).map (·.1)) :
      ListStep (before ++ (anchor, j) :: after) (.insertAfter anchor i) (.ok (.handle handle))
        (before ++ (anchor, j) :: (handle, i) :: after)
  | remove {before handle i after} :
      ListStep (before ++ (handle, i) :: after) (.remove handle) (.ok (.instruction i))
        (before ++ after)
  | replace {before handle j after} (i) :
      ListStep (before ++ (handle, j) :: after) (.replace handle i) (.ok .done)
        (before ++ (handle, i) :: after)
  | insertBefore_refused {entries anchor} (i) (unlinked : anchor ∉ entries.map (·.1)) :
      ListStep entries (.insertBefore anchor i) (.error (.unlinked anchor)) entries
  | insertAfter_refused {entries anchor} (i) (unlinked : anchor ∉ entries.map (·.1)) :
      ListStep entries (.insertAfter anchor i) (.error (.unlinked anchor)) entries
  | remove_refused {entries handle} (unlinked : handle ∉ entries.map (·.1)) :
      ListStep entries (.remove handle) (.error (.unlinked handle)) entries
  | replace_refused {entries handle} (i) (unlinked : handle ∉ entries.map (·.1)) :
      ListStep entries (.replace handle i) (.error (.unlinked handle)) entries
  | newLabel {entries} (label) : ListStep entries .newLabel (.ok (.label label)) entries
  | resolve {entries} (token label) :
      ListStep entries (.resolve token) (.ok (.label label)) entries

/-- A handle that an edit gives out is on the list after it. -/
theorem ListStep.mem_of_handle {entries entries' : List Entry} {edit : Edit}
    {handle : InstructionHandle} (step : ListStep entries edit (.ok (.handle handle)) entries') :
    handle ∈ entries'.map (·.1) := by
  cases step <;> simp

/-- What a change does to a list of instructions and what it answers. -/
inductive ListChange :
    List Entry → Change → Except Error Answer → List Entry → Prop where
  | edit {entries edit answer entries'} (step : ListStep entries edit answer entries') :
      ListChange entries (.edit edit) answer entries'
  | copy {entries} (id) :
      ListChange entries (.copy id) (.ok .done)
        (entries.map fun (handle, i) => ({ handle with body := id }, i))

/-- One change after the other. -/
inductive ListRun :
    List Entry → List Change → List (Except Error Answer) → List Entry → Prop where
  | nil {entries} : ListRun entries [] [] entries
  | cons {entries middle final first answer rest answers}
      (step : ListChange entries first answer middle) (run : ListRun middle rest answers final) :
      ListRun entries (first :: rest) (answer :: answers) final

variable {body : MethodBody} {order : List UInt32}

/-- A walk of slots that all hold the same as in another body. -/
theorem map_entry_congr {other : MethodBody} (hid : other.id = body.id)
    (hgeneration : ∀ slot ∈ order, other.generation slot = body.generation slot)
    (hinstruction : ∀ slot ∈ order, other.instruction? slot = body.instruction? slot) :
    order.map other.entry = order.map body.entry := by
  refine List.map_congr_left fun slot hmem => ?_
  simp only [entry, handle, contents, hid, hgeneration slot hmem, hinstruction slot hmem]

/-- Inserting adds a slot exactly if no slot is free. -/
theorem slotCount_insertBetween (i : Instruction Label) (before after : Option UInt32) :
    (body.insertBetween i before after).2.slots.size = body.grownSize := by
  rw [insertBetween_snd, ← slotCount_withNode i before after]
  exact slotCount_relink ..

/-- If the slots can be numbered after an insertion, there was room for it. -/
theorem hasRoom_of_insertBetween {i : Instruction Label} {before after : Option UInt32}
    (h : (body.insertBetween i before after).2.slots.size ≤ 2 ^ 32) : body.HasRoom := by
  intro hfree
  rw [slotCount_insertBetween, grownSize, if_pos hfree] at h
  omega

section Insert

variable {front rest : List UInt32} (chain : body.Chain (front ++ rest)) (room : body.HasRoom)
  (i : Instruction Label)

include chain room

/-- Inserting between two neighbours inserts an entry into the walk. -/
theorem toList_insertBetween :
    (body.insertBetween i front.getLast? rest.head?).2.toList =
      front.map body.entry ++
        ((body.insertBetween i front.getLast? rest.head?).1, i) :: rest.map body.entry := by
  have chain' := chain_insertBetween chain room i
  obtain ⟨hid, -, hgeneration⟩ := sameSlots_insertBetween chain room i
  have hunused := nextSlot_notMem chain room
  have hold : (front ++ rest).map (body.insertBetween i front.getLast? rest.head?).2.entry =
      (front ++ rest).map body.entry := by
    refine map_entry_congr hid (fun slot _ => hgeneration slot) fun slot hmem => ?_
    rw [instruction?_insertBetween chain room i, if_neg]
    rintro rfl
    exact hunused hmem
  simp only [List.map_append] at hold
  obtain ⟨hfront, hrest⟩ := List.append_inj hold (by simp)
  rw [chain'.toList_eq, List.map_append, List.map_cons, hfront, hrest, insertBetween_fst]
  congr 2
  simp [entry, contents, instruction?_insertBetween chain room i]

theorem fresh_insertBetween :
    (body.insertBetween i front.getLast? rest.head?).1 ∉ body.toList.map (·.1) := by
  rw [chain.handles_toList, insertBetween_fst]
  intro hmem
  obtain ⟨slot, hslot, heq⟩ := List.mem_map.mp hmem
  have hnext : slot = body.nextSlot := congrArg InstructionHandle.slot heq
  exact nextSlot_notMem chain room (hnext ▸ hslot)

end Insert

/-- Exchanging an instruction changes nothing else. -/
theorem toList_editNode {front rest : List UInt32} {slot : UInt32}
    (chain : body.Chain (front ++ slot :: rest)) (i : Instruction Label) :
    (body.editNode slot ({ · with instruction := i })).Chain (front ++ slot :: rest) ∧
      (body.editNode slot ({ · with instruction := i })).toList =
        front.map body.entry ++ (body.handle slot, i) :: rest.map body.entry := by
  have hnode := body.node?_editNode slot ({ · with instruction := i })
  have hsome (t : UInt32) : ((body.editNode slot ({ · with instruction := i })).node? t).isSome ↔
      (body.node? t).isSome := by
    rw [hnode]
    split <;> simp
  have chain' : (body.editNode slot ({ · with instruction := i })).Chain
      (front ++ slot :: rest) := by
    refine ⟨chain.nodup, chain.first, chain.last, chain.size, ?_, ?_, chain.free_nodup, ?_⟩
    · intro before t after horder
      obtain ⟨node, ht, hbefore, hafter⟩ := chain.links before t after horder
      rw [hnode, ht]
      split
      · exact ⟨_, rfl, hbefore, hafter⟩
      · exact ⟨_, rfl, hbefore, hafter⟩
    · exact fun t ht => chain.linked t ((hsome t).mp ht)
    · intro t
      rw [size_editNode, ← Option.not_isSome_iff_eq_none, hsome, Option.not_isSome_iff_eq_none]
      exact chain.mem_free t
  have hne := notMem_of_nodup_middle chain.nodup
  have hold (slots : List UInt32) (h : slot ∉ slots) :
      slots.map (body.editNode slot ({ · with instruction := i })).entry =
        slots.map body.entry := by
    refine map_entry_congr rfl (fun t _ => generation_editNode slot _ t) fun t ht => ?_
    have hts : t ≠ slot := fun heq => h (heq ▸ ht)
    rw [instruction?, hnode, if_neg hts, instruction?]
  refine ⟨chain', ?_⟩
  rw [chain'.toList_eq, List.map_append, List.map_cons, hold front hne.1, hold rest hne.2]
  have hhandle : (body.editNode slot ({ · with instruction := i })).handle slot =
      body.handle slot := by
    simp only [handle, generation_editNode]
    rfl
  obtain ⟨node, hslot, -⟩ := chain.links front slot rest rfl
  have hcontents : (body.editNode slot ({ · with instruction := i })).contents slot = i := by
    simp [contents, instruction?, hnode, hslot]
  rw [entry, hhandle, hcontents]

/-- Taking a node out takes its entry out of the walk. -/
theorem toList_unlink {front rest : List UInt32} {slot : UInt32}
    (chain : body.Chain (front ++ slot :: rest)) :
    (body.unlink slot front.getLast? rest.head?).toList =
      front.map body.entry ++ rest.map body.entry := by
  obtain ⟨hid, -, hgeneration⟩ := sameSlots_unlink chain
  have hne := notMem_of_nodup_middle chain.nodup
  have hunused (t : UInt32) (ht : t ∈ front ++ rest) : t ≠ slot := by
    rintro rfl
    exact (List.mem_append.mp ht).elim hne.1 hne.2
  rw [(chain_unlink chain).toList_eq, ← List.map_append]
  refine map_entry_congr hid (fun t ht => ?_) fun t ht => ?_
  · rw [hgeneration, if_neg (hunused t ht)]
  · rw [instruction?_unlink chain, if_neg (hunused t ht)]

/-- Two bodies with the same list and the same identity. -/
structure SameList (a b : MethodBody) : Prop where
  slots : b.slots = a.slots
  free : b.free = a.free
  first : b.first = a.first
  last : b.last = a.last
  size : b.size = a.size

/-- A change of labels or of the identity is no change of the chain. -/
theorem Chain.of_sameList {other : MethodBody} (chain : body.Chain order)
    (same : body.SameList other) : other.Chain order := by
  have hnode (t : UInt32) : other.node? t = body.node? t := by simp only [node?, same.slots]
  refine ⟨chain.nodup, same.first.trans chain.first, same.last.trans chain.last,
    same.size.trans chain.size, ?_, ?_, same.free ▸ chain.free_nodup, ?_⟩
  · intro before slot after horder
    rw [hnode]
    exact chain.links before slot after horder
  · intro slot hslot
    exact chain.linked slot (hnode slot ▸ hslot)
  · intro slot
    rw [same.free, same.slots, hnode]
    exact chain.mem_free slot

/-- A walk finds the same entries in both. -/
theorem SameList.toList_eq {other : MethodBody} (same : body.SameList other)
    (hid : other.id = body.id) : other.toList = body.toList := by
  have hnode (slot : UInt32) : other.node? slot = body.node? slot := by
    simp only [node?, same.slots]
  have hhandle (slot : UInt32) : other.handle slot = body.handle slot := by
    simp only [handle, generation, same.slots, hid]
  have hwalk (fuel : Nat) (slot : Option UInt32)
      (done : List (InstructionHandle × Instruction Label)) :
      other.walkFrom fuel slot done = body.walkFrom fuel slot done := by
    induction fuel generalizing slot done with
    | zero => rfl
    | succ fuel ih =>
        cases slot with
        | none => rfl
        | some slot => simp only [walkFrom, hnode, hhandle, ih]
  rw [toList, toList, same.slots, same.first, hwalk]

theorem sameList_resolve (token : LabelToken) :
    body.SameList (body.resolve token).2 ∧ (body.resolve token).2.id = body.id := by
  unfold resolve newLabel
  split <;> exact ⟨⟨rfl, rfl, rfl, rfl, rfl⟩, rfl⟩

theorem resolve_fst_of_known {token : LabelToken} {label : Label}
    (h : body.labels[token]? = some label) : (body.resolve token).1 = label := by
  rw [resolve, h]

/-- What a body has besides its list. -/
structure SameTables (a b : MethodBody) : Prop where
  labels : b.labels = a.labels
  labelCount : b.labelCount = a.labelCount
  tryBlocks : b.tryBlocks = a.tryBlocks
  maxStack : b.maxStack = a.maxStack
  maxLocals : b.maxLocals = a.maxLocals

theorem sameTables_relink (before after next previous : Option UInt32) :
    SameTables body (body.relink before after next previous) := by
  unfold relink linkBefore
  split <;> unfold linkAfter <;> split <;> exact ⟨rfl, rfl, rfl, rfl, rfl⟩

/-- Adding an instruction changes the list alone. -/
theorem sameTables_insertBetween (i : Instruction Label) (before after : Option UInt32) :
    SameTables body (body.insertBetween i before after).2 := by
  rw [insertBetween_snd]
  have same := @sameTables_relink (body.withNode i before after) before after
    (some body.nextSlot) (some body.nextSlot)
  have hnode : SameTables body (body.withNode i before after) := by
    unfold withNode allocate
    cases body.free <;> exact ⟨rfl, rfl, rfl, rfl, rfl⟩
  exact ⟨same.labels.trans hnode.labels, same.labelCount.trans hnode.labelCount,
    same.tryBlocks.trans hnode.tryBlocks, same.maxStack.trans hnode.maxStack,
    same.maxLocals.trans hnode.maxLocals⟩

theorem sameTables_append (i : Instruction Label) : SameTables body (body.append i).2 :=
  sameTables_insertBetween i body.last none

/-- The instruction that an edit puts into a body. -/
def Edit.instruction? : Edit → Option (Instruction Label)
  | .append i => some i
  | .prepend i => some i
  | .insertBefore _ i => some i
  | .insertAfter _ i => some i
  | .replace _ i => some i
  | _ => none

/-- What an edit can make of a body. -/
inductive Makes (body : MethodBody) : Edit → MethodBody → Prop where
  | refused {edit} : Makes body edit body
  | inserted {edit} (i : Instruction Label) (before after : Option UInt32)
      (puts : edit.instruction? = some i) : Makes body edit (body.insertBetween i before after).2
  | unlinked {handle node} (linked : body.linkedNode handle = .ok node) :
      Makes body (.remove handle) (body.unlink handle.slot node.before node.after)
  | replaced {handle node} (linked : body.linkedNode handle = .ok node) (i : Instruction Label) :
      Makes body (.replace handle i) (body.editNode handle.slot ({ · with instruction := i }))
  | newLabel : Makes body .newLabel body.newLabel.2
  | resolved (token : LabelToken) : Makes body (.resolve token) (body.resolve token).2

theorem makes_perform (edit : Edit) : body.Makes edit (body.perform edit).2 := by
  cases edit with
  | append i => exact .inserted i body.last none rfl
  | prepend i => exact .inserted i none body.first rfl
  | insertBefore anchor i =>
      simp only [perform, insertBefore]
      cases body.linkedNode anchor with
      | error => exact .refused
      | ok node => exact .inserted i node.before (some anchor.slot) rfl
  | insertAfter anchor i =>
      simp only [perform, insertAfter]
      cases body.linkedNode anchor with
      | error => exact .refused
      | ok node => exact .inserted i (some anchor.slot) node.after rfl
  | remove handle =>
      cases hlinked : body.linkedNode handle with
      | error =>
          simp only [perform, remove, hlinked]
          exact .refused
      | ok node =>
          simp only [perform, remove_eq hlinked]
          exact .unlinked hlinked
  | replace handle i =>
      simp only [perform, replace]
      cases hlinked : body.linkedNode handle with
      | error => exact .refused
      | ok node => exact .replaced hlinked i
  | newLabel => exact .newLabel
  | resolve token => exact .resolved token

/-- An edit that is refused leaves the body as it was. -/
theorem perform_refused {edit : Edit} {error : Error} (h : (body.perform edit).1 = .error error) :
    (body.perform edit).2 = body := by
  have hsettle {α : Type} (answer : α → Answer × MethodBody) (result : Except Error α)
      (h : (body.settle answer result).1 = .error error) :
      (body.settle answer result).2 = body := by
    cases result with
    | error => rfl
    | ok => simp [settle] at h
  cases edit with
  | insertBefore anchor i => exact hsettle _ _ h
  | insertAfter anchor i => exact hsettle _ _ h
  | remove handle => exact hsettle _ _ h
  | replace handle i => exact hsettle _ _ h
  | append | prepend | newLabel | resolve => simp [perform] at h

theorem change_refused {first : Change} {error : Error} (h : (body.change first).1 = .error error) :
    (body.change first).2 = body := by
  cases first with
  | edit edit => exact perform_refused h
  | copy id => simp [change] at h

/-- After the edit there still is a chain, and the edit followed the rules. -/
def Follows (body : MethodBody) (edit : Edit) : Prop :=
  (∃ order, (body.perform edit).2.Chain order) ∧
    ListStep body.toList edit (body.perform edit).1 (body.perform edit).2.toList

namespace Chain

variable (chain : body.Chain order)

include chain

theorem unlinked_of_error {handle : InstructionHandle} {error : Error}
    (h : body.linkedNode handle = .error error) :
    error = .unlinked handle ∧ handle ∉ body.toList.map (·.1) := by
  have herror : error = .unlinked handle := by
    unfold linkedNode at h
    split at h
    · split at h <;> simp_all
    · simp_all
  exact ⟨herror, (chain.linkedNode_eq_error_iff handle).mp (herror ▸ h)⟩

theorem follows_append (i : Instruction Label)
    (bound : (body.append i).2.slots.size ≤ 2 ^ 32) : body.Follows (.append i) := by
  have chain₀ : body.Chain (order ++ []) := by simpa using chain
  have hlast : body.append i =
      body.insertBetween i order.getLast? ([] : List UInt32).head? := by
    rw [append, chain.last]
    rfl
  simp only [Follows, perform, hlast] at bound ⊢
  have room := hasRoom_of_insertBetween bound
  refine ⟨⟨_, chain_insertBetween chain₀ room i⟩, ?_⟩
  rw [toList_insertBetween chain₀ room i, List.map_nil, ← chain.toList_eq]
  exact .append i (fresh_insertBetween chain₀ room i)

theorem follows_prepend (i : Instruction Label)
    (bound : (body.prepend i).2.slots.size ≤ 2 ^ 32) : body.Follows (.prepend i) := by
  have chain₀ : body.Chain ([] ++ order) := chain
  have hfirst : body.prepend i =
      body.insertBetween i ([] : List UInt32).getLast? order.head? := by
    rw [prepend, chain.first]
    rfl
  simp only [Follows, perform, hfirst] at bound ⊢
  have room := hasRoom_of_insertBetween bound
  refine ⟨⟨_, chain_insertBetween chain₀ room i⟩, ?_⟩
  rw [toList_insertBetween chain₀ room i, List.map_nil, List.nil_append, ← chain.toList_eq]
  exact .prepend i (fresh_insertBetween chain₀ room i)

theorem follows_insertBefore (anchor : InstructionHandle) (i : Instruction Label)
    (bound : (body.perform (.insertBefore anchor i)).2.slots.size ≤ 2 ^ 32) :
    body.Follows (.insertBefore anchor i) := by
  simp only [Follows, perform, insertBefore] at bound ⊢
  cases hnode : body.linkedNode anchor with
  | error error =>
      obtain ⟨rfl, hunlinked⟩ := chain.unlinked_of_error hnode
      exact ⟨⟨order, chain⟩, .insertBefore_refused i hunlinked⟩
  | ok node =>
      rw [hnode] at bound
      obtain ⟨before, after, rfl, hanchor, -, hbefore, -⟩ := chain.split_of_linkedNode hnode
      have hafter : some anchor.slot = (anchor.slot :: after).head? := rfl
      simp only [Except.map, settle, hbefore, hafter] at bound ⊢
      have room := hasRoom_of_insertBetween bound
      refine ⟨⟨_, chain_insertBetween chain room i⟩, ?_⟩
      have hfresh := fresh_insertBetween chain room i
      rw [toList_insertBetween chain room i]
      rw [chain.toList_eq, List.map_append, List.map_cons] at hfresh ⊢
      rw [entry, ← hanchor] at hfresh ⊢
      exact .insertBefore i hfresh

theorem follows_insertAfter (anchor : InstructionHandle) (i : Instruction Label)
    (bound : (body.perform (.insertAfter anchor i)).2.slots.size ≤ 2 ^ 32) :
    body.Follows (.insertAfter anchor i) := by
  simp only [Follows, perform, insertAfter] at bound ⊢
  cases hnode : body.linkedNode anchor with
  | error error =>
      obtain ⟨rfl, hunlinked⟩ := chain.unlinked_of_error hnode
      exact ⟨⟨order, chain⟩, .insertAfter_refused i hunlinked⟩
  | ok node =>
      rw [hnode] at bound
      obtain ⟨before, after, rfl, hanchor, -, -, hafter⟩ := chain.split_of_linkedNode hnode
      have chain₀ : body.Chain ((before ++ [anchor.slot]) ++ after) := by simpa using chain
      have hbefore : some anchor.slot = (before ++ [anchor.slot]).getLast? := by simp
      simp only [Except.map, settle, hafter] at bound ⊢
      rw [hbefore] at bound ⊢
      have room := hasRoom_of_insertBetween bound
      refine ⟨⟨_, chain_insertBetween chain₀ room i⟩, ?_⟩
      have hfresh := fresh_insertBetween chain₀ room i
      rw [toList_insertBetween chain₀ room i, List.map_append, List.map_singleton,
        List.append_assoc, List.singleton_append]
      rw [chain.toList_eq, List.map_append, List.map_cons] at hfresh ⊢
      rw [entry, ← hanchor] at hfresh ⊢
      exact .insertAfter i hfresh

theorem follows_remove (handle : InstructionHandle) : body.Follows (.remove handle) := by
  simp only [Follows, perform]
  cases hnode : body.linkedNode handle with
  | error error =>
      obtain ⟨rfl, hunlinked⟩ := chain.unlinked_of_error hnode
      simp only [remove, hnode]
      exact ⟨⟨order, chain⟩, .remove_refused hunlinked⟩
  | ok node =>
      obtain ⟨before, after, rfl, hhandle, hcontents, hbefore, hafter⟩ :=
        chain.split_of_linkedNode hnode
      simp only [remove_eq hnode, settle, hbefore, hafter]
      refine ⟨⟨_, chain_unlink chain⟩, ?_⟩
      rw [toList_unlink chain, chain.toList_eq, List.map_append, List.map_cons, entry,
        ← hhandle, hcontents]
      exact .remove

theorem follows_replace (handle : InstructionHandle) (i : Instruction Label) :
    body.Follows (.replace handle i) := by
  simp only [Follows, perform, replace]
  cases hnode : body.linkedNode handle with
  | error error =>
      obtain ⟨rfl, hunlinked⟩ := chain.unlinked_of_error hnode
      exact ⟨⟨order, chain⟩, .replace_refused i hunlinked⟩
  | ok node =>
      obtain ⟨before, after, rfl, hhandle, -, -, -⟩ := chain.split_of_linkedNode hnode
      obtain ⟨chain', hwalk⟩ := toList_editNode chain i
      refine ⟨⟨_, chain'⟩, ?_⟩
      change ListStep _ _ _ (body.editNode handle.slot ({ · with instruction := i })).toList
      rw [hwalk, chain.toList_eq, List.map_append, List.map_cons, entry, ← hhandle]
      exact .replace i

/-- A chain stays one under every edit, as long as its slots can be numbered, and the walk follows
the rules. -/
theorem follows (edit : Edit) (bound : (body.perform edit).2.slots.size ≤ 2 ^ 32) :
    body.Follows edit := by
  cases edit with
  | append i => exact chain.follows_append i bound
  | prepend i => exact chain.follows_prepend i bound
  | insertBefore anchor i => exact chain.follows_insertBefore anchor i bound
  | insertAfter anchor i => exact chain.follows_insertAfter anchor i bound
  | remove handle => exact chain.follows_remove handle
  | replace handle i => exact chain.follows_replace handle i
  | newLabel =>
      have same : body.SameList body.newLabel.2 := ⟨rfl, rfl, rfl, rfl, rfl⟩
      refine ⟨⟨order, chain.of_sameList same⟩, ?_⟩
      simp only [perform, same.toList_eq rfl]
      exact .newLabel _
  | resolve token =>
      obtain ⟨same, hid⟩ := body.sameList_resolve token
      refine ⟨⟨order, chain.of_sameList same⟩, ?_⟩
      simp only [perform, same.toList_eq hid]
      exact .resolve token _

/-- The handles of a copy carry its identity and are the same otherwise. -/
theorem toList_copy (id : UInt32) :
    (body.copy id).toList = body.toList.map fun (handle, i) => ({ handle with body := id }, i) := by
  have same : body.SameList (body.copy id) := ⟨rfl, rfl, rfl, rfl, rfl⟩
  rw [(chain.of_sameList same).toList_eq, chain.toList_eq, List.map_map]
  rfl

/-- A chain stays one under every change, and the walk follows the rules. -/
theorem change (first : Change) (bound : (body.change first).2.slots.size ≤ 2 ^ 32) :
    (∃ order', (body.change first).2.Chain order') ∧
      ListChange body.toList first (body.change first).1 (body.change first).2.toList := by
  cases first with
  | edit edit =>
      obtain ⟨hchain, step⟩ := chain.follows edit bound
      exact ⟨hchain, .edit step⟩
  | copy id =>
      refine ⟨⟨order, chain.of_sameList ⟨rfl, rfl, rfl, rfl, rfl⟩⟩, ?_⟩
      simp only [MethodBody.change, chain.toList_copy id]
      exact .copy id

end Chain

/-- A body never loses a slot. -/
theorem slotCount_le_perform (edit : Edit) :
    body.slots.size ≤ (body.perform edit).2.slots.size := by
  have makes := body.makes_perform edit
  generalize (body.perform edit).2 = after at makes ⊢
  cases makes with
  | refused => exact Nat.le_refl _
  | inserted i before after =>
      rw [slotCount_insertBetween, grownSize]
      split <;> omega
  | @unlinked handle node =>
      have hsize : (body.unlink handle.slot node.before node.after).slots.size =
          (body.withoutNode handle.slot).slots.size := slotCount_relink ..
      simp only [hsize]
      simp [withoutNode]
  | replaced => rw [size_editNode]
  | newLabel => exact Nat.le_refl _
  | resolved token => exact (body.sameList_resolve token).1.slots ▸ Nat.le_refl _

theorem slotCount_le_change (first : Change) :
    body.slots.size ≤ (body.change first).2.slots.size := by
  cases first with
  | edit edit => exact slotCount_le_perform edit
  | copy id => exact Nat.le_refl _

theorem slotCount_le_changeAll (changes : List Change) :
    body.slots.size ≤ (body.changeAll changes).2.slots.size := by
  induction changes generalizing body with
  | nil => exact Nat.le_refl _
  | cons first rest ih => exact (slotCount_le_change first).trans ih

/-- A run of changes keeps a chain and follows the rules. -/
theorem Chain.changeAll (chain : body.Chain order) (changes : List Change)
    (bound : (body.changeAll changes).2.slots.size ≤ 2 ^ 32) :
    (∃ order', (body.changeAll changes).2.Chain order') ∧
      ListRun body.toList changes (body.changeAll changes).1 (body.changeAll changes).2.toList := by
  induction changes generalizing body order with
  | nil => exact ⟨⟨order, chain⟩, .nil⟩
  | cons first rest ih =>
      have hstep : (body.change first).2.slots.size ≤ 2 ^ 32 :=
        (slotCount_le_changeAll rest).trans bound
      obtain ⟨⟨order', chain'⟩, step⟩ := chain.change first hstep
      obtain ⟨hchain, run⟩ := ih chain' bound
      exact ⟨hchain, .cons step run⟩

/-- Following `next` from a handle on, as long as there is one, visits these handles. -/
inductive Visits (next : InstructionHandle → Except Error (Option InstructionHandle)) :
    Option InstructionHandle → List InstructionHandle → Prop where
  | nil : Visits next none []
  | cons {handle following rest} (step : next handle = .ok following)
      (visits : Visits next following rest) : Visits next (some handle) (handle :: rest)

/-- The links, the ends, the size and the free slots of a body agree with its walk. -/
structure WellLinked (body : MethodBody) : Prop where
  forward : Visits body.next body.firstHandle? (body.toList.map (·.1))
  backward : Visits body.previous body.lastHandle? (body.toList.map (·.1)).reverse
  instruction : ∀ entry ∈ body.toList, body.instruction entry.1 = .ok entry.2
  length : body.toList.length = body.size
  slots_nodup : (body.toList.map (·.1.slot)).Nodup
  lastHandle : body.lastHandle? = body.toList.getLast?.map (·.1)
  first_eq_none_iff : body.first = none ↔ body.size = 0
  last_eq_none_iff : body.last = none ↔ body.size = 0
  free_nodup : body.free.Nodup
  mem_free_iff : ∀ slot, slot ∈ body.free ↔
    slot.toNat < body.slots.size ∧ body.node? slot = none

namespace Chain

variable (chain : body.Chain order)

include chain

/-- The handle of a slot of the chain is accepted. -/
theorem linkedNode_handle (slot : UInt32) (h : slot ∈ order) :
    ∃ node, body.node? slot = some node ∧ body.linkedNode (body.handle slot) = .ok node := by
  obtain ⟨node, hnode⟩ := Option.isSome_iff_exists.mp ((chain.node?_isSome_iff slot).mpr h)
  refine ⟨node, hnode, (chain.linkedNode_eq_ok_iff _ node).mpr ⟨?_, hnode⟩⟩
  rw [chain.handles_toList]
  exact List.mem_map_of_mem h

theorem visits_next (before after : List UInt32) (horder : order = before ++ after) :
    Visits body.next (after.head?.map body.handle) (after.map body.handle) := by
  induction after generalizing before with
  | nil => exact .nil
  | cons slot after ih =>
      obtain ⟨node, hnode, hlinked⟩ := chain.linkedNode_handle slot (by simp [horder])
      obtain ⟨found, hfound, -, hafter⟩ := chain.links before slot after horder
      obtain rfl : found = node := Option.some.inj (hfound.symm.trans hnode)
      refine .cons ?_ (ih (before ++ [slot]) (by simpa using horder))
      rw [next, hlinked, ← hafter]
      rfl

theorem visits_previous (before after : List UInt32) (horder : order = before ++ after) :
    Visits body.previous (before.getLast?.map body.handle) (before.reverse.map body.handle) := by
  induction before using List.reverseRecOn generalizing after with
  | nil => exact .nil
  | append_singleton before slot ih =>
      obtain ⟨node, hnode, hlinked⟩ := chain.linkedNode_handle slot (by simp [horder])
      obtain ⟨found, hfound, hbefore, -⟩ := chain.links before slot after (by simpa using horder)
      obtain rfl : found = node := Option.some.inj (hfound.symm.trans hnode)
      rw [List.getLast?_concat, List.reverse_concat]
      refine .cons ?_ (ih (slot :: after) (by simpa using horder))
      rw [previous, hlinked, ← hbefore]
      rfl

theorem wellLinked : body.WellLinked where
  forward := by
    rw [chain.handles_toList, firstHandle?, chain.first]
    exact chain.visits_next [] order rfl
  backward := by
    rw [chain.handles_toList, lastHandle?, chain.last, ← List.map_reverse]
    exact chain.visits_previous order [] (by simp)
  instruction := by
    intro entry hentry
    rw [chain.toList_eq] at hentry
    obtain ⟨slot, hslot, rfl⟩ := List.mem_map.mp hentry
    obtain ⟨node, hnode, hlinked⟩ := chain.linkedNode_handle slot hslot
    simp [instruction, MethodBody.entry, hlinked, Except.map, contents, instruction?, hnode]
  length := by rw [chain.toList_eq, List.length_map, chain.size]
  slots_nodup := by
    have hslots : (fun entry : Entry => entry.1.slot) ∘ body.entry = fun slot => slot := rfl
    rw [chain.toList_eq, List.map_map, hslots, List.map_id']
    exact chain.nodup
  lastHandle := by
    rw [lastHandle?, chain.last, chain.toList_eq, List.getLast?_map, Option.map_map]
    rfl
  first_eq_none_iff := by
    rw [chain.first, chain.size, List.head?_eq_none_iff, List.length_eq_zero_iff]
  last_eq_none_iff := by
    rw [chain.last, chain.size, List.getLast?_eq_none_iff, List.length_eq_zero_iff]
  free_nodup := chain.free_nodup
  mem_free_iff := chain.mem_free

end Chain

/-- Every run of changes on an empty body does to its walk what the changes do to a list and gives
the same answers, refused changes leave the body as it was, and in the end the links agree with the
walk. -/
theorem changeAll_refines_list (id : UInt32) (changes : List Change)
    (bound : ((empty id).changeAll changes).2.slots.size ≤ 2 ^ 32) :
    ListRun [] changes ((empty id).changeAll changes).1 ((empty id).changeAll changes).2.toList ∧
      ((empty id).changeAll changes).2.WellLinked ∧
      ∀ before first after error, changes = before ++ first :: after →
        (((empty id).changeAll before).2.change first).1 = .error error →
          (((empty id).changeAll before).2.change first).2 =
            ((empty id).changeAll before).2 := by
  obtain ⟨⟨order, chain⟩, run⟩ := (chain_empty id).changeAll changes bound
  exact ⟨run, chain.wellLinked, fun _ _ _ _ _ => change_refused⟩

/-- Removing an instruction, using its slot again, its stale handle and a copy. -/
theorem changeAll_refines_list_reused_slot :
    let changes : List Change :=
      [.edit (.append (.simple ⟨0⟩)), .edit (.append (.simple ⟨177⟩)), .edit (.remove ⟨3, 0, 0⟩),
        .edit (.remove ⟨3, 0, 0⟩), .edit (.prepend (.simple ⟨1⟩)),
        .edit (.insertAfter ⟨3, 0, 1⟩ (.simple ⟨87⟩)), .copy 4,
        .edit (.insertBefore ⟨3, 0, 1⟩ (.simple ⟨0⟩)),
        .edit (.replace ⟨4, 2, 0⟩ (.simple ⟨88⟩))]
    ((empty 3).changeAll changes).2.slots.size ≤ 2 ^ 32 ∧
      ((empty 3).changeAll changes).2.toList =
        [(⟨4, 0, 1⟩, .simple ⟨1⟩), (⟨4, 2, 0⟩, .simple ⟨88⟩), (⟨4, 1, 0⟩, .simple ⟨177⟩)] ∧
      ((empty 3).changeAll changes).2.WellLinked :=
  ⟨by decide, by decide, (changeAll_refines_list _ _ (by decide)).2.1⟩

end JavaClass.MethodBody
