import JavaClass.Proofs.Body.History

/-!
# Looking positions up while editing

A session creates, copies and edits bodies and asks them questions; among the
questions are the two look-ups that go through the index. At whatever moments
the index is made, dropped and made again, every look-up answers what the walk
of the list says, and no later answer depends on it.

## Implementation notes

A session takes the way of looking up as a parameter. Each way that answers from
the walk and changes nothing but the index is faithful, and two faithful ways
cannot be told apart by the answers of a session. Looking up through the index
is one of them, walking the list each time is another.
-/

namespace JavaClass

namespace MethodBody

/-- A look-up that may go through the index. -/
inductive LookUp where
  /-- The instruction at a position. -/
  | get (position : Nat)
  /-- The position of an instruction. -/
  | indexOf (handle : InstructionHandle)

/-- A question that the list and what belongs to it answer. -/
inductive Question where
  | size
  | first
  | last
  | instruction (handle : InstructionHandle)
  | next (handle : InstructionHandle)
  | previous (handle : InstructionHandle)
  | contains (handle : InstructionHandle)
  | walk
  | backward
  | marker (label : Label)
  | exceptionTable
  | checkLabels
  | transcript

/-- An operation on a body. -/
inductive Operation where
  | edit (edit : Edit)
  /-- Changing what a body holds besides its list. -/
  | furnish (tryBlocks : Array (TryBlock Label)) (maxStack maxLocals : UInt16)
  | ask (question : Question)
  | lookUp (lookUp : LookUp)

/-- What an operation gives back. -/
inductive Reply where
  | done
  | edited (answer : Answer)
  | number (n : Nat)
  | truth (holds : Bool)
  | handle (handle : InstructionHandle)
  | handle? (handle : Option InstructionHandle)
  | instruction (i : Instruction Label)
  | entries (entries : List Entry)
  | handles (handles : List InstructionHandle)
  | exceptionTable (blocks : Array (TryBlock Label))
  | transcript (transcript : Transcript)

/-- Answers a question. -/
def answer (body : MethodBody) : Question → Except Error Reply
  | .size => .ok (.number body.size)
  | .first => .ok (.handle? body.firstHandle?)
  | .last => .ok (.handle? body.lastHandle?)
  | .instruction handle => (body.instruction handle).map .instruction
  | .next handle => (body.next handle).map .handle?
  | .previous handle => (body.previous handle).map .handle?
  | .contains handle => .ok (.truth (body.contains handle))
  | .walk => .ok (.entries body.toList)
  | .backward => .ok (.handles body.backward)
  | .marker label => .ok (.handle? (body.marker? label))
  | .exceptionTable => .ok (.exceptionTable body.tryBlocks)
  | .checkLabels => body.checkLabels.map fun _ => .done
  | .transcript => .ok (.transcript body.transcript)

/-- A way of answering look-ups, with the body as it is afterwards. -/
abbrev LookingUp := MethodBody → LookUp → Except Error Reply × MethodBody

/-- Looks up through the index. -/
def lookUp : LookingUp
  | body, .get position => ((body.get position).1.map .handle, (body.get position).2)
  | body, .indexOf handle => ((body.indexOf handle).1.map .number, (body.indexOf handle).2)

/-- What the walk of the list answers to a look-up. -/
def walkAnswer (body : MethodBody) : LookUp → Except Error Reply
  | .get position =>
      match (body.toList.map (·.1))[position]? with
      | some handle => .ok (.handle handle)
      | none => .error (.indexOutOfRange position body.toList.length)
  | .indexOf handle =>
      if handle ∈ body.toList.map (·.1) then .ok (.number ((body.toList.map (·.1)).idxOf handle))
      else .error (.unlinked handle)

/-- Looks up by walking the list, without an index. -/
def lookUpByWalk : LookingUp := fun body lookUp => (body.walkAnswer lookUp, body)

/-- Performs an operation. -/
def operate (way : LookingUp) (body : MethodBody) : Operation → Except Error Reply × MethodBody
  | .edit edit => ((body.perform edit).1.map .edited, (body.perform edit).2)
  | .furnish tryBlocks maxStack maxLocals =>
      (.ok .done, { body with tryBlocks, maxStack, maxLocals })
  | .ask question => (body.answer question, body)
  | .lookUp lookUp => way body lookUp

end MethodBody

open MethodBody

/-- A step of a session. -/
inductive SessionStep where
  | create
  | copy (source : Nat)
  | operate (position : Nat) (operation : Operation)

namespace Workspace

/-- Performs a step of a session. A step on a body that there is not gives no answer. -/
def step (way : LookingUp) (workspace : Workspace) :
    SessionStep → Option (Except Error Reply) × Workspace
  | .create => (some (.ok .done), workspace.addEmpty)
  | .copy source =>
      match workspace.bodies[source]? with
      | some body => (some (.ok .done), workspace.addCopy body)
      | none => (none, workspace)
  | .operate position operation =>
      match workspace.bodies[position]? with
      | some body =>
          (some (body.operate way operation).1,
            workspace.set position (body.operate way operation).2)
      | none => (none, workspace)

/-- Performs the steps of a session one after the other. -/
def session (way : LookingUp) (workspace : Workspace) :
    List SessionStep → List (Option (Except Error Reply)) × Workspace
  | [] => ([], workspace)
  | first :: rest =>
      ((workspace.step way first).1 :: ((workspace.step way first).2.session way rest).1,
        ((workspace.step way first).2.session way rest).2)

end Workspace

namespace MethodBody

variable {body : MethodBody} {order : List UInt32}

/-- The body without its index. -/
def forget (body : MethodBody) : MethodBody := { body with index := none }

theorem slots_eq_of_forget {a b : MethodBody} (h : a.forget = b.forget) : a.slots = b.slots := by
  have hslots := congrArg MethodBody.slots h
  exact hslots

theorem linkAfter_forget (slot after : Option UInt32) :
    body.forget.linkAfter slot after = (body.linkAfter slot after).forget := by
  have hnode : body.forget.node? = body.node? := rfl
  simp only [linkAfter, hnode]
  cases slot.filter fun slot => (body.node? slot).isSome with
  | none => rfl
  | some slot => rfl

theorem linkBefore_forget (slot before : Option UInt32) :
    body.forget.linkBefore slot before = (body.linkBefore slot before).forget := by
  have hnode : body.forget.node? = body.node? := rfl
  simp only [linkBefore, hnode]
  cases slot.filter fun slot => (body.node? slot).isSome with
  | none => rfl
  | some slot => rfl

theorem allocate_forget (node : BodyNode) :
    body.forget.allocate node = ((body.allocate node).1, (body.allocate node).2.forget) := by
  have hfree : body.forget.free = body.free := rfl
  simp only [allocate, hfree]
  cases body.free with
  | nil => rfl
  | cons slot free => rfl

theorem insertBetween_forget (i : Instruction Label) (before after : Option UInt32) :
    body.forget.insertBetween i before after = body.insertBetween i before after := by
  simp only [insertBetween, allocate_forget, linkAfter_forget, linkBefore_forget]
  rfl

theorem remove_forget (handle : InstructionHandle) :
    body.forget.remove handle = body.remove handle := by
  have hlinked : body.forget.linkedNode handle = body.linkedNode handle := rfl
  simp only [remove, hlinked]
  cases body.linkedNode handle with
  | error => rfl
  | ok node =>
      have hbare (slots : Array BodySlot) (free : List UInt32) :
          { body.forget with slots, free } = { body with slots, free }.forget := rfl
      simp only [hbare, linkAfter_forget, linkBefore_forget]
      rfl

/-- An edit does not depend on the index. -/
theorem perform_forget (edit : Edit) :
    (body.forget.perform edit).1 = (body.perform edit).1 ∧
      (body.forget.perform edit).2.forget = (body.perform edit).2.forget := by
  have hlinked : body.forget.linkedNode = body.linkedNode := rfl
  cases edit with
  | append i =>
      simp only [perform, append, insertBetween_forget]
      exact ⟨rfl, rfl⟩
  | prepend i =>
      simp only [perform, prepend, insertBetween_forget]
      exact ⟨rfl, rfl⟩
  | insertBefore anchor i =>
      simp only [perform, insertBefore, insertBetween_forget, hlinked]
      cases body.linkedNode anchor with
      | error => exact ⟨rfl, rfl⟩
      | ok node => exact ⟨rfl, rfl⟩
  | insertAfter anchor i =>
      simp only [perform, insertAfter, insertBetween_forget, hlinked]
      cases body.linkedNode anchor with
      | error => exact ⟨rfl, rfl⟩
      | ok node => exact ⟨rfl, rfl⟩
  | remove handle =>
      simp only [perform, remove_forget]
      cases body.remove handle with
      | error => exact ⟨rfl, rfl⟩
      | ok result => exact ⟨rfl, rfl⟩
  | replace handle i =>
      simp only [perform, replace, hlinked]
      cases body.linkedNode handle with
      | error => exact ⟨rfl, rfl⟩
      | ok node => exact ⟨rfl, rfl⟩
  | newLabel => exact ⟨rfl, rfl⟩
  | resolve token =>
      have hlabels : body.forget.labels = body.labels := rfl
      simp only [perform, resolve, hlabels]
      cases body.labels[token]? with
      | none => exact ⟨rfl, rfl⟩
      | some label => exact ⟨rfl, rfl⟩

theorem toList_forget : body.forget.toList = body.toList :=
  SameList.toList_eq ⟨rfl, rfl, rfl, rfl, rfl⟩ rfl

theorem walkBackFrom_forget (fuel : Nat) (slot : Option UInt32) :
    body.forget.walkBackFrom fuel slot = body.walkBackFrom fuel slot := by
  have hnode : body.forget.node? = body.node? := rfl
  have hhandle : body.forget.handle = body.handle := rfl
  induction fuel generalizing slot with
  | zero => rfl
  | succ fuel ih =>
      cases slot with
      | none => rfl
      | some slot => simp only [walkBackFrom, hnode, hhandle, ih]

theorem backward_forget : body.forget.backward = body.backward := walkBackFrom_forget ..

/-- No question is answered from the index. -/
theorem answer_forget (question : Question) :
    body.forget.answer question = body.answer question := by
  have hlabels : body.forget.checkLabels = body.checkLabels := by
    simp only [checkLabels, placed, referenced, instructions, toList_forget]
    rfl
  cases question with
  | contains handle => simp only [answer, contains, toList_forget]
  | walk => simp only [answer, toList_forget]
  | backward => simp only [answer, backward_forget]
  | marker label => simp only [answer, marker?, toList_forget]
  | checkLabels => simp only [answer, hlabels]
  | transcript =>
      simp only [answer, transcript, hlabels, instructions, toList_forget]
      rfl
  | _ => rfl

theorem walkAnswer_forget (lookUp : LookUp) :
    body.forget.walkAnswer lookUp = body.walkAnswer lookUp := by
  cases lookUp with
  | get position => simp only [walkAnswer, toList_forget]
  | indexOf handle => simp only [walkAnswer, toList_forget]

/-- The links form a chain, and the index is absent or the one that would be made now. -/
structure Sound (body : MethodBody) : Prop where
  chain : ∃ order, body.Chain order
  indexed : body.Indexed

theorem sound_empty (id : UInt32) : (empty id).Sound where
  chain := ⟨[], chain_empty id⟩
  indexed := indexed_of_none rfl

/-- A look-up at most makes the index. -/
theorem lookUp_snd (lookUp : LookUp) :
    (body.lookUp lookUp).2 = body ∨ (body.lookUp lookUp).2 = body.withIndex.2 := by
  cases lookUp with
  | get position =>
      simp only [MethodBody.lookUp, get]
      split <;> exact .inr rfl
  | indexOf handle =>
      simp only [MethodBody.lookUp, indexOf]
      split
      · exact .inl rfl
      · split <;> exact .inr rfl

theorem forget_withIndex : body.withIndex.2.forget = body.forget := by
  unfold withIndex
  split <;> rfl

namespace Sound

variable (sound : body.Sound)

include sound

theorem withIndex : body.withIndex.2.Sound where
  chain := by
    obtain ⟨order, chain⟩ := sound.chain
    exact ⟨order, chain.of_sameList body.sameList_withIndex.1⟩
  indexed := sound.indexed.withIndex

theorem copy (id : UInt32) : (body.copy id).Sound where
  chain := by
    obtain ⟨order, chain⟩ := sound.chain
    exact ⟨order, chain.of_sameList ⟨rfl, rfl, rfl, rfl, rfl⟩⟩
  indexed := indexed_of_none rfl

theorem perform (edit : Edit) (bound : (body.perform edit).2.slots.size ≤ 2 ^ 32) :
    (body.perform edit).2.Sound where
  chain := by
    obtain ⟨order, chain⟩ := sound.chain
    exact (chain.follows edit bound).1
  indexed := by
    obtain ⟨order, chain⟩ := sound.chain
    exact chain.indexed_perform sound.indexed edit

theorem furnish (tryBlocks : Array (TryBlock Label)) (maxStack maxLocals : UInt16) :
    { body with tryBlocks, maxStack, maxLocals : MethodBody }.Sound where
  chain := by
    obtain ⟨order, chain⟩ := sound.chain
    exact ⟨order, chain.of_sameList ⟨rfl, rfl, rfl, rfl, rfl⟩⟩
  indexed := sound.indexed.furnish tryBlocks maxStack maxLocals

/-- The walk is as long as the body is large. -/
theorem length_toList : body.toList.length = body.size := by
  obtain ⟨order, chain⟩ := sound.chain
  exact chain.wellLinked.length

theorem order_withIndex : body.withIndex.1.order = (body.toList.map (·.1)).toArray := by
  rw [withIndex_fst sound.indexed]
  rfl

/-- The instruction at a position is the one that the walk meets there. -/
theorem get_eq (position : Nat) :
    (body.get position).1 =
      match (body.toList.map (·.1))[position]? with
      | some handle => .ok handle
      | none => .error (.indexOutOfRange position body.toList.length) := by
  simp only [MethodBody.get, sound.order_withIndex, List.getElem?_toArray]
  cases (body.toList.map (·.1))[position]? with
  | none => rw [sound.length_toList, body.sameList_withIndex.1.size]
  | some handle => rfl

/-- The position of an instruction is the one where the walk meets it. -/
theorem indexOf_eq (handle : InstructionHandle) :
    (body.indexOf handle).1 =
      if handle ∈ body.toList.map (·.1) then .ok ((body.toList.map (·.1)).idxOf handle)
      else .error (.unlinked handle) := by
  obtain ⟨order, chain⟩ := sound.chain
  by_cases hmem : handle ∈ body.toList.map (·.1)
  · rw [if_pos hmem]
    have hlt := List.idxOf_lt_length_of_mem hmem
    refine chain.indexOf_eq_ok sound.indexed ?_
    rw [List.getElem?_eq_getElem hlt, List.getElem_idxOf]
  · rw [if_neg hmem]
    exact chain.indexOf_eq_error hmem

theorem lookUp_fst (lookUp : LookUp) : (body.lookUp lookUp).1 = body.walkAnswer lookUp := by
  cases lookUp with
  | get position =>
      simp only [MethodBody.lookUp, sound.get_eq, walkAnswer]
      cases (body.toList.map (·.1))[position]? with
      | none => rfl
      | some handle => rfl
  | indexOf handle =>
      simp only [MethodBody.lookUp, sound.indexOf_eq, walkAnswer]
      split <;> rfl

theorem sound_lookUp (lookUp : LookUp) : (body.lookUp lookUp).2.Sound := by
  obtain h | h := body.lookUp_snd lookUp
  · rw [h]
    exact sound
  · rw [h]
    exact sound.withIndex

end Sound

/-- A way of looking up that answers from the walk and changes nothing but the index. -/
structure Faithful (way : LookingUp) : Prop where
  answer : ∀ body, Sound body → ∀ lookUp, (way body lookUp).1 = body.walkAnswer lookUp
  forget : ∀ body lookUp, (way body lookUp).2.forget = body.forget
  sound : ∀ body, Sound body → ∀ lookUp, (way body lookUp).2.Sound

theorem faithful_lookUp : Faithful lookUp where
  answer := fun _ sound => sound.lookUp_fst
  forget := by
    intro body asked
    obtain h | h := body.lookUp_snd asked
    · rw [h]
    · rw [h, forget_withIndex]
  sound := fun _ sound => sound.sound_lookUp

theorem faithful_lookUpByWalk : Faithful lookUpByWalk where
  answer := fun _ _ _ => rfl
  forget := fun _ _ => rfl
  sound := fun _ sound _ => sound

/-- Two bodies, both right, that differ in the index alone. -/
structure Twins (a b : MethodBody) : Prop where
  forget : a.forget = b.forget
  left : a.Sound
  right : b.Sound

theorem twins_refl (sound : body.Sound) : Twins body body := ⟨rfl, sound, sound⟩

namespace Twins

variable {a b : MethodBody} (twins : Twins a b)

include twins

theorem copy (id : UInt32) : Twins (a.copy id) (b.copy id) where
  forget := by
    have hcopy := congrArg (fun body => MethodBody.copy body id) twins.forget
    exact hcopy
  left := twins.left.copy id
  right := twins.right.copy id

/-- An operation gives the same answer on twins and leaves twins. -/
theorem operate {way way' : LookingUp} (faithful : Faithful way) (faithful' : Faithful way')
    (operation : Operation) (bound : (a.operate way operation).2.slots.size ≤ 2 ^ 32) :
    (a.operate way operation).1 = (b.operate way' operation).1 ∧
      Twins (a.operate way operation).2 (b.operate way' operation).2 := by
  cases operation with
  | edit edit =>
      simp only [MethodBody.operate] at bound ⊢
      obtain ⟨hanswer, hforget⟩ := a.perform_forget edit
      obtain ⟨hanswer', hforget'⟩ := b.perform_forget edit
      rw [twins.forget] at hanswer hforget
      have hafter : (a.perform edit).2.forget = (b.perform edit).2.forget :=
        hforget.symm.trans hforget'
      have hslots := slots_eq_of_forget hafter
      refine ⟨by rw [← hanswer, hanswer'], hafter, twins.left.perform edit bound, ?_⟩
      exact twins.right.perform edit (hslots ▸ bound)
  | furnish tryBlocks maxStack maxLocals =>
      have hforget := congrArg
        (fun body => { body with tryBlocks, maxStack, maxLocals : MethodBody }) twins.forget
      exact ⟨rfl, hforget, twins.left.furnish .., twins.right.furnish ..⟩
  | ask question =>
      refine ⟨?_, twins⟩
      calc a.answer question = a.forget.answer question := (answer_forget question).symm
        _ = b.forget.answer question := by rw [twins.forget]
        _ = b.answer question := answer_forget question
  | lookUp asked =>
      refine ⟨?_, ?_, faithful.sound a twins.left asked, faithful'.sound b twins.right asked⟩
      · calc (way a asked).1 = a.walkAnswer asked := faithful.answer a twins.left asked
          _ = a.forget.walkAnswer asked := (walkAnswer_forget asked).symm
          _ = b.forget.walkAnswer asked := by rw [twins.forget]
          _ = b.walkAnswer asked := walkAnswer_forget asked
          _ = (way' b asked).1 := (faithful'.answer b twins.right asked).symm
      · calc (way a asked).2.forget = a.forget := faithful.forget a asked
          _ = b.forget := twins.forget
          _ = (way' b asked).2.forget := (faithful'.forget b asked).symm

end Twins

/-- An operation never takes a slot away. -/
theorem slotCount_le_operate {way : LookingUp} (faithful : Faithful way) (operation : Operation) :
    body.slots.size ≤ (body.operate way operation).2.slots.size := by
  cases operation with
  | edit edit => exact slotCount_le_perform edit
  | furnish tryBlocks maxStack maxLocals => exact Nat.le_refl _
  | ask question => exact Nat.le_refl _
  | lookUp asked =>
      have hslots := slots_eq_of_forget (faithful.forget body asked)
      exact Nat.le_of_eq (congrArg Array.size hslots).symm

/-- The look-ups of a body answer what its walk says. -/
structure AnswersFromWalk (body : MethodBody) : Prop where
  length : body.toList.length = body.size
  get_of_lt : ∀ (position : Nat) (h : position < body.toList.length),
    (body.get position).1 = .ok body.toList[position].1
  get_of_le : ∀ position, body.toList.length ≤ position →
    (body.get position).1 = .error (.indexOutOfRange position body.toList.length)
  indexOf_eq_ok_iff : ∀ handle position,
    (body.indexOf handle).1 = .ok position ↔ (body.toList.map (·.1))[position]? = some handle
  indexOf_eq_error_iff : ∀ handle,
    (body.indexOf handle).1 = .error (.unlinked handle) ↔ handle ∉ body.toList.map (·.1)

theorem Sound.answersFromWalk (sound : body.Sound) : body.AnswersFromWalk where
  length := sound.length_toList
  get_of_lt := by
    intro position h
    rw [sound.get_eq, List.getElem?_map, List.getElem?_eq_getElem h]
    rfl
  get_of_le := by
    intro position h
    rw [sound.get_eq, List.getElem?_eq_none (by simpa using h)]
  indexOf_eq_ok_iff := by
    intro handle position
    obtain ⟨order, chain⟩ := sound.chain
    constructor
    · intro h
      rw [sound.indexOf_eq] at h
      split at h
      · rename_i hmem
        obtain rfl : _ = position := Except.ok.inj h
        have hlt := List.idxOf_lt_length_of_mem hmem
        rw [List.getElem?_eq_getElem hlt, List.getElem_idxOf]
      · cases h
    · exact chain.indexOf_eq_ok sound.indexed
  indexOf_eq_error_iff := by
    intro handle
    rw [sound.indexOf_eq]
    split <;> simp_all

end MethodBody

namespace Workspace

variable {v w : Workspace} {way way' : LookingUp}

/-- The slots of every body can be numbered. -/
def Fits (w : Workspace) : Prop :=
  ∀ (position : Nat) (body : MethodBody), w.bodies[position]? = some body →
    body.slots.size ≤ 2 ^ 32

/-- The same number of bodies, and twins at each position. -/
structure Alike (v w : Workspace) : Prop where
  size : v.bodies.size = w.bodies.size
  twins : ∀ (position : Nat) (a b : MethodBody), v.bodies[position]? = some a →
    w.bodies[position]? = some b → Twins a b

theorem alike_empty : Alike empty empty := ⟨rfl, fun _ _ _ h => by simp [empty] at h⟩

namespace Alike

/-- Where the one has a body, the other has its twin. -/
theorem find (alike : Alike v w) {position : Nat} {a : MethodBody}
    (found : v.bodies[position]? = some a) :
    ∃ b, w.bodies[position]? = some b ∧ Twins a b := by
  obtain ⟨hlt, -⟩ := Array.getElem?_eq_some_iff.mp found
  have hb := Array.getElem?_eq_getElem (alike.size ▸ hlt)
  exact ⟨_, hb, alike.twins position a _ found hb⟩

theorem find_none (alike : Alike v w) {position : Nat} (absent : v.bodies[position]? = none) :
    w.bodies[position]? = none := by
  rw [Array.getElem?_eq_none_iff] at absent ⊢
  exact alike.size ▸ absent

theorem push (alike : Alike v w) {a b : MethodBody} (twins : Twins a b) :
    Alike ⟨v.bodies.push a⟩ ⟨w.bodies.push b⟩ where
  size := by simp only [Array.size_push, alike.size]
  twins := by
    intro position a' b' ha hb
    obtain ⟨hsize, rfl⟩ | ⟨hne, ha⟩ := RecordedWorkspace.find_push ha
    · obtain ⟨-, rfl⟩ | ⟨hne, -⟩ := RecordedWorkspace.find_push hb
      · exact twins
      · exact absurd (hsize.trans alike.size) hne
    · obtain ⟨hsize, -⟩ | ⟨-, hb⟩ := RecordedWorkspace.find_push hb
      · exact absurd (hsize.trans alike.size.symm) hne
      · exact alike.twins position a' b' ha hb

theorem set (alike : Alike v w) {position : Nat} {a b a' b' : MethodBody}
    (ha : v.bodies[position]? = some a) (hb : w.bodies[position]? = some b)
    (twins : Twins a' b') : Alike (v.set position a') (w.set position b') where
  size := by simp only [Workspace.set, Array.size_setIfInBounds, alike.size]
  twins := by
    intro other a'' b'' ha'' hb''
    obtain ⟨rfl, rfl⟩ | ⟨hne, ha''⟩ := RecordedWorkspace.find_set ha ha''
    · obtain ⟨-, rfl⟩ | ⟨hne, -⟩ := RecordedWorkspace.find_set hb hb''
      · exact twins
      · exact absurd rfl hne
    · obtain ⟨rfl, -⟩ | ⟨-, hb''⟩ := RecordedWorkspace.find_set hb hb''
      · exact absurd rfl hne
      · exact alike.twins other a'' b'' ha'' hb''

theorem nextId (alike : Alike v w) : v.nextId = w.nextId := by
  simp only [Workspace.nextId, alike.size]

/-- A step gives the same answer in both and leaves them alike. -/
theorem step (alike : Alike v w) (faithful : Faithful way) (faithful' : Faithful way')
    {first : SessionStep} (fits : (v.step way first).2.Fits) :
    (v.step way first).1 = (w.step way' first).1 ∧
      Alike (v.step way first).2 (w.step way' first).2 := by
  cases first with
  | create =>
      refine ⟨rfl, alike.push ?_⟩
      rw [alike.nextId]
      exact twins_refl (sound_empty _)
  | copy source =>
      simp only [Workspace.step]
      cases ha : v.bodies[source]? with
      | none =>
          simp only [alike.find_none ha, true_and]
          exact alike
      | some a =>
          obtain ⟨b, hb, twins⟩ := alike.find ha
          simp only [hb, true_and]
          refine alike.push ?_
          rw [alike.nextId]
          exact twins.copy _
  | operate position operation =>
      simp only [Workspace.step] at fits ⊢
      cases ha : v.bodies[position]? with
      | none => simpa [alike.find_none ha] using alike
      | some a =>
          obtain ⟨b, hb, twins⟩ := alike.find ha
          simp only [ha] at fits
          simp only [hb]
          have bound := fits position _ (RecordedWorkspace.find_set_self _ ha)
          obtain ⟨hanswer, htwins⟩ := twins.operate faithful faithful' operation bound
          exact ⟨congrArg some hanswer, alike.set ha hb htwins⟩

end Alike

/-- What fits after a step fitted before. -/
theorem Fits.of_step (faithful : Faithful way) {first : SessionStep}
    (fits : (v.step way first).2.Fits) : v.Fits := by
  cases first with
  | create =>
      exact fun position body found => fits position body
        (RecordedWorkspace.find_push_of_found _ found).2
  | copy source =>
      simp only [Workspace.step] at fits
      cases ha : v.bodies[source]? with
      | none => simpa only [ha] using fits
      | some a =>
          simp only [ha] at fits
          exact fun position body found => fits position body
            (RecordedWorkspace.find_push_of_found _ found).2
  | operate position operation =>
      simp only [Workspace.step] at fits
      cases ha : v.bodies[position]? with
      | none => simpa only [ha] using fits
      | some a =>
          simp only [ha] at fits
          intro other body found
          by_cases hother : other = position
          · subst hother
            obtain rfl : a = body := Option.some.inj (ha.symm.trans found)
            exact (slotCount_le_operate faithful operation).trans
              (fits other _ (RecordedWorkspace.find_set_self _ ha))
          · refine fits other body ?_
            rw [← found]
            exact Array.getElem?_setIfInBounds_ne (Ne.symm hother)

theorem session_append (way : LookingUp) (v : Workspace) (before after : List SessionStep) :
    v.session way (before ++ after) =
      ((v.session way before).1 ++ ((v.session way before).2.session way after).1,
        ((v.session way before).2.session way after).2) := by
  induction before generalizing v with
  | nil => rfl
  | cons first rest ih => simp only [List.cons_append, session, ih]

theorem length_session (way : LookingUp) (v : Workspace) (steps : List SessionStep) :
    (v.session way steps).1.length = steps.length := by
  induction steps generalizing v with
  | nil => rfl
  | cons first rest ih => simp only [session, List.length_cons, ih]

/-- What fits after a session fitted before. -/
theorem Fits.of_session (faithful : Faithful way) {steps : List SessionStep}
    (fits : (v.session way steps).2.Fits) : v.Fits := by
  induction steps generalizing v with
  | nil => exact fits
  | cons first rest ih => exact (ih fits).of_step faithful

/-- A session gives the same answers in both and leaves them alike. -/
theorem Alike.session (alike : Alike v w) (faithful : Faithful way) (faithful' : Faithful way')
    {steps : List SessionStep} (fits : (v.session way steps).2.Fits) :
    (v.session way steps).1 = (w.session way' steps).1 ∧
      Alike (v.session way steps).2 (w.session way' steps).2 := by
  induction steps generalizing v w with
  | nil => exact ⟨rfl, alike⟩
  | cons first rest ih =>
      -- what fits in the end fitted after the first step
      have hfirst : (v.step way first).2.Fits := Fits.of_session faithful fits
      obtain ⟨hanswer, halike⟩ := alike.step faithful faithful' hfirst
      obtain ⟨hanswers, hfinal⟩ := ih halike fits
      refine ⟨?_, hfinal⟩
      simp only [Workspace.session, hanswer, hanswers]

/-- A look-up leaves the workspace as it was but for an index. -/
theorem Alike.lookUp (alike : Alike v v) (faithful : Faithful way) (position : Nat)
    (asked : LookUp) : Alike (v.step way (.operate position (.lookUp asked))).2 v := by
  simp only [Workspace.step]
  cases ha : v.bodies[position]? with
  | none => exact alike
  | some a =>
      have sound := (alike.twins position a a ha ha).left
      have twins : Twins (way a asked).2 a :=
        ⟨faithful.forget a asked, faithful.sound a sound asked, sound⟩
      refine ⟨by simp only [Workspace.set, Array.size_setIfInBounds], fun other a' b' ha' hb' => ?_⟩
      obtain ⟨rfl, rfl⟩ | ⟨-, ha'⟩ := RecordedWorkspace.find_set ha ha'
      · obtain rfl : a = b' := Option.some.inj (ha.symm.trans hb')
        exact twins
      · exact alike.twins other a' b' ha' hb'

theorem eraseIdx_middle {α : Type} {front rest : List α} {x : α} {n : Nat}
    (h : front.length = n) : (front ++ x :: rest).eraseIdx n = front ++ rest := by
  rw [List.eraseIdx_append_of_length_le h.le, h, Nat.sub_self, List.eraseIdx_cons_zero]

/-- Without a look-up, the answers of a session are the same but for the one to the look-up. -/
theorem session_eraseIdx (alike : Alike v v) (faithful : Faithful way)
    {steps : List SessionStep} (fits : (v.session way steps).2.Fits) {k position : Nat}
    {asked : LookUp} (found : steps[k]? = some (.operate position (.lookUp asked))) :
    (v.session way (steps.eraseIdx k)).1 = (v.session way steps).1.eraseIdx k := by
  obtain ⟨hlt, hk⟩ := List.getElem?_eq_some_iff.mp found
  obtain ⟨before, after, rfl, rfl⟩ : ∃ before after,
      steps = before ++ .operate position (.lookUp asked) :: after ∧ before.length = k := by
    refine ⟨steps.take k, steps.drop (k + 1), ?_, List.length_take_of_le hlt.le⟩
    rw [← hk, List.getElem_cons_drop, List.take_append_drop]
  -- before the look-up there is one session; after it, the two that go on are alike
  rw [session_append] at fits ⊢
  have hbefore := alike.session faithful faithful (Fits.of_session faithful fits)
  have hlookUp := hbefore.2.lookUp faithful position asked
  have hafter := (hlookUp.session faithful faithful fits).1
  rw [eraseIdx_middle rfl, session_append, session, eraseIdx_middle (length_session ..), hafter]

/-- A body that answers from its walk is at each position. -/
theorem Alike.answersFromWalk (alike : Alike v v) {position : Nat} {body : MethodBody}
    (found : v.bodies[position]? = some body) : body.AnswersFromWalk :=
  (alike.twins position body body found found).left.answersFromWalk

/-- Whatever is edited, copied and looked up in between, the look-ups of a session answer as if each
walked the list, every body that it comes to answers so, and without one of the look-ups all other
answers are the same. -/
theorem session_lookUps_agree_with_walk (steps : List SessionStep)
    (fits : (empty.session lookUp steps).2.Fits) :
    (empty.session lookUp steps).1 = (empty.session lookUpByWalk steps).1 ∧
      (∀ before after, steps = before ++ after → ∀ (position : Nat) (body : MethodBody),
        (empty.session lookUp before).2.bodies[position]? = some body → body.AnswersFromWalk) ∧
      ∀ (k position : Nat) (asked : LookUp),
        steps[k]? = some (.operate position (.lookUp asked)) →
          (empty.session lookUp (steps.eraseIdx k)).1 =
            (empty.session lookUp steps).1.eraseIdx k := by
  refine ⟨?_, ?_, fun k position asked found => ?_⟩
  · exact (alike_empty.session faithful_lookUp faithful_lookUpByWalk fits).1
  · rintro before after rfl position body found
    rw [session_append] at fits
    have hbefore := alike_empty.session faithful_lookUp faithful_lookUp
      (Fits.of_session faithful_lookUp fits)
    exact hbefore.2.answersFromWalk found
  · exact session_eraseIdx alike_empty faithful_lookUp fits found

/-- The index is made, dropped by a removal, made again, outlives a refused edit, and the copy makes
its own. -/
theorem session_lookUps_agree_with_walk_reused_slot :
    let steps : List SessionStep :=
      [.create, .operate 0 (.edit (.append (.simple ⟨0⟩))),
        .operate 0 (.edit (.append (.simple ⟨87⟩))), .operate 0 (.lookUp (.get 1)),
        .operate 0 (.edit (.remove ⟨0, 0, 0⟩)), .operate 0 (.lookUp (.get 1)),
        .operate 0 (.edit (.remove ⟨0, 0, 0⟩)), .operate 0 (.edit (.append (.simple ⟨89⟩))),
        .operate 0 (.lookUp (.indexOf ⟨0, 0, 1⟩)), .copy 0, .operate 1 (.lookUp (.get 0)),
        .operate 1 (.lookUp (.indexOf ⟨0, 0, 1⟩))]
    (empty.session lookUp steps).2.Fits ∧
      (empty.session lookUp steps).1 =
        [some (.ok .done), some (.ok (.edited (.handle ⟨0, 0, 0⟩))),
          some (.ok (.edited (.handle ⟨0, 1, 0⟩))), some (.ok (.handle ⟨0, 1, 0⟩)),
          some (.ok (.edited (.instruction (.simple ⟨0⟩)))),
          some (.error (.indexOutOfRange 1 1)), some (.error (.unlinked ⟨0, 0, 0⟩)),
          some (.ok (.edited (.handle ⟨0, 0, 1⟩))), some (.ok (.number 1)), some (.ok .done),
          some (.ok (.handle ⟨1, 1, 0⟩)), some (.error (.unlinked ⟨0, 0, 1⟩))] ∧
      (empty.session lookUp steps).1 = (empty.session lookUpByWalk steps).1 := by
  intro steps
  have fits : (empty.session lookUp steps).2.Fits := by
    have hslots : (empty.session lookUp steps).2.bodies.toList.all (·.slots.size ≤ 2 ^ 32) =
        true := by decide
    intro position body found
    obtain ⟨hlt, rfl⟩ := Array.getElem?_eq_some_iff.mp found
    simpa using List.all_eq_true.mp hslots _ (Array.getElem_mem_toList hlt)
  exact ⟨fits, rfl, (session_lookUps_agree_with_walk steps fits).1⟩

end Workspace

end JavaClass
