import Mathlib.Data.List.Pairwise
import JavaClass.Proofs.Body.Sessions

/-!
# Labels that a body gives out

A body gives a label to whoever asks for the one of a token or for a fresh one.
Labels are numbered in the order in which they are given out first, each token has
one label and no other token has it, and a fresh label never comes up again. As long
as nobody puts labels into the body that it did not give out, a label that it gives
out first is not in use either.

## Implementation notes

What a body gave out is kept as a list, in which the label of a token stands as
often as it was asked for. A copy goes on with the list of its original. Nodes are
looked at slot by slot, so nothing is needed of the links between them, and a body
refers to given labels only even if its numbers have come round.
-/

namespace JavaClass

/-- A label that a body gave out, for a token or as a fresh one. -/
structure Grant where
  token? : Option LabelToken
  label : Label
  deriving DecidableEq, Repr

/-- The labels that were given out, each where it comes up first. -/
def distinctLabels (given : List Grant) : List Label :=
  (given.map Grant.label).eraseDups

namespace MethodBody

/-- The labels of the instruction that an edit puts into a body. -/
def Edit.labels (change : Edit) : List Label :=
  change.instruction?.toList.flatMap Instruction.targets

theorem Edit.labels_eq {change : Edit} {i : Instruction Label}
    (puts : change.instruction? = some i) : change.labels = i.targets := by
  rw [labels, puts, Option.toList_some, List.flatMap_singleton]

/-- The labels that an operation puts into a body. -/
def Operation.labels : Operation → List Label
  | .edit change => change.labels
  | .furnish tryBlocks _ _ => tryBlocks.toList.flatMap TryBlock.targets
  | _ => []

/-- What a body gives out when an operation is performed on it. -/
def Operation.grants (body : MethodBody) : Operation → List Grant
  | .edit .newLabel => [⟨none, body.newLabel.1⟩]
  | .edit (.resolve token) => [⟨some token, (body.resolve token).1⟩]
  | _ => []

/-- The body has given out these labels, and no others were put into it. -/
inductive Handed : List Grant → MethodBody → Prop where
  | empty (id : UInt32) : Handed [] (empty id)
  | copy {given body} (handed : Handed given body) (id : UInt32) : Handed given (body.copy id)
  | operate {given body} (handed : Handed given body) (operation : Operation)
      (uses : operation.labels ⊆ given.map Grant.label) :
      Handed (given ++ operation.grants body) (body.operate lookUp operation).2

section

variable {body : MethodBody} {labels : List Label}

/-- The instructions of all nodes refer to these labels only. -/
def Stores (labels : List Label) (body : MethodBody) : Prop :=
  ∀ slot node, body.node? slot = some node → node.instruction.targets ⊆ labels

namespace Stores

variable (stores : body.Stores labels)

include stores

theorem editNode (slot : UInt32) (f : BodyNode → BodyNode)
    (keeps : ∀ node : BodyNode, node.instruction.targets ⊆ labels →
      (f node).instruction.targets ⊆ labels) : (body.editNode slot f).Stores labels := by
  intro t node hnode
  rw [node?_editNode] at hnode
  split at hnode
  · obtain ⟨old, hold, rfl⟩ := Option.map_eq_some_iff.mp hnode
    exact keeps old (stores t old hold)
  · exact stores t node hnode

theorem linkAfter (slot after : Option UInt32) : (body.linkAfter slot after).Stores labels := by
  unfold MethodBody.linkAfter
  split
  · rename_i slot _
    exact stores.editNode slot ({ · with after }) fun _ h => h
  · exact stores

theorem linkBefore (slot before : Option UInt32) : (body.linkBefore slot before).Stores labels := by
  unfold MethodBody.linkBefore
  split
  · rename_i slot _
    exact stores.editNode slot ({ · with before }) fun _ h => h
  · exact stores

theorem relink (before after next previous : Option UInt32) :
    (body.relink before after next previous).Stores labels :=
  (stores.linkAfter before next).linkBefore after previous

theorem withNode {i : Instruction Label} (uses : i.targets ⊆ labels)
    (before after : Option UInt32) : (body.withNode i before after).Stores labels := by
  intro t node hnode
  unfold MethodBody.withNode allocate at hnode
  cases hfree : body.free with
  | nil =>
      simp only [hfree, node?, Array.getElem?_push] at hnode
      split at hnode
      · cases hnode
        exact uses
      · exact stores t node hnode
  | cons slot free =>
      simp only [hfree, node?, Array.getElem?_modify] at hnode
      split at hnode
      · obtain ⟨place, hplace, hput⟩ := Option.bind_eq_some_iff.mp hnode
        obtain ⟨old, -, rfl⟩ := Option.map_eq_some_iff.mp hplace
        cases hput
        exact uses
      · exact stores t node hnode

theorem insertBetween {i : Instruction Label} (uses : i.targets ⊆ labels)
    (before after : Option UInt32) : (body.insertBetween i before after).2.Stores labels := by
  rw [insertBetween_snd]
  exact (stores.withNode uses before after).relink _ _ _ _

theorem unlink (slot : UInt32) (before after : Option UInt32) :
    (body.unlink slot before after).Stores labels := by
  have without : (body.withoutNode slot).Stores labels := by
    intro t node hnode
    rw [node?_withoutNode] at hnode
    split at hnode
    · cases hnode
    · exact stores t node hnode
  exact without.relink before after after before

/-- An edit puts no other labels into the nodes than its own. -/
theorem perform (change : Edit) (uses : change.labels ⊆ labels) :
    (body.perform change).2.Stores labels := by
  have makes := body.makes_perform change
  generalize (body.perform change).2 = after at makes ⊢
  cases makes with
  | refused => exact stores
  | inserted i before after puts =>
      exact stores.insertBetween (Edit.labels_eq puts ▸ uses) before after
  | @unlinked handle node => exact stores.unlink handle.slot node.before node.after
  | @replaced handle _ _ i =>
      rw [Edit.labels_eq rfl] at uses
      exact stores.editNode handle.slot ({ · with instruction := i }) fun _ _ => uses
  | newLabel => exact stores
  | resolved token =>
      have same := (@sameList_resolve body token).1
      intro slot node hnode
      rw [node?, same.slots] at hnode
      exact stores slot node hnode

/-- A walk comes across instructions of nodes only. -/
theorem walkFrom (fuel : Nat) (slot : Option UInt32) {done : List Entry}
    (hdone : ∀ entry ∈ done, entry.2.targets ⊆ labels) :
    ∀ entry ∈ body.walkFrom fuel slot done, entry.2.targets ⊆ labels := by
  have hreverse : ∀ entry ∈ done.reverse, entry.2.targets ⊆ labels :=
    fun entry hentry => hdone entry (List.mem_reverse.mp hentry)
  induction fuel generalizing slot done with
  | zero => exact hreverse
  | succ fuel ih =>
      cases slot with
      | none => exact hreverse
      | some slot =>
          rw [MethodBody.walkFrom]
          cases hnode : body.node? slot with
          | none => exact hreverse
          | some node =>
              have hmore : ∀ entry ∈ (body.handle slot, node.instruction) :: done,
                  entry.2.targets ⊆ labels :=
                List.forall_mem_cons.mpr ⟨stores slot node hnode, hdone⟩
              exact ih node.after hmore fun entry hentry => hmore entry (List.mem_reverse.mp hentry)

end Stores

/-- An edit that gives no label out changes the list alone. -/
theorem sameTables_perform {change : Edit} (h : (Operation.edit change).grants body = []) :
    SameTables body (body.perform change).2 := by
  have makes := body.makes_perform change
  generalize (body.perform change).2 = after at makes ⊢
  cases makes with
  | refused => exact ⟨rfl, rfl, rfl, rfl, rfl⟩
  | inserted i before after => exact sameTables_insertBetween i before after
  | @unlinked handle node =>
      obtain ⟨h₁, h₂, h₃, h₄, h₅⟩ := @sameTables_relink (body.withoutNode handle.slot) node.before
        node.after node.after node.before
      exact ⟨h₁, h₂, h₃, h₄, h₅⟩
  | replaced => exact ⟨rfl, rfl, rfl, rfl, rfl⟩
  | newLabel => cases h
  | resolved token => cases h

/-- An operation that gives no label out leaves the labels of all tokens and the count. -/
theorem sameLabels_operate {operation : Operation} (h : operation.grants body = []) :
    (body.operate lookUp operation).2.labels = body.labels ∧
      (body.operate lookUp operation).2.labelCount = body.labelCount := by
  cases operation with
  | edit change =>
      have same := sameTables_perform h
      exact ⟨same.labels, same.labelCount⟩
  | furnish tryBlocks maxStack maxLocals => exact ⟨rfl, rfl⟩
  | ask question => exact ⟨rfl, rfl⟩
  | lookUp asked =>
      have forget := faithful_lookUp.forget body asked
      have labels := congrArg MethodBody.labels forget
      have labelCount := congrArg MethodBody.labelCount forget
      exact ⟨labels, labelCount⟩

/-- No edit changes the exception table. -/
theorem tryBlocks_perform (change : Edit) :
    (body.perform change).2.tryBlocks = body.tryBlocks := by
  cases change with
  | newLabel => rfl
  | resolve token =>
      rw [perform, resolve]
      split <;> rfl
  | _ => exact (sameTables_perform rfl).tryBlocks

/-- The body refers to these labels only, in its list or out of it. -/
structure Covers (labels : List Label) (body : MethodBody) : Prop where
  nodes : body.Stores labels
  blocks : body.tryBlocks.toList.flatMap TryBlock.targets ⊆ labels

theorem covers_empty (id : UInt32) : (empty id).Covers labels where
  nodes := by simp [Stores, node?, empty]
  blocks := by simp [empty]

namespace Covers

variable (covers : body.Covers labels)

include covers

theorem mono {more : List Label} (hsubset : labels ⊆ more) : body.Covers more where
  nodes := fun slot node hnode => List.Subset.trans (covers.nodes slot node hnode) hsubset
  blocks := List.Subset.trans covers.blocks hsubset

theorem referenced : body.referenced ⊆ labels := by
  have hlist := covers.nodes.walkFrom body.slots.size body.first
    (List.forall_mem_nil fun entry : Entry => entry.2.targets ⊆ labels)
  refine List.append_subset.mpr ⟨?_, covers.blocks⟩
  intro label hlabel
  obtain ⟨i, hi, hlabel⟩ := List.mem_flatMap.mp hlabel
  obtain ⟨entry, hentry, rfl⟩ := List.mem_map.mp hi
  exact hlist entry hentry hlabel

theorem copy (id : UInt32) : (body.copy id).Covers labels :=
  ⟨covers.nodes, covers.blocks⟩

/-- An operation puts no other labels into the body than its own. -/
theorem operate (operation : Operation) (uses : operation.labels ⊆ labels) :
    (body.operate lookUp operation).2.Covers labels := by
  cases operation with
  | edit change =>
      refine ⟨covers.nodes.perform change uses, ?_⟩
      rw [MethodBody.operate, tryBlocks_perform]
      exact covers.blocks
  | furnish tryBlocks maxStack maxLocals => exact ⟨covers.nodes, uses⟩
  | ask question => exact covers
  | lookUp asked =>
      have hforget := faithful_lookUp.forget body asked
      have hslots := slots_eq_of_forget hforget
      refine ⟨?_, ?_⟩
      · intro slot node hnode
        rw [MethodBody.operate, node?, hslots] at hnode
        exact covers.nodes slot node hnode
      · have hblocks := congrArg MethodBody.tryBlocks hforget
        intro label hlabel
        exact covers.blocks (hblocks ▸ hlabel)

end Covers

/-- A body refers only to labels that it gave out. -/
theorem covers_of_handed {given : List Grant} (handed : Handed given body) :
    body.Covers (given.map Grant.label) := by
  induction handed with
  | empty id => exact covers_empty id
  | copy _ id ih => exact ih.copy id
  | operate _ operation uses ih =>
      rw [List.map_append]
      exact (ih.operate operation uses).mono (List.subset_append_left ..)

end

theorem labels_resolve_self (body : MethodBody) (token : LabelToken) :
    (body.resolve token).2.labels[token]? = some (body.resolve token).1 := by
  unfold resolve
  cases hlabel : body.labels[token]? with
  | some label => exact hlabel
  | none => simp [newLabel]

/-- A token keeps its label when another token is met. -/
theorem labels_resolve {body : MethodBody} {token : LabelToken} {label : Label}
    (other : LabelToken) (h : body.labels[token]? = some label) :
    (body.resolve other).2.labels[token]? = some label := by
  unfold resolve
  cases hother : body.labels[other]? with
  | some _ => exact h
  | none =>
      have hne : other ≠ token := by
        rintro rfl
        cases h.symm.trans hother
      simpa [newLabel, Std.TreeMap.getElem?_insert, hne] using h

/-- A token keeps its label, whatever is done. -/
theorem labels_operate {body : MethodBody} {token : LabelToken} {label : Label}
    (operation : Operation) (h : body.labels[token]? = some label) :
    (body.operate lookUp operation).2.labels[token]? = some label := by
  cases operation with
  | edit change =>
      cases change with
      | newLabel => exact h
      | resolve other => exact labels_resolve other h
      | _ =>
          rw [(sameLabels_operate rfl).1]
          exact h
  | _ =>
      rw [(sameLabels_operate rfl).1]
      exact h

theorem labels_of_mem_grants {body : MethodBody} {token : LabelToken} {label : Label}
    {operation : Operation} (mem : ⟨some token, label⟩ ∈ operation.grants body) :
    (body.operate lookUp operation).2.labels[token]? = some label := by
  cases operation with
  | edit change =>
      cases change with
      | newLabel => cases congrArg Grant.token? (List.mem_singleton.mp mem)
      | resolve other =>
          obtain ⟨same, rfl⟩ := Grant.mk.inj (List.mem_singleton.mp mem)
          obtain rfl := Option.some.inj same
          exact body.labels_resolve_self token
      | _ => cases mem
  | _ => cases mem

/-- A token has the label that was given out for it, even if the numbers have come round. -/
theorem labels_of_handed {given : List Grant} {body : MethodBody} (handed : Handed given body)
    {token : LabelToken} {label : Label} (mem : ⟨some token, label⟩ ∈ given) :
    body.labels[token]? = some label := by
  induction handed with
  | empty id => cases mem
  | copy _ id ih => exact ih mem
  | operate _ operation uses ih =>
      obtain before | now := List.mem_append.mp mem
      · exact labels_operate operation (ih before)
      · exact labels_of_mem_grants now

theorem distinctLabels_append (given : List Grant) (grant : Grant) :
    distinctLabels (given ++ [grant]) =
      if grant.label ∈ given.map Grant.label then distinctLabels given
      else distinctLabels given ++ [grant.label] := by
  rw [distinctLabels, List.map_append, List.map_singleton, List.eraseDups_append]
  by_cases hmem : grant.label ∈ given.map Grant.label
  · have hnone : [grant.label].removeAll (given.map Grant.label) = [] :=
      List.filter_eq_nil_iff.mpr (by simp [List.mem_map.mp hmem])
    rw [if_pos hmem, hnone, List.eraseDups_nil, List.append_nil, distinctLabels]
  · have hone : [grant.label].removeAll (given.map Grant.label) = [grant.label] :=
      List.filter_eq_self.mpr (by simpa using hmem)
    rw [if_neg hmem, hone, distinctLabels]
    rfl

theorem length_distinctLabels_le (given more : List Grant) :
    (distinctLabels given).length ≤ (distinctLabels (given ++ more)).length := by
  rw [distinctLabels, distinctLabels, List.map_append, List.eraseDups_append, List.length_append]
  exact Nat.le_add_right ..

theorem nodup_distinctLabels (given : List Grant) : (distinctLabels given).Nodup := by
  induction given using List.reverseRecOn with
  | nil => exact .nil
  | append_singleton given grant ih =>
      rw [distinctLabels_append]
      split
      · exact ih
      · rename_i fresh
        have apart : ∀ label ∈ distinctLabels given, label ≠ grant.label := by
          rintro _ mem rfl
          exact fresh (List.mem_eraseDups.mp mem)
        exact ih.append (List.nodup_singleton _) (by simpa using fun mem => apart _ mem rfl)

/-- If labels were given out for tokens only, there are no more labels than tokens. -/
theorem length_distinctLabels_le_tokens {given : List Grant} {body : MethodBody}
    (handed : Handed given body) {tokens : List LabelToken}
    (htokens : given.map Grant.token? = tokens.map some) :
    (distinctLabels given).length ≤ tokens.eraseDups.length := by
  have nodup : ((distinctLabels given).map some).Nodup :=
    (nodup_distinctLabels given).map (Option.some_injective _)
  have subset : (distinctLabels given).map some ⊆ tokens.eraseDups.map (body.labels[·]?) := by
    intro label? hlabel
    obtain ⟨label, hdistinct, rfl⟩ := List.mem_map.mp hlabel
    obtain ⟨grant, hgrant, rfl⟩ := List.mem_map.mp (List.mem_eraseDups.mp hdistinct)
    have hasked : grant.token? ∈ tokens.map some := htokens ▸ List.mem_map_of_mem hgrant
    obtain ⟨token, htoken, hsome⟩ := List.mem_map.mp hasked
    have hgiven : ⟨some token, grant.label⟩ ∈ given := by
      rw [hsome]
      exact hgrant
    rw [← labels_of_handed handed hgiven]
    exact List.mem_map_of_mem (List.mem_eraseDups.mpr htoken)
  simpa using nodup.length_le_of_subset subset

/-- The labels are numbered in the order in which they were given out first, and the body knows
who has them. -/
structure Numbered (given : List Grant) (body : MethodBody) : Prop where
  ids : (distinctLabels given).map (·.id.toNat) = List.range (distinctLabels given).length
  labelCount : body.labelCount.toNat = (distinctLabels given).length
  labels : ∀ token label, body.labels[token]? = some label ↔ ⟨some token, label⟩ ∈ given
  apart : given.Pairwise fun first second =>
    first.label = second.label → first = second ∧ first.token? ≠ none

variable {given : List Grant} {body after : MethodBody}

theorem numbered_empty (id : UInt32) : Numbered [] (empty id) where
  ids := rfl
  labelCount := rfl
  labels := by simp [empty]
  apart := .nil

namespace Numbered

variable (numbered : Numbered given body)

include numbered

/-- Only who has a label gets it. -/
theorem owner {first second : Grant} (hfirst : first ∈ given) (hsecond : second ∈ given)
    (h : first.label = second.label) : first = second := by
  have hpairwise : given.Pairwise fun first second =>
      first.label = second.label → first = second :=
    numbered.apart.imp fun hapart heq => (hapart heq).1
  have hsymm : Std.Symm fun first second : Grant =>
      first.label = second.label → first = second :=
    ⟨fun first second hown heq => (hown heq.symm).symm⟩
  exact hpairwise.forall_of_forall (fun _ _ _ => rfl) hfirst hsecond h

/-- A label that is given out first was not given out before. -/
theorem newLabel_notMem : body.newLabel.1 ∉ given.map Grant.label := by
  intro hmem
  have hdistinct : body.newLabel.1 ∈ distinctLabels given := List.mem_eraseDups.mpr hmem
  have hid : body.labelCount.toNat ∈ (distinctLabels given).map (·.id.toNat) :=
    List.mem_map_of_mem hdistinct
  rw [numbered.ids, List.mem_range, numbered.labelCount] at hid
  exact Nat.lt_irrefl _ hid

/-- Nothing is given out. -/
theorem of_same (labels : after.labels = body.labels)
    (labelCount : after.labelCount = body.labelCount) : Numbered given after where
  ids := numbered.ids
  labelCount := labelCount ▸ numbered.labelCount
  labels := by
    rw [labels]
    exact numbered.labels
  apart := numbered.apart

/-- The label of a token is given out once more. -/
theorem again {token : LabelToken} {label : Label} (h : body.labels[token]? = some label) :
    Numbered (given ++ [⟨some token, label⟩]) body := by
  have hgiven : ⟨some token, label⟩ ∈ given := (numbered.labels token label).mp h
  have hdistinct : distinctLabels (given ++ [⟨some token, label⟩]) = distinctLabels given := by
    rw [distinctLabels_append, if_pos (List.mem_map_of_mem hgiven)]
  refine ⟨hdistinct ▸ numbered.ids, hdistinct ▸ numbered.labelCount, ?_, ?_⟩
  · intro token' label'
    rw [numbered.labels, List.mem_append, List.mem_singleton]
    constructor
    · exact .inl
    · rintro (hmem | heq)
      · exact hmem
      · exact heq ▸ hgiven
  · refine List.pairwise_append.mpr ⟨numbered.apart, List.pairwise_singleton .., ?_⟩
    rintro first hfirst second hsecond heq
    obtain rfl := List.mem_singleton.mp hsecond
    obtain rfl := numbered.owner hfirst hgiven heq
    exact ⟨rfl, Option.some_ne_none token⟩

/-- A label is given out first. -/
theorem first (token? : Option LabelToken)
    (room : (distinctLabels (given ++ [⟨token?, body.newLabel.1⟩])).length < 2 ^ 32)
    (labelCount : after.labelCount = body.labelCount + 1)
    (labels : ∀ token label, after.labels[token]? = some label ↔
      body.labels[token]? = some label ∨ token? = some token ∧ label = body.newLabel.1) :
    Numbered (given ++ [⟨token?, body.newLabel.1⟩]) after := by
  have hnew := numbered.newLabel_notMem
  have hdistinct : distinctLabels (given ++ [⟨token?, body.newLabel.1⟩]) =
      distinctLabels given ++ [body.newLabel.1] := by
    rw [distinctLabels_append, if_neg hnew]
  have hlength : (distinctLabels given ++ [body.newLabel.1]).length =
      (distinctLabels given).length + 1 := List.length_append
  rw [hdistinct, hlength] at room
  refine ⟨?_, ?_, ?_, ?_⟩
  · rw [hdistinct, List.map_append, numbered.ids, hlength, List.range_succ, List.map_singleton,
      ← numbered.labelCount]
    rfl
  · rw [hdistinct, hlength, labelCount, UInt32.toNat_add, numbered.labelCount]
    exact Nat.mod_eq_of_lt room
  · intro token label
    rw [labels, numbered.labels, List.mem_append, List.mem_singleton, Grant.mk.injEq,
      eq_comm (a := token?)]
  · refine List.pairwise_append.mpr ⟨numbered.apart, List.pairwise_singleton .., ?_⟩
    rintro first hfirst second hsecond heq
    obtain rfl := List.mem_singleton.mp hsecond
    exact absurd (List.mem_map.mpr ⟨first, hfirst, heq⟩) hnew

theorem operate_of_none {operation : Operation} (h : operation.grants body = []) :
    Numbered (given ++ operation.grants body) (body.operate lookUp operation).2 := by
  obtain ⟨labels, labelCount⟩ := sameLabels_operate h
  rw [h, List.append_nil]
  exact numbered.of_same labels labelCount

theorem resolve (token : LabelToken)
    (room : (distinctLabels (given ++ [⟨some token, (body.resolve token).1⟩])).length < 2 ^ 32) :
    Numbered (given ++ [⟨some token, (body.resolve token).1⟩]) (body.resolve token).2 := by
  unfold MethodBody.resolve at room ⊢
  cases hlabel : body.labels[token]? with
  | some label => exact numbered.again hlabel
  | none =>
      rw [hlabel] at room
      refine numbered.first (some token) room rfl fun other label => ?_
      simp only [Std.TreeMap.getElem?_insert, Std.compare_eq_iff_eq, Option.some.injEq]
      by_cases heq : token = other
      · subst heq
        simp [hlabel, newLabel, eq_comm]
      · simp [heq, newLabel]

/-- Numbers go on while there are less than 32 bits can hold. -/
theorem operate (operation : Operation)
    (room : (distinctLabels (given ++ operation.grants body)).length < 2 ^ 32) :
    Numbered (given ++ operation.grants body) (body.operate lookUp operation).2 := by
  cases operation with
  | edit change =>
      cases change with
      | newLabel =>
          refine numbered.first none room rfl fun token label => ?_
          simp [MethodBody.operate, perform, newLabel]
      | resolve token => exact numbered.resolve token room
      | _ => exact numbered.operate_of_none rfl
  | _ => exact numbered.operate_of_none rfl

end Numbered

theorem numbered_of_handed (handed : Handed given body)
    (room : (distinctLabels given).length < 2 ^ 32) : Numbered given body := by
  induction handed with
  | empty id => exact numbered_empty id
  | copy _ id ih => exact (ih room).of_same rfl rfl
  | operate _ operation uses ih =>
      exact (ih (Nat.lt_of_le_of_lt (length_distinctLabels_le ..) room)).operate operation room

/-- Each label that the body gave out is for one token, or was asked for as a fresh one. -/
structure TellsApart (given : List Grant) (body : MethodBody) : Prop where
  /-- Labels get the numbers from 0 on in the order in which they are given out first. -/
  consecutive : (distinctLabels given).map (·.id.toNat) = List.range (distinctLabels given).length
  /-- Two tokens have the same label only if they are equal, and a token has one label. -/
  tokens : ∀ token label token' label', ⟨some token, label⟩ ∈ given →
    ⟨some token', label'⟩ ∈ given → (label = label' ↔ token = token')
  /-- A token keeps its label. -/
  resolve : ∀ token label, ⟨some token, label⟩ ∈ given → (body.resolve token).1 = label
  /-- A fresh label is given out neither before nor after that. -/
  fresh : ∀ before label after, given = before ++ ⟨none, label⟩ :: after →
    label ∉ (before ++ after).map Grant.label
  /-- The next fresh label was not given out and is not in use. -/
  newLabel : body.newLabel.1 ∉ given.map Grant.label ∧ body.newLabel.1 ∉ body.referenced

namespace Numbered

variable (numbered : Numbered given body)

include numbered

theorem label_eq_iff {token token' : LabelToken} {label label' : Label}
    (h : ⟨some token, label⟩ ∈ given) (h' : ⟨some token', label'⟩ ∈ given) :
    label = label' ↔ token = token' := by
  constructor
  · intro heq
    have howner := numbered.owner h h' heq
    exact Option.some.inj (congrArg Grant.token? howner)
  · rintro rfl
    rw [← numbered.labels] at h h'
    exact Option.some.inj (h.symm.trans h')

theorem fresh {before after : List Grant} {label : Label}
    (h : given = before ++ ⟨none, label⟩ :: after) :
    label ∉ (before ++ after).map Grant.label := by
  have hapart := numbered.apart
  rw [h] at hapart
  obtain ⟨-, hafter, hbefore⟩ := List.pairwise_append.mp hapart
  intro hmem
  obtain ⟨other, hother, rfl⟩ := List.mem_map.mp hmem
  obtain hother | hother := List.mem_append.mp hother
  · obtain ⟨heq, hnone⟩ := hbefore other hother _ List.mem_cons_self rfl
    exact hnone (congrArg Grant.token? heq)
  · exact (List.rel_of_pairwise_cons hafter hother rfl).2 rfl

end Numbered

theorem tellsApart_of_handed (handed : Handed given body)
    (room : (distinctLabels given).length < 2 ^ 32) : TellsApart given body := by
  have numbered := numbered_of_handed handed room
  refine ⟨numbered.ids, fun _ _ _ _ => numbered.label_eq_iff, ?_, fun _ _ _ => numbered.fresh,
    numbered.newLabel_notMem, ?_⟩
  · intro token label hgiven
    exact resolve_fst_of_known ((numbered.labels token label).mpr hgiven)
  · intro hmem
    exact numbered.newLabel_notMem ((covers_of_handed handed).referenced hmem)

end MethodBody

end JavaClass
