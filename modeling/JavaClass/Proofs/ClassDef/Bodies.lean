import JavaClass.ClassDef.Partial
import JavaClass.Proofs.Body.Edits
import JavaClass.Proofs.Listing.Basic

/-!
# Bodies that are built from events

A body that receives instructions and entries of an exception table holds the
listing that was told, with its own labels in the place of tokens. Labels are
numbered in the order in which their tokens were met first.

## Implementation notes

The tokens met so far are kept as a list without repetitions, in which the
number of a label is the index of its token. The list only grows at its end, so
labels that were given out stay as they are. There are no more tokens than 32
bits can tell apart, so no number comes up twice.
-/

namespace JavaClass

/-- No code. -/
def Listing.blank {α : Type} : Listing α :=
  ⟨[], [], 0, 0⟩

section

variable {α β : Type} {listing : Listing α} {i : Instruction α}

theorem Listing.map_append_instruction (f : α → β) :
    ({ listing with instructions := listing.instructions ++ [i] } : Listing α).map f =
      { listing.map f with instructions := (listing.map f).instructions ++ [i.map f] } := by
  simp [Listing.map]

theorem Listing.mem_referenced_append {label : α}
    (h : label ∈ ({ listing with instructions := listing.instructions ++ [i] } :
      Listing α).referenced) : label ∈ listing.referenced ∨ label ∈ i.targets := by
  simp only [Listing.referenced, List.flatMap_append, List.flatMap_singleton, List.mem_append] at h
  simp only [Listing.referenced, List.mem_append]
  obtain (h | h) | h := h
  · exact .inl (.inl h)
  · exact .inr h
  · exact .inl (.inr h)

end

namespace MethodBody

variable {body : MethodBody}

/-- The listing of a body. -/
def listing (body : MethodBody) : Listing Label :=
  ⟨body.instructions, body.tryBlocks.toList, body.maxStack, body.maxLocals⟩

/-- The label for a token, given the tokens in the order in which they were met. -/
def labelOf (known : List LabelToken) (token : LabelToken) : Label :=
  ⟨UInt32.ofNat (known.idxOf token)⟩

/-- The tokens met so far, after one more. -/
def meet (known : List LabelToken) (token : LabelToken) : List LabelToken :=
  if token ∈ known then known else known ++ [token]

/-- A body was built for a listing and has met these tokens. -/
structure Built (body : MethodBody) (known : List LabelToken) (listing : Listing LabelToken) :
    Prop where
  chain : ∃ order, body.Chain order
  free : body.free = []
  slotCount : body.slots.size = listing.instructions.length
  holds : body.listing = listing.map (labelOf known)
  nodup : known.Nodup
  met : ∀ token ∈ listing.referenced, token ∈ known
  labels : ∀ token, body.labels[token]? =
    if token ∈ known then some (labelOf known token) else none
  labelCount : body.labelCount = UInt32.ofNat known.length

/-- There are no more different words than 32 bits can tell apart. -/
theorem length_words_le {words : List UInt32} (nodup : words.Nodup) : words.length ≤ 2 ^ 32 := by
  have hnodup : (words.map UInt32.toNat).Nodup :=
    nodup.map fun first second h => UInt32.toNat_inj.mp h
  have hsubset : words.map UInt32.toNat ⊆ List.range (2 ^ 32) := by
    intro n hn
    obtain ⟨word, -, rfl⟩ := List.mem_map.mp hn
    exact List.mem_range.mpr word.toNat_lt
  have hle := hnodup.length_le_of_subset hsubset
  rwa [List.length_map, List.length_range] at hle

theorem length_tokens_le {known : List LabelToken} (nodup : known.Nodup) :
    known.length ≤ 2 ^ 32 := by
  have hnodup : (known.map LabelToken.id).Nodup := by
    refine nodup.map fun first second hid => ?_
    cases first
    cases second
    cases hid
    rfl
  have hle := length_words_le hnodup
  rwa [List.length_map] at hle

/-- Different tokens get different labels. -/
theorem labelOf_injOn {known : List LabelToken} (nodup : known.Nodup) :
    Set.InjOn (labelOf known) {token | token ∈ known} := by
  intro first hfirst second hsecond h
  have hbound := length_tokens_le nodup
  have hlt := List.idxOf_lt_length_of_mem hfirst
  have hlt' := List.idxOf_lt_length_of_mem hsecond
  have hid : UInt32.ofNat (known.idxOf first) = UInt32.ofNat (known.idxOf second) :=
    congrArg Label.id h
  have hnat := congrArg UInt32.toNat hid
  rw [UInt32.toNat_ofNat_of_lt' (by change _ < 4294967296; omega),
    UInt32.toNat_ofNat_of_lt' (by change _ < 4294967296; omega)] at hnat
  exact (List.idxOf_inj hfirst).mp hnat

theorem labelOf_prefix {known more : List LabelToken} {token : LabelToken} (h : token ∈ known) :
    labelOf (known ++ more) token = labelOf known token := by
  rw [labelOf, labelOf, List.idxOf_append_of_mem h]

theorem mem_meet_iff {known : List LabelToken} {token other : LabelToken} :
    other ∈ meet known token ↔ other ∈ known ∨ other = token := by
  unfold meet
  split
  · rename_i hmem
    constructor
    · exact .inl
    · rintro (hother | rfl)
      · exact hother
      · exact hmem
  · rw [List.mem_append, List.mem_singleton]

theorem mem_foldl_meet_iff {known tokens : List LabelToken} {other : LabelToken} :
    other ∈ tokens.foldl meet known ↔ other ∈ known ∨ other ∈ tokens := by
  induction tokens generalizing known with
  | nil => simp
  | cons token tokens ih =>
      rw [List.foldl_cons, ih, mem_meet_iff, List.mem_cons, or_assoc]

theorem nodup_meet {known : List LabelToken} (nodup : known.Nodup) (token : LabelToken) :
    (meet known token).Nodup := by
  unfold meet
  split
  · exact nodup
  · rename_i hmem
    refine List.nodup_append.mpr ⟨nodup, List.nodup_singleton _, ?_⟩
    rintro other hother new hnew rfl
    exact hmem (List.mem_singleton.mp hnew ▸ hother)

theorem nodup_foldl_meet {known : List LabelToken} (nodup : known.Nodup)
    (tokens : List LabelToken) : (tokens.foldl meet known).Nodup := by
  induction tokens generalizing known with
  | nil => exact nodup
  | cons token tokens ih => exact ih (nodup_meet nodup token)

/-- A body that meets a token knows its label from then on. -/
theorem Built.resolve {known : List LabelToken} {listing : Listing LabelToken}
    (built : body.Built known listing) (token : LabelToken) :
    (body.resolve token).2.Built (meet known token) listing := by
  have hlabel := built.labels token
  have hnodup := nodup_meet built.nodup token
  unfold meet at hnodup ⊢
  by_cases hmem : token ∈ known
  · rw [if_pos hmem] at hlabel ⊢
    rw [MethodBody.resolve, hlabel]
    exact built
  · rw [if_neg hmem] at hlabel hnodup ⊢
    obtain ⟨same, hid⟩ := @sameList_resolve body token
    obtain ⟨order, chain⟩ := built.chain
    have hlist := same.toList_eq hid
    have hnew : labelOf (known ++ [token]) token = ⟨body.labelCount⟩ := by
      rw [labelOf, List.idxOf_append_of_notMem hmem, List.idxOf_cons_self, Nat.add_zero,
        built.labelCount]
    have hmap : listing.map (labelOf (known ++ [token])) = listing.map (labelOf known) :=
      Listing.map_congr fun other hother => labelOf_prefix (built.met other hother)
    rw [MethodBody.resolve, hlabel] at same hlist ⊢
    refine ⟨⟨order, chain.of_sameList same⟩, built.free, built.slotCount, ?_, hnodup, ?_, ?_, ?_⟩
    · rw [hmap, ← built.holds, MethodBody.listing, instructions, hlist]
      rfl
    · intro other hother
      exact List.mem_append_left _ (built.met other hother)
    · intro other
      simp only [newLabel, Std.TreeMap.getElem?_insert, Std.compare_eq_iff_eq, built.labels other]
      by_cases heq : token = other
      · subst heq
        rw [if_pos rfl, if_pos (by simp), hnew]
      · rw [if_neg heq]
        by_cases hother : other ∈ known
        · rw [if_pos hother, if_pos (List.mem_append_left _ hother), labelOf_prefix hother]
        · rw [if_neg hother, if_neg (by simp [hother, Ne.symm heq])]
    · simp only [newLabel, built.labelCount, List.length_append, List.length_singleton,
        UInt32.ofNat_add]
      rfl

theorem foldl_resolve_snd (tokens : List LabelToken) (labels : List Label) (body : MethodBody) :
    (tokens.foldl (fun (labels, body) token =>
      let (label, body) := body.resolve token
      (label :: labels, body)) (labels, body)).2 =
        tokens.foldl (fun body token => (body.resolve token).2) body := by
  induction tokens generalizing labels body with
  | nil => rfl
  | cons token tokens ih => exact ih _ _

theorem resolveAll_snd (tokens : List LabelToken) :
    (body.resolveAll tokens).2 = tokens.foldl (fun body token => (body.resolve token).2) body :=
  foldl_resolve_snd tokens [] body

/-- A body that meets tokens knows their labels from then on. -/
theorem Built.resolveAll {known : List LabelToken} {listing : Listing LabelToken}
    (built : body.Built known listing) (tokens : List LabelToken) :
    (body.resolveAll tokens).2.Built (tokens.foldl meet known) listing := by
  rw [resolveAll_snd]
  induction tokens generalizing body known with
  | nil => exact built
  | cons token tokens ih => exact ih (built.resolve token)

theorem Built.resolve_fst {known : List LabelToken} {listing : Listing LabelToken}
    (built : body.Built known listing) {token : LabelToken} (h : token ∈ known) :
    (body.resolve token).1 = labelOf known token := by
  have hlabel := built.labels token
  rw [if_pos h] at hlabel
  exact resolve_fst_of_known hlabel

theorem free_relink (before after next previous : Option UInt32) :
    (body.relink before after next previous).free = body.free := by
  unfold relink linkBefore
  split <;> unfold linkAfter <;> split <;> rfl

theorem free_append (i : Instruction Label) : (body.append i).2.free = body.free.tail := by
  calc (body.append i).2.free
      = ((body.withNode i body.last none).relink body.last none (some body.nextSlot)
          (some body.nextSlot)).free := by
        rw [append, insertBetween_snd]
        rfl
    _ = (body.withNode i body.last none).free := free_relink ..
    _ = body.free.tail := (withNode_fields ..).2.1

theorem ListStep.append_eq {entries entries' : List Entry} {i : Instruction Label}
    {answer : Except Error Answer} (step : ListStep entries (.append i) answer entries') :
    entries'.map (·.2) = entries.map (·.2) ++ [i] := by
  cases step with
  | append i fresh => simp

/-- The body of an instruction that was told. -/
theorem Built.addInstruction {known : List LabelToken} {listing : Listing LabelToken}
    (built : body.Built known listing) (room : listing.instructions.length < 2 ^ 32)
    (i : Instruction LabelToken) :
    (PartialClass.addInstruction body i).Built (i.targets.foldl meet known)
      { listing with instructions := listing.instructions ++ [i] } := by
  have built' := built.resolveAll i.targets
  have hmore : ∀ token ∈ i.targets, token ∈ i.targets.foldl meet known :=
    fun token htoken => mem_foldl_meet_iff.mpr (.inr htoken)
  unfold PartialClass.addInstruction
  generalize (body.resolveAll i.targets).2 = body at built'
  generalize i.targets.foldl meet known = known at hmore built' ⊢
  have hmap : i.map (fun token => (body.resolve token).1) = i.map (labelOf known) :=
    Instruction.map_congr fun token htoken => built'.resolve_fst (hmore token htoken)
  simp only [hmap]
  obtain ⟨order, chain⟩ := built'.chain
  have same := @sameTables_append body (i.map (labelOf known))
  have hsize : (body.append (i.map (labelOf known))).2.slots.size =
      listing.instructions.length + 1 := by
    rw [append, slotCount_insertBetween, grownSize, if_pos built'.free, built'.slotCount]
  obtain ⟨hchain, hstep⟩ := chain.follows_append (i.map (labelOf known)) (by omega)
  refine ⟨hchain, ?_, ?_, ?_, built'.nodup, ?_, ?_, ?_⟩
  · rw [free_append, built'.free]
    rfl
  · rw [hsize, List.length_append, List.length_singleton]
  · have hinstructions : (body.append (i.map (labelOf known))).2.instructions =
        body.instructions ++ [i.map (labelOf known)] := hstep.append_eq
    rw [Listing.map_append_instruction, ← built'.holds]
    simp only [MethodBody.listing, hinstructions, same.tryBlocks, same.maxStack, same.maxLocals]
  · intro token htoken
    obtain htoken | htoken := Listing.mem_referenced_append htoken
    · exact built'.met token htoken
    · exact hmore token htoken
  · rw [same.labels]
    exact built'.labels
  · rw [same.labelCount]
    exact built'.labelCount

/-- The entry of an exception table that was told. -/
theorem Built.addTryBlock {known : List LabelToken} {listing : Listing LabelToken}
    (built : body.Built known listing) (block : TryBlock LabelToken) :
    (PartialClass.addTryBlock body block).Built (block.targets.foldl meet known)
      { listing with blocks := listing.blocks ++ [block] } := by
  have built' := built.resolveAll block.targets
  have hmore : ∀ token ∈ block.targets, token ∈ block.targets.foldl meet known :=
    fun token htoken => mem_foldl_meet_iff.mpr (.inr htoken)
  unfold PartialClass.addTryBlock
  generalize (body.resolveAll block.targets).2 = body at built'
  generalize block.targets.foldl meet known = known at hmore built' ⊢
  have hmap : block.map (fun token => (body.resolve token).1) = block.map (labelOf known) :=
    TryBlock.map_congr fun token htoken => built'.resolve_fst (hmore token htoken)
  simp only [hmap]
  obtain ⟨order, chain⟩ := built'.chain
  have same : body.SameList (body.addTryBlock (block.map (labelOf known))) :=
    ⟨rfl, rfl, rfl, rfl, rfl⟩
  have hlist := same.toList_eq rfl
  refine ⟨⟨order, chain.of_sameList same⟩, built'.free, built'.slotCount, ?_, built'.nodup, ?_,
    built'.labels, built'.labelCount⟩
  · have hholds := built'.holds
    simp only [MethodBody.listing, Listing.map, instructions, Listing.mk.injEq] at hholds ⊢
    refine ⟨(congrArg (List.map (·.2)) hlist).trans hholds.1, ?_, hholds.2.2⟩
    simp [MethodBody.addTryBlock, hholds.2.1]
  · intro token htoken
    simp only [Listing.referenced, List.flatMap_append, List.flatMap_singleton,
      ← List.append_assoc, List.mem_append (s := _ ++ _)] at htoken
    obtain htoken | htoken := htoken
    · exact built'.met token htoken
    · exact hmore token htoken

theorem Built.sized {known : List LabelToken} {listing : Listing LabelToken}
    (built : body.Built known listing) (maxStack maxLocals : UInt16) :
    ({ body with maxStack, maxLocals } : MethodBody).Built known
      { listing with maxStack, maxLocals } := by
  obtain ⟨order, chain⟩ := built.chain
  have same : body.SameList { body with maxStack, maxLocals } := ⟨rfl, rfl, rfl, rfl, rfl⟩
  have hlist := same.toList_eq rfl
  refine ⟨⟨order, chain.of_sameList same⟩, built.free, built.slotCount, ?_, built.nodup, built.met,
    built.labels, built.labelCount⟩
  have hholds := built.holds
  simp only [MethodBody.listing, Listing.map, instructions, Listing.mk.injEq, and_true] at hholds ⊢
  exact ⟨(congrArg (List.map (·.2)) hlist).trans hholds.1, hholds.2.1⟩

theorem built_empty (id : UInt32) : (empty id).Built [] .blank where
  chain := ⟨[], chain_empty id⟩
  free := rfl
  slotCount := rfl
  holds := rfl
  nodup := List.nodup_nil
  met := by simp [Listing.blank, Listing.referenced]
  labels := by simp [empty]
  labelCount := rfl

/-- A body without instructions was built for a listing without instructions. -/
theorem Built.isEmpty_iff {known : List LabelToken} {listing : Listing LabelToken}
    (built : body.Built known listing) :
    body.isEmpty = true ↔ listing.instructions = [] := by
  obtain ⟨order, chain⟩ := built.chain
  have hlength : body.size = listing.instructions.length := by
    have hinstructions := congrArg (·.instructions.length) built.holds
    simp only [MethodBody.listing, instructions, chain.toList_eq, Listing.map,
      List.length_map] at hinstructions
    rw [chain.size, hinstructions]
  rw [isEmpty, beq_iff_eq, hlength, List.length_eq_zero_iff]

end MethodBody

end JavaClass
