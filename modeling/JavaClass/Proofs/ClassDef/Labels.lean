import JavaClass.Proofs.ClassDef.Stability

/-!
# Labels of the code in a class file

The labels that a class file tells are the offsets that its code refers to. Each
of them has exactly one place, which is right before the instruction at that
offset or at the end of the code, and is followed by the lines that the tables
name for that offset. So the code of a decoded class refers to no label without
a place, and no label has two.

## Implementation notes

The record of a code attribute says what stands where in the file
(`ClassFile.ReadsBody`). What is stated here compares the events with that record
alone, without the positions of an outline.
-/

namespace JavaClass

open Bytecode

namespace BodyRecord

/-- The label of an offset, and the lines that the tables name for the offset, in their order. -/
def mark (body : BodyRecord) (offset : Nat) : List (Instruction LabelToken) :=
  .label (token offset) ::
    (body.lines.filter (·.1 = offset)).map fun line => .line line.2 (token offset)

/-- The mark of an offset stands in a list of instructions, right before the instruction that starts
at the offset or at the end of the code, and the label stands nowhere else. -/
def MarkedAt (body : BodyRecord) (instructions : List (Instruction LabelToken)) (offset : Nat) :
    Prop :=
  ∃ before after, instructions = before ++ (body.mark offset ++ after) ∧
    .label (token offset) ∉ before ∧ .label (token offset) ∉ after ∧
    (offset = body.length ∧ after = [] ∨
      ∃ decoded i rest, after = i :: rest ∧ i.isPseudo = false ∧
        body.instructions[(before.filter (!·.isPseudo)).length]? = some (offset, decoded))

/-- A listing tells the code of a record, with the offsets for labels. -/
structure ToldBy (table : ConstantTable) (bootstraps : Array Bootstrap) (body : BodyRecord)
    (listing : Listing LabelToken) : Prop where
  tokens : Set.InjOn token {offset | offset ∈ body.mentioned}
  labels : ∀ t, .label t ∈ listing.instructions ↔ ∃ offset ∈ body.mentioned, token offset = t
  marked : ∀ offset ∈ body.mentioned, body.MarkedAt listing.instructions offset
  lines : (listing.instructions.filterMap Instruction.line?).Perm
    (body.lines.map fun line => (token line.1, line.2))
  code : List.Forall₂ (fun i item => ∃ source, item.2.Tells table bootstraps source ∧
    i = source.map token) (listing.instructions.filter (!·.isPseudo)) body.instructions
  blocks : List.Forall₂ (fun block range => ∃ source, HandlerRange.Shows table source range ∧
    block = source.map token) listing.blocks body.handlers
  maxStack : listing.maxStack = body.maxStack
  maxLocals : listing.maxLocals = body.maxLocals

variable {table : ConstantTable} {bootstraps : Array Bootstrap} {body : BodyRecord} {o : Outline}

/-- A label of an arrangement stands there once, also when tokens stand for the positions. -/
theorem Shows.count_label (shows : body.Shows table bootstraps o) (proper : o.Proper)
    {position : Nat} (h : position ∈ o.mentioned) :
    (o.arrange.map body.tokenAt).instructions.count (.label (body.tokenAt position)) = 1 := by
  have hlabels : ∀ i ∈ o.arrange.instructions, ∀ label ∈ i.targets, label ∈ o.mentioned := by
    intro i hi label hlabel
    apply Outline.mem_mentioned_of_referenced
    exact List.mem_append_left _ (List.mem_flatMap.mpr ⟨i, hi, hlabel⟩)
  have hbound := proper.bound position h
  calc (o.arrange.map body.tokenAt).instructions.count (.label (body.tokenAt position))
    _ = o.arrange.instructions.count (.label position) :=
      Listing.count_label_map hlabels (shows.tokenAt_injOn proper) h
    _ = 1 := by
      unfold Outline.arrange
      rw [Outline.count_arrangeFrom proper.code h, if_pos (by omega)]

theorem Shows.mark_eq (shows : body.Shows table bootstraps o) (proper : o.Proper) {position : Nat}
    (h : position ∈ o.mentioned) :
    (o.marks position).map (·.map body.tokenAt) = body.mark (body.startAt position) := by
  rw [mark, Outline.marks, if_pos h, ← shows.lines_eq proper (proper.bound position h)]
  simp [Instruction.map, tokenAt, Function.comp_def]

/-- The end of the code is the position behind the last instruction. -/
theorem Shows.startAt_length (shows : body.Shows table bootstraps o) :
    body.startAt o.instructions.length = body.length := by
  have hlength := shows.reads.instructions.length_eq
  rw [Outline.map, List.length_map] at hlength
  rw [hlength, ← List.length_map Prod.fst]
  exact startAt_of_starts (show body.starts = _ ++ body.length :: [] from rfl)

/-- The instruction of a position stands at the offset of that position. -/
theorem Shows.exists_instruction (shows : body.Shows table bootstraps o) {position : Nat}
    {i : Instruction Nat} (h : o.instructions[position]? = some i) :
    ∃ decoded, body.instructions[position]? = some (body.startAt position, decoded) := by
  have hlength := shows.reads.instructions.length_eq
  rw [Outline.map, List.length_map] at hlength
  obtain ⟨hlt, -⟩ := List.getElem?_eq_some_iff.mp h
  rw [hlength] at hlt
  refine ⟨body.instructions[position].2, ?_⟩
  rw [startAt, starts, List.getElem?_append_left (by rwa [List.length_map]), List.getElem?_map,
    List.getElem?_eq_getElem hlt]
  rfl

theorem Shows.markedAt (shows : body.Shows table bootstraps o) (proper : o.Proper) {position : Nat}
    (h : position ∈ o.mentioned) :
    body.MarkedAt (o.arrange.map body.tokenAt).instructions (body.startAt position) := by
  have hbound := proper.bound position h
  obtain ⟨before, after, hcut, hbefore, hafter⟩ :=
    @Outline.exists_cut_arrangeFrom o _ proper.code 0 _ hbound
  rw [Nat.zero_add] at hcut
  have hcut' : (o.arrange.map body.tokenAt).instructions = before.map (·.map body.tokenAt) ++
      (body.mark (body.startAt position) ++ after.map (·.map body.tokenAt)) := by
    change (o.arrangeFrom 0 o.instructions).map _ = _
    rw [hcut, List.map_append, List.map_append, shows.mark_eq proper h]
  have hcount : ((before.map (·.map body.tokenAt)).filter (!·.isPseudo)).length = position := by
    rw [List.filter_map, List.length_map]
    simp only [Function.comp_def, Instruction.isPseudo_map]
    rw [hbefore, List.length_take_of_le hbound]
  have honce := shows.count_label proper h
  rw [tokenAt, hcut', mark, List.cons_append, List.count_append, List.count_cons_self,
    List.count_append] at honce
  refine ⟨_, _, hcut', List.count_eq_zero.mp (by omega), List.count_eq_zero.mp (by omega), ?_⟩
  rw [hcount]
  obtain ⟨rfl, rfl⟩ | ⟨i, rest, hi, rfl⟩ := hafter
  · exact .inl ⟨shows.startAt_length, rfl⟩
  · obtain ⟨decoded, hdecoded⟩ := shows.exists_instruction hi
    refine .inr ⟨decoded, _, _, rfl, ?_, hdecoded⟩
    rw [Instruction.isPseudo_map]
    exact proper.code i (List.mem_of_getElem? hi)

/-- A label stands in an arrangement only if something refers to its offset. -/
theorem Shows.label_mem_iff (shows : body.Shows table bootstraps o) (proper : o.Proper)
    (t : LabelToken) : .label t ∈ (o.arrange.map body.tokenAt).instructions ↔
      ∃ offset ∈ body.mentioned, token offset = t := by
  rw [shows.mentioned]
  constructor
  · intro ht
    obtain ⟨i, hi, hlabel⟩ := List.mem_map.mp ht
    obtain ⟨position, rfl, rfl⟩ := Listing.map_eq_label_iff.mp hlabel
    have hmem : position ∈ o.arrange.referenced :=
      List.mem_append_left _ (List.mem_flatMap.mpr ⟨_, hi, List.mem_singleton_self _⟩)
    exact ⟨_, List.mem_map_of_mem (Outline.mem_mentioned_of_referenced hmem), rfl⟩
  · rintro ⟨_, hoffset, rfl⟩
    obtain ⟨position, h, rfl⟩ := List.mem_map.mp hoffset
    apply List.count_pos_iff.mp
    rw [← tokenAt, shows.count_label proper h]
    exact Nat.one_pos

/-- A body that shows an outline is told by the arrangement of the outline. -/
theorem Shows.toldBy (shows : body.Shows table bootstraps o) (proper : o.Proper) :
    body.ToldBy table bootstraps (o.arrange.map body.tokenAt) where
  tokens := by
    intro first hfirst second hsecond h
    have hsmall {offset : Nat} (hoffset : offset ∈ body.mentioned) : offset ≤ countLimit :=
      (le_length_of_mem_starts shows.sorted (shows.placeable proper offset hoffset)).trans
        shows.small
    exact token_inj (hsmall hfirst) (hsmall hsecond) h
  labels := shows.label_mem_iff proper
  marked := by
    rw [shows.mentioned]
    intro offset hoffset
    obtain ⟨position, h, rfl⟩ := List.mem_map.mp hoffset
    exact shows.markedAt proper h
  lines := by
    have hperm := (Outline.perm_lines_arrange proper).map fun line =>
      (body.tokenAt line.1, line.2)
    rw [shows.reads.lines]
    simpa [Listing.map, Outline.map, List.filterMap_map, Function.comp_def, Instruction.line?_map,
      ← List.map_filterMap, tokenAt] using hperm
  code := by
    have hcode : (o.arrange.map body.tokenAt).instructions.filter (!·.isPseudo) =
        (o.map body.startAt).instructions.map (·.map token) := by
      rw [Listing.map, List.filter_map]
      simp only [Function.comp_def, Instruction.isPseudo_map, Outline.arrange]
      rw [Outline.filter_arrangeFrom proper.code, Outline.map, List.map_map]
      exact List.map_congr_left fun i _ => (Instruction.map_map ..).symm
    rw [hcode, List.forall₂_map_left_iff]
    exact shows.reads.instructions.imp fun i item tells => ⟨i, tells, rfl⟩
  blocks := by
    have hblocks : (o.arrange.map body.tokenAt).blocks =
        (o.map body.startAt).blocks.map (·.map token) := by
      rw [Outline.map, List.map_map]
      rfl
    rw [hblocks, List.forall₂_map_left_iff]
    exact shows.reads.handlers.imp fun block range shows => ⟨block, shows, rfl⟩
  maxStack := shows.reads.maxStack.symm
  maxLocals := shows.reads.maxLocals.symm

end BodyRecord

namespace ClassFile

variable {file : ClassFile} {bootstraps : Array Bootstrap} {member : MemberRange}

/-- The code of a method is told as its code attribute has it, or the method has none. -/
inductive TellsLabels (file : ClassFile) (bootstraps : Array Bootstrap) (member : MemberRange) :
    Option (Listing LabelToken) → Prop where
  | absent (missing : member.attributes.find? (·.name = "Code") = none) :
      TellsLabels file bootstraps member none
  | told {range : AttributeRange} {body : BodyRecord} {listing : Listing LabelToken}
      (found : member.attributes.find? (·.name = "Code") = some range)
      (reads : file.ReadsBody range body)
      (told : body.ToldBy file.constants bootstraps listing) :
      TellsLabels file bootstraps member (some listing)

theorem TellsCode.tellsLabels {code : Option (Listing LabelToken)}
    (tells : file.TellsCode bootstraps member code) : file.TellsLabels bootstraps member code := by
  cases tells with
  | absent missing => exact .absent missing
  | told found reads shows proper =>
      exact .told found (readBody_eq_ok_iff.mp reads) (shows.toldBy proper)

/-- A file tells each of its methods with its labels where the code attribute has them. -/
structure TellsPlaces (file : ClassFile) (extents : ClassLayout) (story : ClassStory) : Prop where
  layout : file.layout story.interfaces.length = .ok extents
  events : file.transcript = Transcript.tell story.events
  methods : List.Forall₂
    (fun method member => file.TellsLabels (file.bootstraps extents.attributes) member method.code)
    story.methods extents.methods

theorem Tells.tellsPlaces {extents : ClassLayout} {story : ClassStory}
    (tells : file.Tells extents story) : file.TellsPlaces extents story where
  layout := tells.layout
  events := transcript_eq_tell_iff.mpr ⟨extents, story, tells, rfl⟩
  methods := tells.methods.imp fun _ _ method => method.code.tellsLabels

/-- A file whose events were all received tells a story. -/
theorem exists_tells_of_deliver {σ : Type} {receive : Receiver σ} {s s' : σ}
    (h : receive.deliver file.transcript s = .ok () s') :
    ∃ extents story, file.Tells extents story := by
  obtain ⟨complete, -⟩ := Receiver.deliver_eq_ok_iff.mp h
  obtain ⟨extents, story, tells, -⟩ :=
    transcript_eq_tell_iff.mp (Transcript.eq_tell_of_failure complete)
  exact ⟨extents, story, tells⟩

end ClassFile

namespace ClassDef

variable {bytes : Bytes} {c : ClassDef}

/-- The code of a decoded class has one place for each of its labels. -/
theorem placed_of_decode (h : decode bytes = .ok c) {method : MethodDef}
    (hmethod : method ∈ c.methods.toList) : method.body.listing.Placed := by
  obtain ⟨file, extents, story, -, tells, builds⟩ := decode_eq_ok h
  obtain ⟨methodStory, hstory, hbuilds⟩ := exists_right builds.methods hmethod
  obtain ⟨member, -, hmember⟩ := exists_right tells.methods hstory
  obtain ⟨o, arranges, -⟩ := (hbuilds.regular hmember).code
  exact arranges.placed

/-- Whoever receives all events of a class file is told each method with exactly the labels that its
code attribute refers to, each once and where the attribute has it, with the lines and handlers in
the order of their tables. In a class that is decoded every label that is used has one place. -/
theorem labels_placed_as_read (bytes : Bytes) :
    (∀ (file : ClassFile) (σ : Type) (receive : Receiver σ) (s s' : σ),
      ClassFile.read bytes = .ok file → receive.deliver file.transcript s = .ok () s' →
        ∃ extents story, file.TellsPlaces extents story) ∧
    ∀ c, decode bytes = .ok c → ∀ method ∈ c.methods.toList,
      method.body.checkLabels = .ok () ∧ method.body.listing.Placed := by
  constructor
  · intro file σ receive s s' _ delivered
    obtain ⟨extents, story, tells⟩ := ClassFile.exists_tells_of_deliver delivered
    exact ⟨extents, story, tells.tellsPlaces⟩
  · intro c decoded method hmethod
    have placed := placed_of_decode decoded hmethod
    exact ⟨MethodBody.checkLabels_eq_ok_iff.mpr placed.closed, placed⟩

/-- A file with a jump to itself, a handler, and two line tables of which one names the end of the
code and the other an offset that was named before. -/
def loopFile : Bytes :=
  #[202, 254, 186, 190, 0, 0, 0, 65, 0, 7, 1, 0, 1, 65, 7, 0, 1, 1, 0, 1, 109, 1, 0, 3, 40, 41,
    86, 1, 0, 4, 67, 111, 100, 101, 1, 0, 15, 76, 105, 110, 101, 78, 117, 109, 98, 101, 114, 84,
    97, 98, 108, 101, 4, 32, 0, 2, 0, 0, 0, 0, 0, 0, 0, 1, 0, 8, 0, 3, 0, 4, 0, 1, 0, 5, 0, 0, 0,
    52, 0, 0, 0, 0, 0, 0, 0, 4, 167, 0, 0, 177, 0, 1, 0, 0, 0, 3, 0, 3, 0, 0, 0, 2, 0, 6, 0, 0, 0,
    10, 0, 2, 0, 0, 0, 5, 0, 4, 0, 9, 0, 6, 0, 0, 0, 6, 0, 1, 0, 0, 0, 7, 0, 0]

theorem labels_placed_as_read_loopFile :
    ∃ file c, ClassFile.read loopFile = .ok file ∧ decode loopFile = .ok c ∧
      (∃ extents story, file.TellsPlaces extents story) ∧
      ∀ method ∈ c.methods.toList, method.body.checkLabels = .ok () ∧
        method.body.listing.Placed := by
  have hrun : (decode loopFile).isOk = true := by decide +kernel
  cases decoded : decode loopFile with
  | error error =>
      rw [decoded] at hrun
      cases hrun
  | ok c =>
      obtain ⟨file, p, hread, -, delivered⟩ := exists_deliver_of_decode decoded
      have placed := labels_placed_as_read loopFile
      exact ⟨file, c, hread, rfl, placed.1 file _ _ _ p hread delivered, placed.2 c decoded⟩

end ClassDef

end JavaClass
