import Mathlib.Data.List.Nodup
import JavaClass.Proofs.Assembly.Spelling
import JavaClass.Proofs.Event.Story
import JavaClass.Proofs.Event.Telling
import JavaClass.Proofs.Listing.Arrangement

/-!
# Telling the bodies of a class file

A code attribute shows an outline at the offsets where its instructions start.
Telling the attribute tells the arrangement of this outline, with a token for
each offset in the place of its position.
-/

namespace JavaClass

open Bytecode

/-- An entry of the exception table was read for a block whose labels are offsets. -/
structure HandlerRange.Shows (table : ConstantTable) (block : TryBlock Nat)
    (range : HandlerRange) : Prop where
  start : range.start = block.start
  stop : range.stop = block.stop
  handler : range.handler = block.handler
  exception : table.optionalClassName range.catchType = .ok block.exception

namespace BodyRecord

variable {table : ConstantTable} {bootstraps : Array Bootstrap} {body : BodyRecord} {o : Outline}

/-- The offsets where an instruction starts, and the end of the code. -/
def starts (body : BodyRecord) : List Nat :=
  body.instructions.map (·.1) ++ [body.length]

/-- The offset of a position. -/
def startAt (body : BodyRecord) (position : Nat) : Nat :=
  body.starts[position]?.getD 0

/-- The position of an offset. -/
def positionOf (body : BodyRecord) (offset : Nat) : Nat :=
  body.starts.idxOf offset

/-- The token for a position. -/
def tokenAt (body : BodyRecord) (position : Nat) : LabelToken :=
  token (body.startAt position)

/-- A code attribute was read for an outline whose positions are offsets. -/
structure Reads (table : ConstantTable) (bootstraps : Array Bootstrap) (body : BodyRecord)
    (o : Outline) : Prop where
  instructions : List.Forall₂ (fun i item => item.2.Tells table bootstraps i) o.instructions
    body.instructions
  handlers : List.Forall₂ (HandlerRange.Shows table) o.blocks body.handlers
  lines : body.lines = o.lines
  maxStack : body.maxStack = o.maxStack
  maxLocals : body.maxLocals = o.maxLocals

/-- A code attribute was read for an outline. -/
structure Shows (table : ConstantTable) (bootstraps : Array Bootstrap) (body : BodyRecord)
    (o : Outline) : Prop where
  sorted : body.starts.Pairwise (· < ·)
  small : body.length ≤ countLimit
  reads : body.Reads table bootstraps (o.map body.startAt)

theorem startAt_of_starts {before after : List Nat} {offset : Nat}
    (h : body.starts = before ++ offset :: after) : body.startAt before.length = offset := by
  simp [startAt, h]

theorem Shows.length_starts (shows : body.Shows table bootstraps o) :
    body.starts.length = o.instructions.length + 1 := by
  rw [starts, List.length_append, List.length_map, ← shows.reads.instructions.length_eq,
    List.length_singleton, Outline.map, List.length_map]

theorem startAt_eq_getElem {position : Nat} (h : position < body.starts.length) :
    body.startAt position = body.starts[position] := by
  rw [startAt, List.getElem?_eq_getElem h, Option.getD_some]

theorem startAt_mem {position : Nat} (h : position < body.starts.length) :
    body.startAt position ∈ body.starts := by
  rw [startAt_eq_getElem h]
  exact List.getElem_mem h

theorem le_length_of_mem_starts (sorted : body.starts.Pairwise (· < ·)) {offset : Nat}
    (h : offset ∈ body.starts) : offset ≤ body.length := by
  obtain h | h := List.mem_append.mp h
  · exact Nat.le_of_lt ((List.pairwise_append.mp sorted).2.2 _ h _ (List.mem_singleton_self _))
  · exact Nat.le_of_eq (List.mem_singleton.mp h)

/-- Different positions have different offsets. -/
theorem startAt_inj (sorted : body.starts.Pairwise (· < ·)) {first second : Nat}
    (hfirst : first < body.starts.length) (hsecond : second < body.starts.length)
    (h : body.startAt first = body.startAt second) : first = second := by
  rw [startAt_eq_getElem hfirst, startAt_eq_getElem hsecond] at h
  exact (List.Nodup.getElem_inj_iff (sorted.imp Nat.ne_of_lt)).mp h

theorem token_inj {first second : Nat} (hfirst : first ≤ countLimit) (hsecond : second ≤ countLimit)
    (h : token first = token second) : first = second := by
  simp only [countLimit] at hfirst hsecond
  have hid : UInt32.ofNat first = UInt32.ofNat second := congrArg LabelToken.id h
  have hnat := congrArg UInt32.toNat hid
  rwa [UInt32.toNat_ofNat_of_lt' (by change _ < 4294967296; omega),
    UInt32.toNat_ofNat_of_lt' (by change _ < 4294967296; omega)] at hnat

theorem Shows.lt_length_starts (shows : body.Shows table bootstraps o) (proper : o.Proper)
    {position : Nat} (h : position ∈ o.mentioned) : position < body.starts.length := by
  rw [shows.length_starts]
  exact Nat.lt_succ_of_le (proper.bound position h)

/-- Different positions have different tokens. -/
theorem Shows.tokenAt_injOn (shows : body.Shows table bootstraps o) (proper : o.Proper) :
    Set.InjOn body.tokenAt {position | position ∈ o.mentioned} := by
  intro first hfirst second hsecond h
  have hsmall {position : Nat} (hmem : position ∈ o.mentioned) :
      body.startAt position ≤ countLimit :=
    (le_length_of_mem_starts shows.sorted
      (startAt_mem (shows.lt_length_starts proper hmem))).trans shows.small
  exact startAt_inj shows.sorted (shows.lt_length_starts proper hfirst)
    (shows.lt_length_starts proper hsecond) (token_inj (hsmall hfirst) (hsmall hsecond) h)

theorem getD_linesByOffset (lines : List (Nat × UInt16)) (offset : Nat) :
    (linesByOffset lines).getD offset [] = (lines.filter (·.1 = offset)).map (·.2) := by
  induction lines with
  | nil => simp [linesByOffset]
  | cons line rest ih =>
      change ((linesByOffset rest).insert line.1
        (line.2 :: (linesByOffset rest).getD line.1 [])).getD offset [] = _
      rw [Std.TreeMap.getD_insert]
      by_cases heq : line.1 = offset
      · subst heq
        rw [if_pos Std.ReflCmp.compare_self, ih]
        simp
      · rw [if_neg (fun h => heq (Std.LawfulEqCmp.eq_of_compare h)), ih]
        simp [heq]

theorem Reads.mentioned (reads : body.Reads table bootstraps o) :
    body.mentioned = o.mentioned := by
  have hinstructions : body.instructions.flatMap (fun item => item.2.targets) =
      o.instructions.flatMap Instruction.targets := by
    have h := reads.instructions
    generalize o.instructions = is, body.instructions = items at h
    induction h with
    | nil => rfl
    | cons first _ ih => rw [List.flatMap_cons, List.flatMap_cons, ih, first.targets]
  have hhandlers : body.handlers.flatMap (fun h => [h.start, h.stop, h.handler]) =
      o.blocks.flatMap TryBlock.targets := by
    have h := reads.handlers
    generalize o.blocks = blocks, body.handlers = handlers at h
    induction h with
    | nil => rfl
    | cons first _ ih =>
        rw [List.flatMap_cons, List.flatMap_cons, ih, first.start, first.stop, first.handler]
        rfl
  rw [BodyRecord.mentioned, Outline.mentioned, hinstructions, hhandlers, reads.lines]

theorem Shows.mentioned (shows : body.Shows table bootstraps o) :
    body.mentioned = o.mentioned.map body.startAt := by
  rw [shows.reads.mentioned, Outline.mentioned_map]

/-- Instructions start wherever something refers to. -/
theorem Shows.placeable (shows : body.Shows table bootstraps o) (proper : o.Proper) :
    ∀ offset ∈ body.mentioned, offset ∈ body.starts := by
  rw [shows.mentioned]
  intro offset hoffset
  obtain ⟨position, hmem, rfl⟩ := List.mem_map.mp hoffset
  exact startAt_mem (shows.lt_length_starts proper hmem)

/-- The offset of a position is that of another position only if they are the same. -/
theorem Shows.startAt_eq_iff (shows : body.Shows table bootstraps o) (proper : o.Proper)
    {position other : Nat} (h : position ≤ o.instructions.length) (hother : other ∈ o.mentioned) :
    body.startAt other = body.startAt position ↔ other = position := by
  refine ⟨fun heq => ?_, fun heq => congrArg _ heq⟩
  apply startAt_inj shows.sorted (shows.lt_length_starts proper hother) _ heq
  · rw [shows.length_starts]
    exact Nat.lt_succ_of_le h

/-- The lines that the tables name for the offset of a position. -/
theorem Shows.lines_eq (shows : body.Shows table bootstraps o) (proper : o.Proper) {position : Nat}
    (h : position ≤ o.instructions.length) :
    (body.lines.filter (·.1 = body.startAt position)).map (·.2) = o.linesAt position := by
  rw [shows.reads.lines, Outline.map, List.filter_map, List.map_map, Outline.linesAt]
  congr 1
  refine List.filter_congr fun line hline => ?_
  have hline' : line.1 ∈ o.mentioned := List.mem_append_right _ (List.mem_map_of_mem hline)
  simp [shows.startAt_eq_iff proper h hline']

/-- The events for the marks of a position. -/
theorem Shows.place_eq (shows : body.Shows table bootstraps o) (proper : o.Proper)
    {position : Nat} (h : position ≤ o.instructions.length) :
    place (Std.TreeSet.ofList body.mentioned) (linesByOffset body.lines) (body.startAt position) =
      (o.marks position).map fun i => .instruction (i.map body.tokenAt) := by
  have hmem : body.startAt position ∈ body.mentioned ↔ position ∈ o.mentioned := by
    rw [shows.mentioned, List.mem_map]
    constructor
    · rintro ⟨other, hother, heq⟩
      rwa [← (shows.startAt_eq_iff proper h hother).mp heq]
    · intro hposition
      exact ⟨position, hposition, rfl⟩
  have hcontains : (Std.TreeSet.ofList body.mentioned).contains (body.startAt position) ↔
      position ∈ o.mentioned := by
    rw [Std.TreeSet.contains_ofList, List.contains_iff_mem, hmem]
  unfold place Outline.marks
  by_cases hmentioned : position ∈ o.mentioned
  · rw [if_pos (hcontains.mpr hmentioned), if_pos hmentioned, getD_linesByOffset,
      shows.lines_eq proper h, List.map_cons, List.map_map]
    rfl
  · rw [if_neg (mt hcontains.mp hmentioned), if_neg hmentioned, List.map_nil]

end BodyRecord

namespace ClassFile

open Transcript

variable {file : ClassFile} {bootstraps : Array Bootstrap} {body : BodyRecord} {o : Outline}
  {events : List Event}

theorem tellDecoded_eq_tell_iff {decoded : Decoded} :
    file.tellDecoded bootstraps decoded = Transcript.tell events ↔
      ∃ i, decoded.Tells file.constants bootstraps i ∧
        events = [.instruction (i.map BodyRecord.token)] := by
  cases decoded with
  | complete i =>
      constructor
      · intro h
        exact ⟨i, .complete i, (tell_inj h).symm⟩
      · rintro ⟨_, ⟨⟩, rfl⟩
        rfl
  | load slot =>
      rw [tellDecoded, withResult_eq_tell_iff]
      constructor
      · rintro ⟨literal, hliteral, h⟩
        exact ⟨_, .load hliteral, (tell_inj h).symm⟩
      · rintro ⟨_, ⟨⟩, rfl⟩
        rename_i literal hliteral
        exact ⟨literal, hliteral, rfl⟩
  | call site =>
      rw [tellDecoded]
      constructor
      · intro h
        split at h
        · cases congrArg Transcript.failure h
        · rename_i bootstrap hbootstrap
          obtain ⟨handle, hhandle, h⟩ := withResult_eq_tell_iff.mp h
          obtain ⟨arguments, harguments, h⟩ := withResult_eq_tell_iff.mp h
          exact ⟨_, .call hbootstrap hhandle harguments, (tell_inj h).symm⟩
      · rintro ⟨_, ⟨⟩, rfl⟩
        rename_i bootstrap handle arguments hhandle harguments hbootstrap
        rw [hbootstrap]
        simp only [hhandle, harguments, withResult]
        rfl

theorem tellHandler_eq_tell_iff {range : HandlerRange} :
    file.tellHandler range = Transcript.tell events ↔
      ∃ block, HandlerRange.Shows file.constants block range ∧
        events = [.tryBlock (block.map BodyRecord.token)] := by
  rw [tellHandler, withResult_eq_tell_iff]
  constructor
  · rintro ⟨exception, hexception, h⟩
    exact ⟨⟨range.start, range.stop, range.handler, exception⟩, ⟨rfl, rfl, rfl, hexception⟩,
      (tell_inj h).symm⟩
  · rintro ⟨block, shows, rfl⟩
    refine ⟨block.exception, shows.exception, ?_⟩
    rw [shows.start, shows.stop, shows.handler]

/-- The instructions from a position on, and the marks behind the last of them. -/
theorem tellInstructions_eq (shows : body.Shows file.constants bootstraps o) (proper : o.Proper)
    {is : List (Instruction Nat)} {items : List (Nat × Decoded)}
    (tells : List.Forall₂ (fun i item =>
      item.2.Tells file.constants bootstraps (i.map body.startAt)) is items)
    {before : List Nat} (hstarts : body.starts = before ++ (items.map (·.1) ++ [body.length])) :
    let place := BodyRecord.place (.ofList body.mentioned) (BodyRecord.linesByOffset body.lines)
    (concat (items.map fun (offset, decoded) =>
      (Transcript.tell (place offset)).andThen (file.tellDecoded bootstraps decoded))).andThen
        (Transcript.tell (place body.length)) =
      Transcript.tell
        ((o.arrangeFrom before.length is).map fun i => .instruction (i.map body.tokenAt)) := by
  intro place
  have hlength := shows.length_starts
  induction tells generalizing before with
  | nil =>
      have hend : body.startAt before.length = body.length := BodyRecord.startAt_of_starts hstarts
      have hposition : before.length ≤ o.instructions.length := by
        rw [hstarts] at hlength
        simp at hlength
        omega
      have hplace := shows.place_eq proper hposition
      rw [hend] at hplace
      rw [List.map_nil, Outline.arrangeFrom, ← hplace]
      rfl
  | @cons i item is items first _ ih =>
      obtain ⟨offset, decoded⟩ := item
      have hstart : body.startAt before.length = offset := BodyRecord.startAt_of_starts hstarts
      have hposition : before.length ≤ o.instructions.length := by
        rw [hstarts] at hlength
        simp at hlength
        omega
      have hplace := shows.place_eq proper hposition
      rw [hstart] at hplace
      have hrest : body.starts = (before ++ [offset]) ++ (items.map (·.1) ++ [body.length]) := by
        rw [hstarts, List.map_cons, List.cons_append, List.append_assoc, List.singleton_append]
      have htold : file.tellDecoded bootstraps decoded =
          Transcript.tell [.instruction (i.map body.tokenAt)] := by
        refine tellDecoded_eq_tell_iff.mpr ⟨_, first, ?_⟩
        rw [Instruction.map_map]
        rfl
      have hothers := ih hrest
      rw [List.length_append, List.length_singleton] at hothers
      rw [List.map_cons, concat_cons, andThen_assoc, hothers]
      change ((Transcript.tell (place offset)).andThen
        (file.tellDecoded bootstraps decoded)).andThen _ = _
      rw [htold, Outline.arrangeFrom, List.map_append, List.map_cons, ← hplace]
      simp [Transcript.tell, andThen, place]

/-- A body is told as the arrangement of the outline that it shows. -/
theorem tellBody_eq (shows : body.Shows file.constants bootstraps o) (proper : o.Proper) :
    file.tellBody bootstraps body = Transcript.tell (o.arrange.map body.tokenAt).events := by
  have hinstructions := tellInstructions_eq shows proper
    (List.forall₂_map_left_iff.mp shows.reads.instructions) (show body.starts = [] ++ _ from rfl)
  have hhandlers : concat (body.handlers.map file.tellHandler) =
      Transcript.tell ((o.blocks.map (·.map body.tokenAt)).map .tryBlock) := by
    rw [concat_eq_tell_iff]
    refine ⟨o.blocks.map fun block => [.tryBlock (block.map body.tokenAt)], ?_, ?_⟩
    · rw [List.forall₂_map_left_iff, List.forall₂_map_right_iff]
      refine (List.forall₂_map_left_iff.mp shows.reads.handlers).flip.imp fun range block h => ?_
      exact tellHandler_eq_tell_iff.mpr ⟨_, h, rfl⟩
    · rw [← List.flatMap_def, List.map_map, List.map_eq_flatMap]
      rfl
  unfold tellBody
  simp only
  rw [← andThen_assoc, hinstructions, hhandlers, shows.reads.maxStack,
    shows.reads.maxLocals]
  simp [Transcript.tell, andThen, Listing.events, Listing.map, Outline.arrange, Outline.map,
    Function.comp_def]

/-- A body that is told without a failure shows an outline, whose positions are found among the
offsets where instructions start. -/
theorem exists_shows (sorted : body.starts.Pairwise (· < ·)) (small : body.length ≤ countLimit)
    (placeable : ∀ offset ∈ body.mentioned, offset ∈ body.starts)
    (code : ∀ item ∈ body.instructions, ∀ i, item.2.Tells file.constants bootstraps i →
      i.isPseudo = false)
    (h : file.tellBody bootstraps body = Transcript.tell events) :
    ∃ o, body.Shows file.constants bootstraps o ∧ o.Proper := by
  obtain ⟨_, _, hinstructions, h, -⟩ := andThen_eq_tell_iff.mp h
  obtain ⟨_, _, -, h, -⟩ := andThen_eq_tell_iff.mp h
  obtain ⟨_, _, hhandlers, -, -⟩ := andThen_eq_tell_iff.mp h
  obtain ⟨is, his⟩ : ∃ is, List.Forall₂ (fun i (item : Nat × Decoded) =>
      item.2.Tells file.constants bootstraps i) is body.instructions := by
    refine exists_forall₂ fun item hitem => ?_
    obtain ⟨_, hpart⟩ := tell_of_concat hinstructions hitem
    obtain ⟨_, _, -, hdecoded, -⟩ := andThen_eq_tell_iff.mp hpart
    obtain ⟨i, hi, -⟩ := tellDecoded_eq_tell_iff.mp hdecoded
    exact ⟨i, hi⟩
  obtain ⟨blocks, hblocks⟩ : ∃ blocks, List.Forall₂ (HandlerRange.Shows file.constants)
      blocks body.handlers := by
    refine exists_forall₂ fun range hrange => ?_
    obtain ⟨_, hpart⟩ := tell_of_concat hhandlers hrange
    obtain ⟨block, hblock, -⟩ := tellHandler_eq_tell_iff.mp hpart
    exact ⟨block, hblock⟩
  have hreads : body.Reads file.constants bootstraps
      ⟨is, blocks, body.lines, body.maxStack, body.maxLocals⟩ := ⟨his, hblocks, rfl, rfl, rfl⟩
  generalize (⟨is, blocks, body.lines, body.maxStack, body.maxLocals⟩ : Outline) = found at hreads
  have hstarts : ∀ offset ∈ found.mentioned, offset ∈ body.starts := by
    rw [← hreads.mentioned]
    exact placeable
  have hback : (found.map body.positionOf).map body.startAt = found := by
    rw [Outline.map_map, Outline.map_eq_self]
    intro offset hoffset
    rw [Function.comp_apply, BodyRecord.startAt, BodyRecord.positionOf,
      List.getElem?_idxOf (hstarts offset hoffset), Option.getD_some]
  have hshows : body.Shows file.constants bootstraps (found.map body.positionOf) :=
    ⟨sorted, small, hback.symm ▸ hreads⟩
  refine ⟨_, hshows, ⟨fun i hi => ?_, fun position hposition => ?_⟩⟩
  · obtain ⟨source, hsource, rfl⟩ := List.mem_map.mp hi
    obtain ⟨item, hitem, htells⟩ := exists_right hreads.instructions hsource
    rw [Instruction.isPseudo_map]
    exact code item hitem source htells
  · rw [Outline.mentioned_map] at hposition
    obtain ⟨offset, hoffset, rfl⟩ := List.mem_map.mp hposition
    have hlt : body.positionOf offset < body.starts.length :=
      List.idxOf_lt_length_of_mem (hstarts offset hoffset)
    rw [hshows.length_starts] at hlt
    exact Nat.le_of_lt_succ hlt

end ClassFile

end JavaClass
