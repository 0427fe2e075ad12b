import JavaClass.Proofs.Bytecode.Decoded
import JavaClass.Proofs.ClassFile.Bodies

/-!
# Reading code attributes

What it means that a code attribute is read as a record, part by part.
-/

namespace JavaClass

open Bytecode

theorem BodyRecord.unplaceable_eq_nil_iff {body : BodyRecord} :
    body.unplaceable = [] ↔ ∀ offset ∈ body.mentioned, offset ∈ body.starts := by
  unfold unplaceable
  simp only [List.filter_eq_nil_iff, Std.TreeSet.contains_ofList, starts, List.mem_append,
    List.mem_singleton]
  refine forall₂_congr fun offset _ => ?_
  by_cases hstart : offset ∈ body.instructions.map (·.1)
  · simp [hstart]
  · simp [hstart]

theorem Bytecode.Decoded.Regular.tells {table : ConstantTable}
    {bootstraps : Array Bootstrap} {decoded : Decoded} {i : Instruction Nat}
    (regular : decoded.Regular) (h : decoded.Tells table bootstraps i) :
    i.isPseudo = false ∧ i.Documented := by
  cases h with
  | complete i => exact ⟨regular.1, regular.2.2⟩
  | load h => exact ⟨rfl, trivial⟩
  | call found method literals => exact ⟨rfl, trivial⟩

/-- A call is told for a bootstrap method. -/
theorem Bytecode.Decoded.Regular.tells_call {table : ConstantTable}
    {bootstraps : Array Bootstrap} {decoded : Decoded} {i : Instruction Nat}
    (regular : decoded.Regular) (h : decoded.Tells table bootstraps i) {call : BootstrapCall}
    (hcall : call ∈ i.calls) : ∃ entry ∈ bootstraps.toList,
      table.methodHandle entry.method = .ok call.1 ∧
        entry.arguments.mapM table.literal = .ok call.2 := by
  cases h with
  | complete i =>
      rw [regular.2.1] at hcall
      cases hcall
  | load h => cases hcall
  | call found method literals =>
      obtain rfl := List.mem_singleton.mp hcall
      exact ⟨_, Array.mem_toList_iff.mpr (Array.mem_of_getElem? found), method, literals⟩

theorem length_le_of_sorted {offsets : List Nat} {stop : Nat}
    (h : (offsets ++ [stop]).Pairwise (· < ·)) : offsets.length ≤ stop := by
  obtain ⟨hsorted, -, hstop⟩ := List.pairwise_append.mp h
  have hsubset : offsets ⊆ List.range stop := fun offset hoffset =>
    List.mem_range.mpr (hstop offset hoffset stop (List.mem_singleton_self _))
  have hle := List.Nodup.length_le_of_subset (hsorted.imp Nat.ne_of_lt) hsubset
  rwa [List.length_range] at hle

namespace ClassFile

variable {file : ClassFile} {range : AttributeRange} {body : BodyRecord}

/-- The code array of a code attribute. -/
def window (file : ClassFile) (range : AttributeRange) (length : Nat) : Window :=
  ⟨file.bytes, file.constants, range.start + 8, length⟩

/-- The lines of a body stand in the tables among the attributes from an index on. -/
def ReadsLines (file : ClassFile) (window : Window) (index : Nat) (lines : List (Nat × UInt16)) :
    Prop :=
  ∃ attributes stop parts, file.readAttributes index = .ok (attributes, stop) ∧
    (attributes.filter (·.name = "LineNumberTable")).mapM (file.readLines window) = .ok parts ∧
      lines = parts.flatten

/-- A code attribute is read as a record. -/
structure ReadsBody (file : ClassFile) (range : AttributeRange) (body : BodyRecord) : Prop where
  maxStack : file.bytes.u16 range.start = .ok body.maxStack
  maxLocals : file.bytes.u16 (range.start + 2) = .ok body.maxLocals
  length : ∃ n, file.bytes.u32 (range.start + 4) = .ok n ∧ n.toNat = body.length
  small : body.length ≤ countLimit
  room : 8 + body.length ≤ range.length
  instructions : (file.window range body.length).decodeAll = .ok body.instructions
  tables : ∃ count, file.bytes.u16 (range.start + 8 + body.length) = .ok count ∧
    readEach (file.readHandler (file.window range body.length)) 8
      (range.start + 8 + body.length + 2) count.toNat = .ok body.handlers ∧
    file.ReadsLines (file.window range body.length)
      (range.start + 8 + body.length + 2 + 8 * count.toNat) body.lines
  placeable : ∀ offset ∈ body.mentioned, offset ∈ body.starts

theorem readBody_eq_ok_iff : file.readBody range = .ok body ↔ file.ReadsBody range body := by
  unfold readBody
  simp only [exceptBind_eq_ok_iff]
  constructor
  · rintro ⟨maxStack, hstack, maxLocals, hlocals, n, hlength, h⟩
    split at h
    · cases h
    · rename_i hbounds
      obtain ⟨instructions, hinstructions, h⟩ := exceptBind_eq_ok_iff.mp h
      obtain ⟨count, hcount, h⟩ := exceptBind_eq_ok_iff.mp h
      obtain ⟨handlers, hhandlers, h⟩ := exceptBind_eq_ok_iff.mp h
      obtain ⟨⟨attributes, stop⟩, hattributes, h⟩ := exceptBind_eq_ok_iff.mp h
      obtain ⟨parts, hlines, h⟩ := exceptBind_eq_ok_iff.mp h
      split at h
      · cases h
      · rename_i hplaceable
        obtain rfl := Except.ok.inj h
        rw [not_or, Nat.not_lt, Nat.not_lt] at hbounds
        refine ⟨hstack, hlocals, ⟨n, hlength, rfl⟩, hbounds.1, by simp only; omega, hinstructions,
          ⟨count, hcount, hhandlers, attributes, stop, parts, hattributes, hlines, rfl⟩, ?_⟩
        rw [← BodyRecord.unplaceable_eq_nil_iff, ← List.min?_eq_none_iff, hplaceable]
  · intro reads
    obtain ⟨n, hlength, hn⟩ := reads.length
    obtain ⟨count, hcount, hhandlers, attributes, stop, parts, hattributes, hparts, hlines⟩ :=
      reads.tables
    have hplaceable : body.unplaceable.min? = none := by
      rw [List.min?_eq_none_iff, BodyRecord.unplaceable_eq_nil_iff]
      exact reads.placeable
    refine ⟨_, reads.maxStack, _, reads.maxLocals, n, hlength, ?_⟩
    have hsmall := reads.small
    have hroom := reads.room
    have hinstructions := reads.instructions
    unfold window at hinstructions hhandlers hparts
    rw [hn, if_neg (by omega), hinstructions]
    simp only [bind, Except.bind, hcount, hhandlers, hattributes, hparts, ← hlines, hplaceable]
    rfl

theorem length_of_readLines {window : Window} {lines : List (Nat × UInt16)}
    (h : file.readLines window range = .ok lines) : lines.length ≤ 65535 := by
  unfold readLines at h
  obtain ⟨count, -, h⟩ := exceptBind_eq_ok_iff.mp h
  have hlength := length_of_readEach h
  have hlt := count.toNat_lt
  omega

theorem ReadsLines.length_le {window : Window} {index : Nat} {lines : List (Nat × UInt16)}
    (h : file.ReadsLines window index lines) : lines.length ≤ 65535 * 65535 := by
  obtain ⟨attributes, stop, parts, hattributes, hparts, rfl⟩ := h
  have hforall := mapM_eq_ok_iff.mp hparts
  have hcount : parts.length ≤ 65535 := by
    rw [← hforall.length_eq]
    exact (List.length_filter_le _ _).trans (length_of_readCounted hattributes)
  have hpart : ∀ part ∈ parts, part.length ≤ 65535 := by
    intro part hpart
    obtain ⟨range, -, hrange⟩ := exists_left hforall hpart
    exact length_of_readLines hrange
  have hflatten : parts.flatten.length ≤ 65535 * parts.length := by
    clear hparts hforall hcount
    induction parts with
    | nil => simp
    | cons part parts ih =>
        have hfirst := hpart part List.mem_cons_self
        have hrest := ih fun other hother => hpart other (List.mem_cons_of_mem _ hother)
        rw [List.flatten_cons, List.length_append, List.length_cons]
        omega
  omega

/-- The offsets of a body rise, and all of its instructions are regular. -/
theorem ReadsBody.sorted (reads : file.ReadsBody range body) :
    body.starts.Pairwise (· < ·) ∧ ∀ item ∈ body.instructions, item.2.Regular := by
  obtain ⟨more, hmore, hsorted, -, hregular⟩ := Window.decodeFrom_eq_ok reads.instructions
  rw [List.reverse_nil, List.nil_append] at hmore
  rw [BodyRecord.starts, hmore]
  exact ⟨hsorted, hregular⟩

/-- A body refers to no more lines than all of its tables together can have. -/
theorem ReadsBody.lines_le (reads : file.ReadsBody range body) :
    body.lines.length ≤ 65535 * 65535 := by
  obtain ⟨count, -, -, hlines⟩ := reads.tables
  exact hlines.length_le

/-- The outline of a body is told in an arrangement. -/
theorem ReadsBody.arranged (reads : file.ReadsBody range body) {table : ConstantTable}
    {bootstraps : Array Bootstrap} {o : Outline} (shows : body.Shows table bootstraps o)
    (proper : o.Proper) : (o.arrange.map body.tokenAt).Arranged o where
  proper := proper
  tokens := ⟨body.tokenAt, shows.tokenAt_injOn proper, fun position h => by
    have hlt : position < body.starts.length := by
      rw [shows.length_starts]
      exact Nat.lt_succ_of_le (proper.bound position h)
    have hle := (BodyRecord.le_length_of_mem_starts shows.sorted
      (BodyRecord.startAt_mem hlt)).trans shows.small
    rw [BodyRecord.tokenAt, BodyRecord.token]
    simp only [countLimit] at hle
    rw [UInt32.toNat_ofNat_of_lt' (by change _ < 4294967296; omega)]
    exact hle, rfl⟩
  length_le := by
    have hlines := reads.lines_le
    have hcount : o.instructions.length ≤ body.length := by
      have hle := length_le_of_sorted shows.sorted
      have hlength := shows.reads.instructions.length_eq
      rw [Outline.map, List.length_map] at hlength
      rwa [List.length_map, ← hlength] at hle
    have hsmall := shows.small
    have harrange := o.length_arrange_le
    rw [shows.reads.lines, Outline.map, List.length_map] at hlines
    simp only [countLimit] at hsmall
    rw [Listing.map, List.length_map]
    omega

end ClassFile

end JavaClass
