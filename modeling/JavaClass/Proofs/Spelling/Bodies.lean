import JavaClass.Proofs.Assembly.Reading
import JavaClass.Proofs.Spelling.Instructions

/-!
# Spellings of code

A body is spelled by choosing a spelling for each instruction, slots for the
exceptions that it handles, and attributes among which its lines are spread. All
offsets in the code and in its tables follow from these choices, and what is read
from a code attribute with these contents shows the body.
-/

namespace JavaClass

open BigEndian Bytecode

/-- An attribute of code. -/
inductive CodeAttribute where
  /-- A line number table, whose lines start at positions. -/
  | lines (name : UInt16) (entries : List (Nat × UInt16))
  /-- An attribute that does not matter to the body. -/
  | other (skipped : EncodedAttribute)
  deriving DecidableEq, Repr

namespace CodeAttribute

/-- The lines that an attribute adds. -/
def entries : CodeAttribute → List (Nat × UInt16)
  | lines _ entries => entries
  | other _ => []

/-- The attribute as it is written, given the offset of each position. -/
def encoded (offset : Nat → Nat) : CodeAttribute → EncodedAttribute
  | lines name entries =>
      ⟨name, ofNat 2 entries.length ++
        ((entries.map fun line => (offset line.1, line.2)).map lineBytes).flatten⟩
  | other skipped => skipped

/-- Line number tables and only these are named so. -/
inductive Named (table : ConstantTable) : CodeAttribute → Prop where
  | lines {name entries} (found : table.text name = .ok "LineNumberTable")
      (few : entries.length ≤ countLimit) : Named table (lines name entries)
  | other {skipped name} (found : table.text skipped.name = .ok name)
      (differs : name ≠ "LineNumberTable") (small : skipped.contents.length < 2 ^ 32) :
      Named table (other skipped)

end CodeAttribute

/-- The choices that are made when a body is written. -/
structure BodySpelling where
  code : List Spelling
  /-- The slots of the exceptions that are handled. -/
  catchTypes : List UInt16
  attributes : List CodeAttribute
  deriving DecidableEq, Repr

namespace BodySpelling

/-- The offset of a position. -/
def offset (body : BodySpelling) (position : Nat) : Nat :=
  Spelling.offsetIn body.code position

/-- The end of the code. -/
def length (body : BodySpelling) : Nat :=
  Spelling.stopFrom 0 body.code

theorem offset_le (body : BodySpelling) (position : Nat) : body.offset position ≤ body.length :=
  Spelling.offsetIn_le body.code position

/-- The entries of the exception table. -/
def ranges (body : BodySpelling) (o : Outline) : List HandlerRange :=
  List.zipWith (fun block slot => ⟨body.offset block.start, body.offset block.stop,
    body.offset block.handler, slot⟩) o.blocks body.catchTypes

/-- The contents of the code attribute of a body. -/
def contents (body : BodySpelling) (o : Outline) : List UInt8 :=
  u16 o.maxStack ++ u16 o.maxLocals ++
    encodeBlock (Spelling.bytesFrom body.offset 0 body.code) ++
    (ofNat 2 o.blocks.length ++ ((body.ranges o).map HandlerRange.encode).flatten) ++
    (ofNat 2 body.attributes.length ++
      (body.attributes.map fun a => (a.encoded body.offset).encode).flatten)

end BodySpelling

/-- A spelling of a body, whose labels are positions. -/
structure Outline.SpelledAs (table : ConstantTable) (bootstraps : Array Bootstrap) (o : Outline)
    (body : BodySpelling) : Prop where
  code : List.Forall₂ (Instruction.SpelledAs table bootstraps) o.instructions body.code
  bound : ∀ position ∈ o.mentioned, position ≤ o.instructions.length
  length_le : body.length ≤ countLimit
  reach : Spelling.ReachFrom body.offset 0 body.code
  catchTypes : List.Forall₂ (fun block slot => table.optionalClassName slot = .ok block.exception)
    o.blocks body.catchTypes
  blocks_le : o.blocks.length ≤ countLimit
  lines : body.attributes.flatMap CodeAttribute.entries = o.lines
  attributes : ∀ a ∈ body.attributes, a.Named table
  attributes_le : body.attributes.length ≤ countLimit

theorem length_lineTable (lines : List (Nat × UInt16)) :
    (lines.map lineBytes).flatten.length = 4 * lines.length := by
  rw [← List.length_map lineBytes]
  apply length_flatten_of_width
  exact List.forall_mem_map.mpr fun line _ => by simp [lineBytes, u16]

section Reading

variable {file : ClassFile} {window : Window} {bootstraps : Array Bootstrap} {o : Outline}
  {body : BodySpelling} {index : Nat}

namespace CodeAttribute

variable {a : CodeAttribute} {offset : Nat → Nat}

theorem Named.readable {table : ConstantTable} (named : a.Named table) (offset : Nat → Nat) :
    (a.encoded offset).Readable table := by
  cases named with
  | lines found few =>
      refine ⟨⟨_, found⟩, ?_⟩
      simp only [countLimit] at few
      simp only [encoded, List.length_append, length_ofNat, length_lineTable, List.length_map]
      omega
  | other found differs small => exact ⟨⟨_, found⟩, small⟩

/-- Line number tables are read, and whatever is not one of them is skipped. -/
theorem Named.readLines (named : a.Named file.constants) (small : window.length ≤ countLimit)
    (within : ∀ position, offset position ≤ window.length) {range : AttributeRange}
    (covers : (a.encoded offset).At file range) :
    (range.name = "LineNumberTable" ∧ file.readLines window range =
        .ok (a.entries.map fun line => (offset line.1, line.2))) ∨
      (range.name ≠ "LineNumberTable" ∧ a.entries = []) := by
  cases named with
  | @lines name entries found few =>
      refine .inl ⟨Except.ok.inj (covers.name.symm.trans found), ?_⟩
      have hholds := covers.holds
      rw [encoded, ← List.length_map fun line : Nat × UInt16 => (offset line.1, line.2)] at hholds
      apply readLines_eq small _ _ hholds
      · rw [List.length_map]
        exact Nat.lt_succ_of_le few
      · exact List.forall_mem_map.mpr fun line _ => within line.1
  | other found differs _ =>
      refine .inr ⟨?_, rfl⟩
      rwa [Except.ok.inj (covers.name.symm.trans found)]

/-- The lines of all line number tables are read one after the other. -/
theorem exists_mapM_readLines {attributes : List CodeAttribute} {ranges : List AttributeRange}
    (small : window.length ≤ countLimit) (within : ∀ position, offset position ≤ window.length)
    (named : ∀ a ∈ attributes, a.Named file.constants)
    (covers : List.Forall₂ (fun a range => (encoded offset a).At file range) attributes ranges) :
    ∃ parts, (ranges.filter (·.name = "LineNumberTable")).mapM (file.readLines window) =
        .ok parts ∧
      (attributes.flatMap entries).map (fun line => (offset line.1, line.2)) = parts.flatten := by
  induction covers with
  | nil => exact ⟨[], rfl, rfl⟩
  | @cons a range attributes ranges first _ ih =>
      obtain ⟨parts, hparts, hlines⟩ := ih fun b hb => named b (List.mem_cons_of_mem _ hb)
      rw [List.flatMap_cons, List.map_append, hlines]
      obtain ⟨hname, hread⟩ | ⟨hname, hnone⟩ :=
        (named a List.mem_cons_self).readLines small within first
      · refine ⟨(a.entries.map fun line => (offset line.1, line.2)) :: parts, ?_, rfl⟩
        rw [List.filter_cons_of_pos (by simpa using hname), List.mapM_cons, hread, hparts]
        rfl
      · refine ⟨parts, ?_, ?_⟩
        · rwa [List.filter_cons_of_neg (by simpa using hname)]
        · rw [hnone]
          rfl

end CodeAttribute

namespace Outline.SpelledAs

variable {table : ConstantTable} (spelled : o.SpelledAs table bootstraps body)

include spelled

theorem proper : o.Proper where
  code i hi := by
    obtain ⟨spelling, -, hspelled⟩ := exists_right spelled.code hi
    exact hspelled.isPseudo_eq
  bound := spelled.bound

theorem length_ranges : (body.ranges o).length = o.blocks.length := by
  rw [BodySpelling.ranges, List.length_zipWith, ← spelled.catchTypes.length_eq, Nat.min_self]

/-- The entries of the exception table show the blocks. -/
theorem ranges_shows : List.Forall₂ (HandlerRange.Shows table)
    (o.blocks.map (·.map body.offset)) (body.ranges o) := by
  have h := spelled.catchTypes
  unfold BodySpelling.ranges
  generalize o.blocks = blocks, body.catchTypes = slots at h
  induction h with
  | nil => exact .nil
  | cons first _ ih => exact .cons ⟨rfl, rfl, rfl, first⟩ ih

/-- The offsets of the exception table are in the code or right behind it. -/
theorem ranges_within : ∀ range ∈ body.ranges o,
    ∀ offset ∈ [range.start, range.stop, range.handler], offset ≤ body.length := by
  intro range hrange
  obtain ⟨block, hblock, shows⟩ := exists_left spelled.ranges_shows hrange
  obtain ⟨source, -, rfl⟩ := List.mem_map.mp hblock
  rw [shows.start, shows.stop, shows.handler]
  change ∀ offset ∈ source.targets.map body.offset, offset ≤ body.length
  exact List.forall_mem_map.mpr fun position _ => body.offset_le position

end Outline.SpelledAs

/-- The lines are spread over the tables among the attributes of the code. -/
theorem Outline.SpelledAs.readsLines (spelled : o.SpelledAs file.constants bootstraps body)
    (small : window.length ≤ countLimit)
    (within : ∀ position, body.offset position ≤ window.length)
    (h : file.bytes.Holds index (ofNat 2 body.attributes.length ++
      (body.attributes.map fun a => (a.encoded body.offset).encode).flatten)) :
    file.ReadsLines window index (o.lines.map fun line => (body.offset line.1, line.2)) := by
  have hreadable : ∀ a ∈ body.attributes.map (CodeAttribute.encoded body.offset),
      a.Readable file.constants :=
    List.forall_mem_map.mpr fun a ha => (spelled.attributes a ha).readable body.offset
  have hfew : (body.attributes.map (CodeAttribute.encoded body.offset)).length ≤ countLimit := by
    rw [List.length_map]
    exact spelled.attributes_le
  have hencode := @encodeTable_ok _ EncodedAttribute.encode _ hfew
  rw [List.length_map, List.map_map] at hencode
  obtain ⟨ranges, hranges, covers⟩ := ClassFile.readAttributes_eq hreadable hencode h
  obtain ⟨parts, hparts, hlines⟩ := CodeAttribute.exists_mapM_readLines small within
    spelled.attributes (List.forall₂_map_left_iff.mp covers)
  rw [spelled.lines] at hlines
  exact ⟨ranges, _, parts, hranges, hparts, hlines⟩

/-- What is read from the code attribute, given the decoded instructions. -/
def BodySpelling.record (body : BodySpelling) (o : Outline) (items : List (Nat × Decoded)) :
    BodyRecord :=
  ⟨o.maxStack, o.maxLocals, body.length, items, body.ranges o,
    o.lines.map fun line => (body.offset line.1, line.2)⟩

/-- The record shows the body. -/
theorem Outline.SpelledAs.shows {table : ConstantTable}
    (spelled : o.SpelledAs table bootstraps body) {items : List (Nat × Decoded)}
    (tells : List.Forall₂ (fun i item => item.2.Tells table bootstraps i)
      (o.instructions.map (·.map body.offset)) items)
    (starts : items.map (·.1) ++ [body.length] = Spelling.startsFrom 0 body.code) :
    (body.record o items).Shows table bootstraps o := by
  have hstarts : (body.record o items).starts = Spelling.startsFrom 0 body.code := starts
  have hstartAt : (body.record o items).startAt = body.offset := by
    ext position
    rw [BodyRecord.startAt, hstarts]
    rfl
  refine ⟨?_, spelled.length_le, ?_⟩
  · rw [hstarts]
    exact Spelling.sorted_startsFrom 0 body.code
  · rw [hstartAt]
    exact ⟨tells, spelled.ranges_shows, rfl, rfl, rfl⟩

/-- A body is read from a code attribute, whichever spelling was chosen. -/
theorem Outline.SpelledAs.exists_readBody (spelled : o.SpelledAs file.constants bootstraps body)
    {a : EncodedAttribute} {range : AttributeRange} (contents : a.contents = body.contents o)
    (covers : a.At file range) :
    ∃ record, file.readBody range = .ok record ∧
      record.Shows file.constants bootstraps o := by
  have hlength : (Spelling.bytesFrom body.offset 0 body.code).length = body.length := by
    have h := Spelling.add_length_bytesFrom body.offset 0 body.code
    rwa [Nat.zero_add] at h
  have small : (file.window range body.length).length ≤ countLimit := spelled.length_le
  have within (position : Nat) : body.offset position ≤ body.length := body.offset_le position
  have stands : CodeStands file range.start o.maxStack o.maxLocals
      (Spelling.bytesFrom body.offset 0 body.code) ((body.ranges o).map HandlerRange.encode)
      (ofNat 2 body.attributes.length ++
        (body.attributes.map fun a => (a.encoded body.offset).encode).flatten) := by
    apply codeStands
    · have hholds := covers.holds
      rw [contents, BodySpelling.contents, ← spelled.length_ranges] at hholds
      rwa [List.length_map]
    · exact List.forall_mem_map.mpr fun handler _ => by simp [HandlerRange.encode, u16]
  have hcode : List.Forall₂
      (Instruction.SpelledAs (file.window range body.length).constants bootstraps) o.instructions
      body.code := spelled.code
  obtain ⟨items, hitems, tells, starts⟩ :=
    Spelling.exists_decodeFrom hcode small rfl within spelled.reach stands.code []
  have hranges := readRanges_eq small spelled.ranges_within stands.handlers
  have hlines := spelled.readsLines small within stands.attributes
  have hshows := spelled.shows tells starts
  have hread := @stands.readBody_eq
  rw [List.length_map, hlength] at hread hlines
  rw [hlength] at hranges
  refine ⟨_, hread spelled.length_le ?_ ?_ hitems hranges hlines ?_, hshows⟩
  · have hcovered := covers.length
    rw [contents, BodySpelling.contents] at hcovered
    simp only [encodeBlock, u16, List.length_append, length_ofNat, hlength] at hcovered
    omega
  · rw [spelled.length_ranges]
    exact Nat.lt_succ_of_le spelled.blocks_le
  · exact hshows.placeable spelled.proper

end Reading

end JavaClass
