import JavaClass.Proofs.Bytecode.Reach
import JavaClass.Proofs.ClassFile.Order

/-!
# Contents of attributes

What an attribute contains is read from where it starts, as far as its own
counts and lengths say. The announced length of the attribute has no part in
this, save that the code array must be within it. So the contents are read from
the announced bytes exactly if these are enough; if not, they are completed
from the bytes that follow.
-/

namespace JavaClass.ClassFile

open Bytecode

variable {file : ClassFile} {range : AttributeRange} {index : Nat}

/-- The same constants and version with other bytes. -/
def withBytes (file : ClassFile) (bytes : Bytes) : ClassFile :=
  { file with bytes := bytes }

theorem reaches_readCounted {α : Type} (read : ClassFile → Nat → Except Error (α × Nat))
    {items : List α} {start stop : Nat}
    (each : ∀ i item next, read file i = .ok (item, next) →
      file.bytes.Reaches (fun bytes => read (file.withBytes bytes) i) (item, next) i next)
    (h : file.readCounted (read file) index = .ok (items, stop)) (le : start ≤ index) :
    file.bytes.Reaches
      (fun bytes => (file.withBytes bytes).readCounted (read (file.withBytes bytes)) index)
      (items, stop) start stop := by
  unfold readCounted at h ⊢
  obtain ⟨count, hcount, h⟩ := exceptBind_eq_ok_iff.mp h
  refine .bind (Bytes.reaches_u16 hcount (by omega)) ?_
  exact Bytes.reaches_readRun (fun bytes => read (file.withBytes bytes)) each h

theorem reaches_readAttribute {next : Nat} (h : file.readAttribute index = .ok (range, next)) :
    file.bytes.Reaches (fun bytes => (file.withBytes bytes).readAttribute index) (range, next) index
      next := by
  unfold readAttribute at h ⊢
  obtain ⟨slot, hslot, h⟩ := exceptBind_eq_ok_iff.mp h
  obtain ⟨name, hname, h⟩ := exceptBind_eq_ok_iff.mp h
  obtain ⟨length, hlength, h⟩ := exceptBind_eq_ok_iff.mp h
  obtain ⟨⟨⟩, hcheck, h⟩ := exceptBind_eq_ok_iff.mp h
  obtain ⟨rfl, rfl⟩ := Prod.mk.inj (Except.ok.inj h)
  refine .bind (Bytes.reaches_u16 hslot (by omega)) (.bind (Bytes.reaches_const hname _) ?_)
  refine .bind (Bytes.reaches_u32 hlength (by omega)) ?_
  exact .bind (Bytes.reaches_check hcheck (by omega)) (Bytes.reaches_const rfl _)

theorem reaches_readAttributes {ranges : List AttributeRange} {start stop : Nat}
    (h : file.readAttributes index = .ok (ranges, stop)) (le : start ≤ index) :
    file.bytes.Reaches (fun bytes => (file.withBytes bytes).readAttributes index) (ranges, stop)
      start stop :=
  reaches_readCounted readAttribute (fun _ _ _ => reaches_readAttribute) h le

theorem reaches_classNames {names : List String} {start : Nat}
    (h : file.classNames index = .ok names) (le : start ≤ index + 2) :
    file.bytes.Reaches (fun bytes => (file.withBytes bytes).classNames index) names start
      (index + 2 + 2 * names.length) := by
  unfold classNames at h ⊢
  obtain ⟨count, hcount, h⟩ := exceptBind_eq_ok_iff.mp h
  rw [length_of_readEach h]
  refine .bind (Bytes.reaches_u16 hcount le) ?_
  refine Bytes.reaches_readEach (fun bytes index => do
    file.constants.className (← bytes.u16 index)) (fun i name found => ?_) h
  obtain ⟨slot, hslot, found⟩ := exceptBind_eq_ok_iff.mp found
  exact .bind (Bytes.reaches_u16 hslot (by omega)) (Bytes.reaches_const found _)

/-- The name or value at the slot that stands at an index. -/
theorem reaches_lookUp {α : Type} {find : UInt16 → Except Error α} {a : α}
    (h : (do find (← file.bytes.u16 index)) = .ok a) :
    file.bytes.Reaches (fun bytes => do find (← bytes.u16 index)) a index (index + 2) := by
  obtain ⟨slot, hslot, h⟩ := exceptBind_eq_ok_iff.mp h
  exact .bind (Bytes.reaches_u16 hslot (by omega)) (Bytes.reaches_const h _)

/-- Reads an entry of a bootstrap table, and where it ends. -/
def readBootstrap (file : ClassFile) (index : Nat) : Except Error (Bootstrap × Nat) := do
  let method ← file.bytes.u16 index
  let count := (← file.bytes.u16 (index + 2)).toNat
  let arguments ← readEach file.bytes.u16 2 (index + 4) count
  return (⟨method, arguments⟩, index + 4 + 2 * count)

theorem reaches_readBootstrap {entry : Bootstrap} {next : Nat}
    (h : file.readBootstrap index = .ok (entry, next)) :
    next = index + entry.size ∧
      file.bytes.Reaches (fun bytes => (file.withBytes bytes).readBootstrap index) (entry, next)
        index next := by
  unfold readBootstrap at h ⊢
  obtain ⟨method, hmethod, h⟩ := exceptBind_eq_ok_iff.mp h
  obtain ⟨count, hcount, h⟩ := exceptBind_eq_ok_iff.mp h
  obtain ⟨arguments, harguments, h⟩ := exceptBind_eq_ok_iff.mp h
  obtain ⟨rfl, rfl⟩ := Prod.mk.inj (Except.ok.inj h)
  refine ⟨?_, .bind (Bytes.reaches_u16 hmethod (by omega))
    (.bind (Bytes.reaches_u16 hcount (by omega)) (.bind ?_ (Bytes.reaches_const rfl _)))⟩
  · rw [Bootstrap.size, length_of_readEach harguments, Nat.add_assoc]
  · exact Bytes.reaches_readEach Bytes.u16 (fun i slot found => Bytes.reaches_u16 found (by omega))
      harguments

/-- Items that tell where they end stand one behind the other. -/
theorem stop_of_readRun {α : Type} {read : Nat → Except Error (α × Nat)} {size : α → Nat}
    {count stop : Nat} (each : ∀ i item next, read i = .ok (item, next) → next = i + size item)
    {done items : List α} (h : readRun read index count done = .ok (items, stop)) :
    stop + (done.map size).sum = index + (items.map size).sum := by
  induction count generalizing index done with
  | zero =>
      obtain ⟨rfl, rfl⟩ := Prod.mk.inj (Except.ok.inj h)
      rw [List.map_reverse, List.sum_reverse]
  | succ count ih =>
      rw [readRun] at h
      split at h
      · cases h
      · rename_i item next found
        have rest := ih h
        rw [each index item next found, List.map_cons, List.sum_cons] at rest
        omega

theorem reaches_readBootstraps {entries : List Bootstrap}
    (h : file.readBootstraps range = .ok entries) :
    file.bytes.Reaches (fun bytes => (file.withBytes bytes).readBootstraps range) entries
      range.start (range.start + (2 + (entries.map Bootstrap.size).sum)) := by
  obtain ⟨⟨found, stop⟩, hcounted, h⟩ := exceptBind_eq_ok_iff.mp h
  obtain rfl := Except.ok.inj h
  have counted := reaches_readCounted readBootstrap
    (fun _ _ _ found => (reaches_readBootstrap found).2) hcounted (Nat.le_refl _)
  have stop_eq : stop = range.start + (2 + (found.map Bootstrap.size).sum) := by
    obtain ⟨count, -, hrun⟩ := exceptBind_eq_ok_iff.mp hcounted
    have ends := stop_of_readRun (fun _ _ _ found => (reaches_readBootstrap found).1) hrun
    rw [List.map_nil, List.sum_nil] at ends
    omega
  rw [← stop_eq]
  exact .bind counted (Bytes.reaches_const rfl _)

theorem reaches_readLines {window : Window} {lines : List (Nat × UInt16)} {start : Nat}
    (h : file.readLines window range = .ok lines) (le : start ≤ range.start) :
    file.bytes.Reaches
      (fun bytes => (file.withBytes bytes).readLines (window.withBytes bytes) range) lines start
      (range.start + (2 + 4 * lines.length)) := by
  unfold readLines at h ⊢
  obtain ⟨count, hcount, h⟩ := exceptBind_eq_ok_iff.mp h
  rw [length_of_readEach h, ← Nat.add_assoc]
  refine .bind (Bytes.reaches_u16 hcount (by omega)) ?_
  refine Bytes.reaches_readEach (fun bytes index => do
    let offset ← window.offset (← bytes.u16 index).toNat
    return (offset, ← bytes.u16 (index + 2))) (fun i line found => ?_) h
  obtain ⟨start, hstart, found⟩ := exceptBind_eq_ok_iff.mp found
  obtain ⟨offset, hoffset, found⟩ := exceptBind_eq_ok_iff.mp found
  obtain ⟨number, hnumber, found⟩ := exceptBind_eq_ok_iff.mp found
  refine .bind (Bytes.reaches_u16 hstart (by omega)) (.bind (Bytes.reaches_const hoffset _) ?_)
  exact .bind (Bytes.reaches_u16 hnumber (by omega)) (Bytes.reaches_const found _)

theorem reaches_readHandler {window : Window} {handler : HandlerRange}
    (h : file.readHandler window index = .ok handler) :
    file.bytes.Reaches
      (fun bytes => (file.withBytes bytes).readHandler (window.withBytes bytes) index) handler index
      (index + 8) := by
  unfold readHandler at h ⊢
  obtain ⟨first, hfirst, h⟩ := exceptBind_eq_ok_iff.mp h
  obtain ⟨start, hstart, h⟩ := exceptBind_eq_ok_iff.mp h
  obtain ⟨second, hsecond, h⟩ := exceptBind_eq_ok_iff.mp h
  obtain ⟨stop, hstop, h⟩ := exceptBind_eq_ok_iff.mp h
  obtain ⟨third, hthird, h⟩ := exceptBind_eq_ok_iff.mp h
  obtain ⟨entry, hentry, h⟩ := exceptBind_eq_ok_iff.mp h
  obtain ⟨slot, hslot, h⟩ := exceptBind_eq_ok_iff.mp h
  refine .bind (Bytes.reaches_u16 hfirst (by omega)) (.bind (Bytes.reaches_const hstart _) ?_)
  refine .bind (Bytes.reaches_u16 hsecond (by omega)) (.bind (Bytes.reaches_const hstop _) ?_)
  refine .bind (Bytes.reaches_u16 hthird (by omega)) (.bind (Bytes.reaches_const hentry _) ?_)
  exact .bind (Bytes.reaches_u16 hslot (by omega)) (Bytes.reaches_const h _)

/-- The line tables among the attributes of code. -/
def lineTables (nested : List AttributeRange) : List AttributeRange :=
  nested.filter (·.name = "LineNumberTable")

/-- Where a table of line numbers ends. -/
def linesEnd (table : AttributeRange) (lines : List (Nat × UInt16)) : Nat :=
  table.start + (2 + 4 * lines.length)

/-- What stands behind the code array of a body. -/
structure BodyTables (file : ClassFile) (range : AttributeRange) (body : BodyRecord)
    (nested : List AttributeRange) (stop : Nat) (parts : List (List (Nat × UInt16))) : Prop where
  attributes : file.readAttributes (range.start + 8 + body.length + 2 + 8 * body.handlers.length) =
    .ok (nested, stop)
  lines : List.Forall₂ (fun table part =>
    file.readLines (file.window range body.length) table = .ok part) (lineTables nested) parts
  lines_eq : body.lines = parts.flatten

theorem ReadsBody.exists_tables {body : BodyRecord} (reads : file.ReadsBody range body) :
    ∃ nested stop parts, file.BodyTables range body nested stop parts := by
  obtain ⟨count, -, hhandlers, nested, stop, parts, hnested, hparts, hlines⟩ := reads.tables
  rw [← length_of_readEach hhandlers] at hnested
  exact ⟨nested, stop, parts, hnested, mapM_eq_ok_iff.mp hparts, hlines⟩

/-- A code attribute is read up to the end of its attributes, and of its line tables if one of them
ends behind that. -/
theorem reaches_readBody {body : BodyRecord} {nested : List AttributeRange} {stop : Nat}
    {parts : List (List (Nat × UInt16))} (reads : file.ReadsBody range body)
    (tables : file.BodyTables range body nested stop parts) :
    file.bytes.Reaches (fun bytes => (file.withBytes bytes).readBody range) body range.start
      (Bytes.lastEnd stop (List.zipWith linesEnd (lineTables nested) parts)) := by
  obtain ⟨n, hlength, hn⟩ := reads.length
  obtain ⟨count, hcount, hhandlers, -⟩ := reads.tables
  have fits : ¬ (countLimit < body.length ∨
      range.start + range.length < range.start + 8 + body.length) := by
    have small := reads.small
    have room := reads.room
    omega
  obtain ⟨codeEnd, codeEnd_le, decodes⟩ := Window.within_decodeFrom reads.instructions
  replace codeEnd_le : codeEnd ≤ range.start + 8 + body.length := codeEnd_le
  have placeable : body.unplaceable.min? = none :=
    List.min?_eq_none_iff.mpr (BodyRecord.unplaceable_eq_nil_iff.mpr reads.placeable)
  have attributes := tables.attributes
  rw [length_of_readEach hhandlers] at attributes
  have lines := mapM_eq_ok_iff.mpr tables.lines
  unfold readBody
  refine .bind (Bytes.reaches_u16 reads.maxStack (by omega)) ?_
  refine .bind (Bytes.reaches_u16 reads.maxLocals (by omega)) ?_
  refine .bind (Bytes.reaches_u32 hlength (by omega)) ?_
  simp only [hn, if_neg fits]
  refine .bind (decodes.behind (Nat.zero_le _)) ?_
  refine .bind (Bytes.reaches_u16 hcount (by omega)) ?_
  refine .bind (Bytes.reaches_readEach (fun bytes => (file.withBytes bytes).readHandler
    ((file.window range body.length).withBytes bytes)) (fun _ _ => reaches_readHandler)
    hhandlers) ?_
  refine .bind (reaches_readAttributes attributes (Nat.le_refl _)) ?_
  refine .bind (Bytes.reaches_mapM (fun bytes => (file.withBytes bytes).readLines
    ((file.window range body.length).withBytes bytes)) linesEnd
    (fun _ _ _ found => reaches_readLines found (Nat.zero_le _)) lines _) ?_
  refine Bytes.reaches_const ?_ _
  rw [← tables.lines_eq]
  split
  · rename_i offset found
    exact absurd (placeable.symm.trans found) (Option.some_ne_none offset).symm
  · rfl

/-- The file as if it ended where the contents of an attribute are announced to end. -/
def announced (file : ClassFile) (range : AttributeRange) : ClassFile :=
  file.withBytes (file.bytes.upTo (range.start + range.length))

/-- The contents of an attribute are read as `a` and take `size` bytes. The announced bytes give the
same if these are enough, and miss some bytes if not. -/
structure Takes {α : Type} (file : ClassFile) (range : AttributeRange)
    (read : ClassFile → Except Error α) (a : α) (size : Nat) : Prop where
  read_eq : read file = .ok a
  announced_iff : read (file.announced range) = .ok a ↔ size ≤ range.length
  misses : range.length < size →
    ∃ length index, read (file.announced range) = malformed (.unexpectedEnd length index)

theorem takes_of_reaches {α : Type} (read : ClassFile → Except Error α) {a : α} {size : Nat}
    (found : read file = .ok a)
    (h : file.bytes.Reaches (fun bytes => read (file.withBytes bytes)) a range.start
      (range.start + size)) : file.Takes range read a size := by
  have misses (lt : range.length < size) :
      ∃ length index, read (file.announced range) = malformed (.unexpectedEnd length index) :=
    h.misses (range.start + range.length) (by omega) (by omega)
  refine ⟨found, ⟨fun enough => ?_, fun le => h.reads _ (by omega)⟩, misses⟩
  by_contra lt
  obtain ⟨length, index, missed⟩ := misses (Nat.not_le.mp lt)
  rw [missed] at enough
  cases enough

/-- Reads the value that a field starts with. -/
def readValue (file : ClassFile) (range : AttributeRange) : Except Error Literal := do
  file.constants.literal (← file.bytes.u16 range.start)

/-- A code attribute and the line tables in it are read. The code array is within the announced
bytes, and the attribute takes what its own attributes and its line tables take. -/
structure ReadsCode (file : ClassFile) (range : AttributeRange) (body : BodyRecord) : Prop where
  room : 8 + body.length ≤ range.length
  tables : ∃ nested stop parts, file.BodyTables range body nested stop parts ∧
    file.Takes range (·.readBody range) body
      (Bytes.lastEnd stop (List.zipWith linesEnd (lineTables nested) parts) - range.start) ∧
    List.Forall₂ (fun table part =>
      file.Takes table (fun file => file.readLines (file.window range body.length) table) part
        (2 + 4 * part.length)) (lineTables nested) parts

/-- Everything that is told of the contents of attributes is read, and takes as many bytes as its
own counts say. -/
structure ReadsContents (file : ClassFile) (extents : ClassLayout) : Prop where
  sources : ∀ range ∈ sourceFiles extents.attributes,
    ∃ text, file.Takes range (·.readSource range) text 2
  bootstraps : ∀ range ∈ extents.attributes.filter (·.name = "BootstrapMethods"),
    ∃ entries, file.Takes range (·.readBootstraps range) entries
      (2 + (entries.map Bootstrap.size).sum)
  values : ∀ field ∈ extents.fields, ∀ range,
    field.attributes.find? (·.name = "ConstantValue") = some range →
      ∃ value, file.Takes range (·.readValue range) value 2
  exceptions : ∀ method ∈ extents.methods,
    ∀ range ∈ method.attributes.filter (·.name = "Exceptions"),
      ∃ names, file.Takes range (·.classNames range.start) names (2 + 2 * names.length)
  bodies : ∀ method ∈ extents.methods, ∀ range,
    method.attributes.find? (·.name = "Code") = some range → ∃ body, file.ReadsCode range body

theorem readsCode {body : BodyRecord} (h : file.readBody range = .ok body) :
    file.ReadsCode range body := by
  have reads := readBody_eq_ok_iff.mp h
  obtain ⟨nested, stop, parts, tables⟩ := reads.exists_tables
  have reaches := reaches_readBody reads tables
  refine ⟨reads.room, nested, stop, parts, tables, takes_of_reaches (·.readBody range) h ?_, ?_⟩
  · rwa [Nat.add_sub_cancel' reaches.start_le]
  · exact tables.lines.imp fun table part found => takes_of_reaches
      (fun file => file.readLines (file.window range body.length) table) found
      (reaches_readLines found (Nat.le_refl _))

/-- The value of a field is read if the field is told. -/
theorem exists_readValue {member : MemberRange} {event : Event}
    (h : file.readField member = .ok event)
    (found : member.attributes.find? (·.name = "ConstantValue") = some range) :
    ∃ value, file.readValue range = .ok value := by
  unfold readField at h
  obtain ⟨flags, -, h⟩ := exceptBind_eq_ok_iff.mp h
  obtain ⟨_, -, h⟩ := exceptBind_eq_ok_iff.mp h
  obtain ⟨name, -, h⟩ := exceptBind_eq_ok_iff.mp h
  obtain ⟨_, -, h⟩ := exceptBind_eq_ok_iff.mp h
  obtain ⟨descriptor, -, h⟩ := exceptBind_eq_ok_iff.mp h
  simp only [found] at h
  obtain ⟨slot, hslot, h⟩ := exceptBind_eq_ok_iff.mp h
  obtain ⟨value, hvalue, -⟩ := exceptBind_eq_ok_iff.mp h
  exact ⟨value, exceptBind_eq_ok_iff.mpr ⟨slot, hslot, hvalue⟩⟩

/-- The exceptions of a method are read if the method is told. -/
theorem exists_classNames {member : MemberRange} {header : MethodHeader}
    (h : file.readMethod member = .ok header)
    (mem : range ∈ member.attributes.filter (·.name = "Exceptions")) :
    ∃ names, file.classNames range.start = .ok names := by
  unfold readMethod at h
  obtain ⟨flags, -, h⟩ := exceptBind_eq_ok_iff.mp h
  obtain ⟨_, -, h⟩ := exceptBind_eq_ok_iff.mp h
  obtain ⟨name, -, h⟩ := exceptBind_eq_ok_iff.mp h
  obtain ⟨_, -, h⟩ := exceptBind_eq_ok_iff.mp h
  obtain ⟨descriptor, -, h⟩ := exceptBind_eq_ok_iff.mp h
  obtain ⟨exceptions, hexceptions, -⟩ := exceptBind_eq_ok_iff.mp h
  obtain ⟨names, -, found⟩ := exists_right (mapM_eq_ok_iff.mp hexceptions) mem
  exact ⟨names, found⟩

/-- Bootstrap tables are read if the attributes of the class are told. -/
theorem exists_readBootstraps {attributes : List AttributeRange} {events : List Event}
    (h : Transcript.concat (attributes.map file.tellClassAttribute) = .tell events)
    (mem : range ∈ attributes.filter (·.name = "BootstrapMethods")) :
    ∃ entries, file.readBootstraps range = .ok entries := by
  obtain ⟨mem, isTable⟩ := List.mem_filter.mp mem
  obtain ⟨part, told⟩ := Transcript.tell_of_concat h mem
  have name_eq : range.name = "BootstrapMethods" := of_decide_eq_true isTable
  rw [tellClassAttribute, if_neg (by rw [name_eq]; decide), if_pos name_eq] at told
  obtain ⟨entries, found, -⟩ := Transcript.withResult_eq_tell_iff.mp told
  exact ⟨entries, found⟩

/-- Code is read if the method is told. -/
theorem TellsCode.exists_readBody {bootstraps : Array Bootstrap} {member : MemberRange}
    {code : Option (Listing LabelToken)} (h : file.TellsCode bootstraps member code)
    (first : member.attributes.find? (·.name = "Code") = some range) :
    ∃ body, file.readBody range = .ok body := by
  cases h with
  | absent missing =>
      rw [missing] at first
      cases first
  | told found reads _ _ =>
      rw [found] at first
      obtain rfl := Option.some.inj first
      exact ⟨_, reads⟩

theorem Tells.readsContents {extents : ClassLayout} {story : ClassStory}
    (tells : file.Tells extents story) : file.ReadsContents extents where
  sources range mem := by
    obtain ⟨text, -, found⟩ := exists_right (sources_of_tell tells.sources) mem
    exact ⟨text, takes_of_reaches (·.readSource range) found (reaches_lookUp found)⟩
  bootstraps range mem := by
    obtain ⟨entries, found⟩ := exists_readBootstraps tells.sources mem
    exact ⟨entries, takes_of_reaches (·.readBootstraps range) found (reaches_readBootstraps found)⟩
  values field mem range first := by
    obtain ⟨story, -, told⟩ := exists_left tells.fields mem
    obtain ⟨value, found⟩ := exists_readValue told first
    exact ⟨value, takes_of_reaches (·.readValue range) found (reaches_lookUp found)⟩
  exceptions method mem range table := by
    obtain ⟨story, -, told⟩ := exists_left tells.methods mem
    obtain ⟨names, found⟩ := exists_classNames told.header table
    have reaches := reaches_classNames found (Nat.le_add_right _ _)
    rw [Nat.add_assoc] at reaches
    exact ⟨names, takes_of_reaches (·.classNames range.start) found reaches⟩
  bodies method mem range first := by
    obtain ⟨story, -, told⟩ := exists_left tells.methods mem
    obtain ⟨body, found⟩ := told.code.exists_readBody first
    exact ⟨body, readsCode found⟩

/-- What a definition is decoded from is read as far as the counts in each attribute say: from the
announced bytes exactly if they are enough, and else from those that follow, too. Only a code array
is always within the announced bytes. -/
theorem contents_read {bytes : Bytes} {c : ClassDef} (decoded : ClassDef.decode bytes = .ok c) :
    ∃ file extents, ClassFile.read bytes = .ok file ∧ file.extents = .ok extents ∧
      file.ReadsContents extents := by
  obtain ⟨file, extents, story, hread, tells, -⟩ := ClassDef.decode_eq_ok decoded
  exact ⟨file, extents, hread, tells.extents, tells.readsContents⟩

/-- A file with a method whose line table has an entry behind the announced bytes of the table and
of the code. -/
def overrunTableFile : Bytes :=
  #[0xCA, 0xFE, 0xBA, 0xBE, 0, 0, 0, 65, 0, 6, 1, 0, 1, 65, 7, 0, 1, 1, 0, 4, 67, 111, 100, 101, 1,
    0, 3, 40, 41, 86, 1, 0, 15, 76, 105, 110, 101, 78, 117, 109, 98, 101, 114, 84, 97, 98, 108, 101,
    0, 32, 0, 2, 0, 0, 0, 0, 0, 0, 0, 1, 0, 8, 0, 1, 0, 4, 0, 1, 0, 3, 0, 0, 0, 21, 0, 0, 0, 0, 0,
    0, 0, 1, 177, 0, 0, 0, 1, 0, 5, 0, 0, 0, 2, 0, 1, 0, 0, 0, 7]

theorem contents_read_overrunTableFile :
    ∃ c file extents, ClassDef.decode overrunTableFile = .ok c ∧
      ClassFile.read overrunTableFile = .ok file ∧ file.extents = .ok extents ∧
      file.ReadsContents extents := by
  have hrun : (ClassDef.decode overrunTableFile).isOk = true := by decide +kernel
  obtain ⟨c, decoded⟩ := exists_of_isOk hrun
  obtain ⟨file, extents, hread, hextents, reads⟩ := contents_read decoded
  exact ⟨c, file, extents, decoded, hread, hextents, reads⟩

/-- A file with an empty attribute that names a source file, and an attribute behind it. -/
def emptySourceFile : Bytes :=
  #[0xCA, 0xFE, 0xBA, 0xBE, 0, 0, 0, 65, 0, 4, 1, 0, 1, 65, 7, 0, 1, 1, 0, 10, 83, 111, 117, 114,
    99, 101, 70, 105, 108, 101, 0, 32, 0, 2, 0, 0, 0, 0, 0, 0, 0, 0, 0, 2, 0, 3, 0, 0, 0, 0, 0, 1,
    0, 0, 0, 0]

/-- Not every definition is decoded from announced bytes only. -/
theorem not_forall_announced :
    (ClassDef.decode emptySourceFile).isOk = true ∧
      ¬ ∀ (bytes : Bytes) (c : ClassDef) (file : ClassFile) (extents : ClassLayout),
        ClassDef.decode bytes = .ok c → ClassFile.read bytes = .ok file →
        file.extents = .ok extents → ∀ range ∈ sourceFiles extents.attributes,
          ∃ text, (file.announced range).readSource range = .ok text := by
  have hrun : (ClassDef.decode emptySourceFile).isOk = true := by decide +kernel
  have missed : (ClassFile.read emptySourceFile).bind (fun file => file.extents.map fun extents =>
      (sourceFiles extents.attributes).all fun range =>
        ((file.announced range).readSource range).isOk) = .ok false := by decide +kernel
  refine ⟨hrun, fun always => ?_⟩
  obtain ⟨c, decoded⟩ := exists_of_isOk hrun
  obtain ⟨file, extents, story, hread, tells, -⟩ := ClassDef.decode_eq_ok decoded
  rw [hread, Except.bind, tells.extents] at missed
  obtain ⟨range, mem, refused⟩ := List.all_eq_false.mp (Except.ok.inj missed)
  obtain ⟨text, found⟩ :=
    always emptySourceFile c file extents decoded hread tells.extents range mem
  rw [found] at refused
  exact refused rfl

end JavaClass.ClassFile
