import JavaClass.Proofs.Bytecode.Sizes
import JavaClass.Proofs.Bytes.Reach
import JavaClass.Proofs.ClassFile.Records
import JavaClass.Proofs.ClassFile.Stories
import JavaClass.Proofs.Constant.Trees

/-!
# What a class file refers to

Outside of its constant pool, a class file refers to constants by slots. Whatever
is read through such a slot stands there.

## Implementation notes

References are found in the bytes, wherever they are read. An attribute that is
skipped refers to nothing, not even to its name. A slot may be 0, which leads to
nothing.
-/

namespace JavaClass

open Bytecode

namespace ClassFile

variable {file : ClassFile} {extents : ClassLayout} {member : MemberRange} {range : AttributeRange}
  {index : Nat} {slot : UInt16}

/-- The names of the attributes that are read. Others are skipped, and not written again. -/
def keptAttributes : List String :=
  ["BootstrapMethods", "Code", "ConstantValue", "Exceptions", "LineNumberTable", "SourceFile"]

/-- The slot of the name of an attribute that is read. It stands in front of the length and the
contents of the attribute. -/
def NamedBy (file : ClassFile) (range : AttributeRange) (slot : UInt16) : Prop :=
  range.name ∈ keptAttributes ∧ ∃ index, range.start = index + 6 ∧ file.bytes.u16 index = .ok slot

/-- A table of slots lists this one. -/
def Lists (file : ClassFile) (index : Nat) (slot : UInt16) : Prop :=
  ∃ count k, file.bytes.u16 index = .ok count ∧ k < count.toNat ∧
    file.bytes.u16 (index + 2 + 2 * k) = .ok slot

/-- A slot to which a code attribute refers in its code, its exception table or its attributes. -/
inductive CodeCites (file : ClassFile) (range : AttributeRange) (body : BodyRecord) : UInt16 → Prop
  | operand {item : Nat × Decoded} {slot : UInt16} (mem : item ∈ body.instructions)
      (refers : (file.window range body.length).Refers item.1 slot) : CodeCites file range body slot
  | handler {handler : HandlerRange} (mem : handler ∈ body.handlers) :
      CodeCites file range body handler.catchType
  | nested {count slot : UInt16} {attributes : List AttributeRange} {stop : Nat}
      {inner : AttributeRange}
      (counted : file.bytes.u16 (range.start + 8 + body.length) = .ok count)
      (read : file.readAttributes (range.start + 8 + body.length + 2 + 8 * count.toNat) =
        .ok (attributes, stop)) (mem : inner ∈ attributes) (named : file.NamedBy inner slot) :
      CodeCites file range body slot

/-- A slot to which a field or a method refers for its name, its descriptor or the names of the
attributes that are read. -/
inductive MemberCites (file : ClassFile) (member : MemberRange) (slot : UInt16) : Prop
  | name (found : file.bytes.u16 (member.start + 2) = .ok slot)
  | descriptor (found : file.bytes.u16 (member.start + 4) = .ok slot)
  | attributeName {range : AttributeRange} (mem : range ∈ member.attributes)
      (named : file.NamedBy range slot)

/-- A slot to which a class file refers in its header, its members or its attributes. -/
inductive Cites (file : ClassFile) (extents : ClassLayout) (slot : UInt16) : Prop
  | thisClass (found : file.bytes.u16 (file.headerStart + 2) = .ok slot)
  | superClass (found : file.bytes.u16 (file.headerStart + 4) = .ok slot)
  | interface (listed : file.Lists (file.headerStart + 6) slot)
  | member {member : MemberRange} (mem : member ∈ extents.fields ++ extents.methods)
      (cites : file.MemberCites member slot)
  | value {member : MemberRange} {range : AttributeRange} (mem : member ∈ extents.fields)
      (held : range ∈ member.attributes) (named : range.name = "ConstantValue")
      (found : file.bytes.u16 range.start = .ok slot)
  | exception {member : MemberRange} {range : AttributeRange} (mem : member ∈ extents.methods)
      (held : range ∈ member.attributes) (named : range.name = "Exceptions")
      (listed : file.Lists range.start slot)
  | code {member : MemberRange} {range : AttributeRange} {body : BodyRecord}
      (mem : member ∈ extents.methods) (held : range ∈ member.attributes)
      (named : range.name = "Code") (read : file.readBody range = .ok body)
      (cites : file.CodeCites range body slot)
  | attributeName {range : AttributeRange} (mem : range ∈ extents.attributes)
      (named : file.NamedBy range slot)
  | source {range : AttributeRange} (mem : range ∈ extents.attributes)
      (named : range.name = "SourceFile") (found : file.bytes.u16 range.start = .ok slot)
  | bootstrap {range : AttributeRange} {entries : List Bootstrap} {entry : Bootstrap}
      (mem : range ∈ extents.attributes) (named : range.name = "BootstrapMethods")
      (read : file.readBootstraps range = .ok entries) (listed : entry ∈ entries)
      (cites : slot = entry.method ∨ slot ∈ entry.arguments)

/-- A class file refers to where a constant stands with its parts. -/
def RefersTo (file : ClassFile) (extents : ClassLayout) (tree : ConstantTree) : Prop :=
  ∃ slot, file.Cites extents slot ∧ tree.Shown file.constants slot

/-- A slot is found from one to which a class file refers. -/
def Reaches (file : ClassFile) (extents : ClassLayout) (slot : UInt16) : Prop :=
  ∃ root, file.Cites extents root ∧ file.constants.Leads root slot

/-- Every constant of a class file is found from one to which the file refers. -/
def Sparing (file : ClassFile) (extents : ClassLayout) : Prop :=
  ∀ slot constant, file.constants.get slot = .ok constant → file.Reaches extents slot

/-- The parts of constants to which a class file refers are found, since nothing stands twice. -/
theorem RefersTo.reaches {pool : ConstantPool} {tree part : ConstantTree}
    (refers : file.RefersTo extents tree) (valid : pool.Valid)
    (same : file.constants = ⟨pool.entries⟩) (mem : part ∈ tree.parts)
    (shown : part.Shown file.constants slot) : file.Reaches extents slot := by
  obtain ⟨root, cites, whole⟩ := refers
  obtain ⟨found, stands, leads⟩ := whole.leads mem
  rw [same] at shown stands
  obtain rfl := shown.unique valid stands
  exact ⟨root, cites, leads⟩

theorem exists_read_of_readRun {α : Type} {read : Nat → Except Error (α × Nat)}
    {count stop : Nat} {done items : List α} (h : readRun read index count done = .ok (items, stop))
    {item : α} (mem : item ∈ items) : item ∈ done ∨ ∃ i next, read i = .ok (item, next) := by
  induction count generalizing index done with
  | zero =>
      obtain ⟨rfl, -⟩ := Prod.mk.inj (Except.ok.inj h)
      exact .inl (List.mem_reverse.mp mem)
  | succ count ih =>
      rw [readRun] at h
      split at h
      · cases h
      · rename_i first next found
        obtain mem | read := ih h
        · obtain rfl | mem := List.mem_cons.mp mem
          · exact .inr ⟨index, next, found⟩
          · exact .inl mem
        · exact .inr read

theorem mem_and_named_of_find? {ranges : List AttributeRange} {name : String}
    (found : ranges.find? (·.name = name) = some range) : range ∈ ranges ∧ range.name = name :=
  ⟨List.mem_of_find?_eq_some found, by simpa using List.find?_some found⟩

/-- Everything that is counted was read somewhere. -/
theorem exists_read_of_readCounted {α : Type} {read : Nat → Except Error (α × Nat)} {stop : Nat}
    {items : List α} (h : file.readCounted read index = .ok (items, stop)) {item : α}
    (mem : item ∈ items) : ∃ i next, read i = .ok (item, next) := by
  obtain ⟨count, -, h⟩ := exceptBind_eq_ok_iff.mp h
  exact (exists_read_of_readRun h mem).resolve_left List.not_mem_nil

/-- The text of its name stands at the slot of an attribute, if it is read. -/
def Names (file : ClassFile) (range : AttributeRange) : Prop :=
  range.name ∈ keptAttributes →
    ∃ slot, file.NamedBy range slot ∧ (ConstantTree.text range.name).Shown file.constants slot

theorem names_of_readAttributes {attributes : List AttributeRange} {stop : Nat}
    (h : file.readAttributes index = .ok (attributes, stop)) (mem : range ∈ attributes) :
    file.Names range := by
  obtain ⟨i, next, h⟩ := exists_read_of_readCounted h mem
  obtain ⟨slot, hslot, h⟩ := exceptBind_eq_ok_iff.mp h
  obtain ⟨name, hname, h⟩ := exceptBind_eq_ok_iff.mp h
  obtain ⟨length, -, h⟩ := exceptBind_eq_ok_iff.mp h
  obtain ⟨_, -, h⟩ := exceptBind_eq_ok_iff.mp h
  obtain ⟨rfl, -⟩ := Prod.mk.inj (Except.ok.inj h)
  exact fun kept => ⟨slot, ⟨kept, i, rfl, hslot⟩, ConstantTree.shown_text_iff.mpr hname⟩

theorem names_of_readMembers {members : List MemberRange} {stop : Nat}
    (h : file.readMembers index = .ok (members, stop)) (mem : member ∈ members)
    (held : range ∈ member.attributes) : file.Names range := by
  obtain ⟨i, next, h⟩ := exists_read_of_readCounted h mem
  obtain ⟨⟨attributes, stop⟩, hattributes, h⟩ := exceptBind_eq_ok_iff.mp h
  obtain ⟨rfl, -⟩ := Prod.mk.inj (Except.ok.inj h)
  exact names_of_readAttributes hattributes held

/-- Every attribute of a class file has its name. -/
theorem names_of_layout {count : Nat} (h : file.layout count = .ok extents) :
    (∀ member ∈ extents.fields ++ extents.methods, ∀ range ∈ member.attributes,
      file.Names range) ∧ ∀ range ∈ extents.attributes, file.Names range := by
  obtain ⟨⟨fields, methodStart⟩, hfields, h⟩ := exceptBind_eq_ok_iff.mp h
  obtain ⟨⟨methods, attributeStart⟩, hmethods, h⟩ := exceptBind_eq_ok_iff.mp h
  obtain ⟨⟨attributes, stop⟩, hattributes, h⟩ := exceptBind_eq_ok_iff.mp h
  obtain rfl := Except.ok.inj h
  refine ⟨fun member mem range held => ?_, fun range => names_of_readAttributes hattributes⟩
  obtain mem | mem := List.mem_append.mp mem
  · exact names_of_readMembers hfields mem held
  · exact names_of_readMembers hmethods mem held

/-- Every class that is read from a table stands at a slot of the table. -/
theorem exists_listed_of_classNames {names : List String} (h : file.classNames index = .ok names)
    {name : String} (mem : name ∈ names) :
    ∃ slot, file.Lists index slot ∧ (ConstantTree.classNamed name).Shown file.constants slot := by
  obtain ⟨count, hcount, h⟩ := exceptBind_eq_ok_iff.mp h
  obtain ⟨k, inside, rfl⟩ := List.mem_iff_getElem.mp mem
  obtain ⟨slot, hslot, hname⟩ := exceptBind_eq_ok_iff.mp
    (getElem?_of_readEach h (List.getElem?_eq_getElem inside))
  rw [length_of_readEach h] at inside
  exact ⟨slot, ⟨count, k, hcount, inside, hslot⟩, ConstantTree.shown_classNamed_iff.mpr hname⟩

theorem shown_of_optionalClassName {table : ConstantTable} {name : String}
    (h : table.optionalClassName slot = .ok (some name)) :
    (ConstantTree.classNamed name).Shown table slot := by
  unfold ConstantTable.optionalClassName at h
  split at h
  · cases h
  · obtain ⟨found, hfound, hname⟩ := exceptMap_eq_ok_iff.mp h
    obtain rfl := Option.some.inj hname
    exact ConstantTree.shown_classNamed_iff.mpr hfound

/-- The classes that a header names. -/
theorem refersTo_of_header {version : Version} {flags : ClassFlags} {name : String}
    {super : Option String} {interfaces : List String} {count : Nat}
    (h : file.header = .ok (.header version flags name super interfaces, count)) {other : String}
    (mem : other ∈ name :: (super.toList ++ interfaces)) :
    file.RefersTo extents (.classNamed other) := by
  obtain ⟨_, hinterfaces, h⟩ := exceptBind_eq_ok_iff.mp h
  obtain ⟨_, hname, h⟩ := exceptBind_eq_ok_iff.mp h
  obtain ⟨_, -, h⟩ := exceptBind_eq_ok_iff.mp h
  obtain ⟨_, hsuper, h⟩ := exceptBind_eq_ok_iff.mp h
  cases h
  obtain rfl | mem := List.mem_cons.mp mem
  · obtain ⟨slot, found, hname⟩ := exceptBind_eq_ok_iff.mp hname
    exact ⟨slot, .thisClass found, ConstantTree.shown_classNamed_iff.mpr hname⟩
  obtain mem | mem := List.mem_append.mp mem
  · obtain ⟨slot, found, hsuper⟩ := exceptBind_eq_ok_iff.mp hsuper
    rw [Option.mem_toList.mp mem] at hsuper
    exact ⟨slot, .superClass found, shown_of_optionalClassName hsuper⟩
  · obtain ⟨slot, listed, shown⟩ := exists_listed_of_classNames hinterfaces mem
    exact ⟨slot, .interface listed, shown⟩

/-- The name and the descriptor of a member. -/
theorem refersTo_of_member (mem : member ∈ extents.fields ++ extents.methods)
    {first second : UInt16} {name descriptor : String}
    (found : file.bytes.u16 (member.start + 2) = .ok first)
    (hname : file.constants.text first = .ok name)
    (found' : file.bytes.u16 (member.start + 4) = .ok second)
    (hdescriptor : file.constants.text second = .ok descriptor) :
    ∀ content ∈ [name, descriptor], file.RefersTo extents (.text content) :=
  List.forall_mem_cons.mpr
    ⟨⟨first, .member mem (.name found), ConstantTree.shown_text_iff.mpr hname⟩,
      List.forall_mem_singleton.mpr
        ⟨second, .member mem (.descriptor found'), ConstantTree.shown_text_iff.mpr hdescriptor⟩⟩

/-- What a field names, and where its value is read. -/
theorem refersTo_of_readField {flags : FieldFlags} {name descriptor : String}
    {value : Option Literal} (mem : member ∈ extents.fields)
    (h : file.readField member = .ok (.field flags name descriptor value)) :
    (∀ content ∈ [name, descriptor], file.RefersTo extents (.text content)) ∧
      ∀ literal ∈ value, ∃ range ∈ member.attributes, range.name = "ConstantValue" ∧
        ∃ slot, file.Cites extents slot ∧ file.constants.literal slot = .ok literal := by
  obtain ⟨_, -, h⟩ := exceptBind_eq_ok_iff.mp h
  obtain ⟨first, found, h⟩ := exceptBind_eq_ok_iff.mp h
  obtain ⟨text, hname, h⟩ := exceptBind_eq_ok_iff.mp h
  obtain ⟨second, found', h⟩ := exceptBind_eq_ok_iff.mp h
  obtain ⟨text', hdescriptor, h⟩ := exceptBind_eq_ok_iff.mp h
  have texts := refersTo_of_member (List.mem_append_left extents.methods mem) found hname found'
    hdescriptor
  split at h
  · cases h
    exact ⟨texts, nofun⟩
  · rename_i range hrange
    obtain ⟨slot, hslot, h⟩ := exceptBind_eq_ok_iff.mp h
    obtain ⟨literal, hliteral, h⟩ := exceptBind_eq_ok_iff.mp h
    cases h
    refine ⟨texts, fun other valued => ?_⟩
    obtain rfl := Option.some.inj valued
    obtain ⟨held, named⟩ := mem_and_named_of_find? hrange
    exact ⟨range, held, named, slot, .value mem held named hslot, hliteral⟩

/-- What a method names before its code. -/
theorem refersTo_of_readMethod {header : MethodHeader} (mem : member ∈ extents.methods)
    (h : file.readMethod member = .ok header) :
    (∀ content ∈ [header.name, header.descriptor], file.RefersTo extents (.text content)) ∧
      ∀ name ∈ header.exceptions, file.RefersTo extents (.classNamed name) ∧
        ∃ range ∈ member.attributes, range.name = "Exceptions" := by
  obtain ⟨_, -, h⟩ := exceptBind_eq_ok_iff.mp h
  obtain ⟨first, found, h⟩ := exceptBind_eq_ok_iff.mp h
  obtain ⟨name, hname, h⟩ := exceptBind_eq_ok_iff.mp h
  obtain ⟨second, found', h⟩ := exceptBind_eq_ok_iff.mp h
  obtain ⟨descriptor, hdescriptor, h⟩ := exceptBind_eq_ok_iff.mp h
  obtain ⟨tables, htables, h⟩ := exceptBind_eq_ok_iff.mp h
  obtain rfl := Except.ok.inj h
  refine ⟨refersTo_of_member (List.mem_append_right extents.fields mem) found hname found'
    hdescriptor, fun other hother => ?_⟩
  obtain ⟨names, hnames, hother⟩ := List.mem_flatten.mp hother
  obtain ⟨range, hrange, read⟩ := exists_left (mapM_eq_ok_iff.mp htables) hnames
  obtain ⟨held, named⟩ := List.mem_filter.mp hrange
  have named : range.name = "Exceptions" := of_decide_eq_true named
  obtain ⟨slot, listed, shown⟩ := exists_listed_of_classNames read hother
  exact ⟨⟨slot, .exception mem held named listed, shown⟩, range, held, named⟩

/-- Every bootstrap method of a class is listed in one of its attributes. -/
theorem exists_of_mem_bootstraps {attributes : List AttributeRange} {entry : Bootstrap}
    (mem : entry ∈ (file.bootstraps attributes).toList) :
    ∃ range ∈ attributes, range.name = "BootstrapMethods" ∧
      ∃ entries, file.readBootstraps range = .ok entries ∧ entry ∈ entries := by
  unfold bootstraps at mem
  split at mem
  · cases mem
  · rename_i range last
    obtain ⟨mem', named⟩ := List.mem_filter.mp (List.mem_of_getLast? last)
    split at mem
    · rename_i entries read
      exact ⟨range, mem', of_decide_eq_true named, entries, read, by simpa using mem⟩
    · cases mem

/-- The exception of a handler. -/
theorem exists_cited_exception {body : BodyRecord} {bootstraps : Array Bootstrap} {o : Outline}
    (shows : body.Shows file.constants bootstraps o) {block : TryBlock Nat} (mem : block ∈ o.blocks)
    {name : String} (caught : block.exception = some name) :
    ∃ slot, file.CodeCites range body slot ∧
      (ConstantTree.classNamed name).Shown file.constants slot := by
  have told : block.map body.startAt ∈ (o.map body.startAt).blocks := List.mem_map_of_mem mem
  obtain ⟨handler, held, stands⟩ := exists_right shows.reads.handlers told
  have exception : _ = Except.ok block.exception := stands.exception
  rw [caught] at exception
  exact ⟨_, .handler held, shown_of_optionalClassName exception⟩

/-- Lines come from tables among the attributes of the code. -/
theorem ReadsBody.exists_lineTable {body : BodyRecord} (reads : file.ReadsBody range body)
    (some : body.lines ≠ []) :
    ∃ slot, file.CodeCites range body slot ∧
      (ConstantTree.text "LineNumberTable").Shown file.constants slot := by
  obtain ⟨count, hcount, -, attributes, stop, parts, hattributes, hparts, hlines⟩ := reads.tables
  obtain ⟨line, mem⟩ := List.exists_mem_of_ne_nil body.lines some
  rw [hlines] at mem
  obtain ⟨part, hpart, -⟩ := List.mem_flatten.mp mem
  obtain ⟨table, htable, -⟩ := exists_left (mapM_eq_ok_iff.mp hparts) hpart
  obtain ⟨mem, named⟩ := List.mem_filter.mp htable
  have named : table.name = "LineNumberTable" := of_decide_eq_true named
  obtain ⟨slot, hslot, shown⟩ :=
    names_of_readAttributes hattributes mem (by simp [named, keptAttributes])
  rw [named] at shown
  exact ⟨slot, .nested hcount hattributes mem hslot, shown⟩

end ClassFile

end JavaClass
