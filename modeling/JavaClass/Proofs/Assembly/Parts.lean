import JavaClass.Assembly.MethodDraft
import JavaClass.ClassFile.Transcript
import JavaClass.Proofs.Bytes.Reading
import JavaClass.Proofs.Constant.Requests

/-!
# Attributes and tables that are read back

Wherever a class file holds the bytes of a settled attribute, reading it gives
its name and the place of its contents. The same goes for attribute tables, for
tables of slots and for bootstrap methods.

## Implementation notes

The length of an attribute is written with 32 bits, so an attribute is only
found again if its contents are shorter than that allows. The last attribute of
a table is found in any case: nothing is sought behind it, and all that its
length is used for is to check that there are as many bytes.
-/

namespace JavaClass

open BigEndian ConstantPool

/-- An attribute whose name can be looked up and whose length can be written. -/
structure EncodedAttribute.Readable (table : ConstantTable) (a : EncodedAttribute) : Prop where
  text : ∃ name, table.text a.name = .ok name
  small : a.contents.length < 2 ^ 32

/-- The place of the contents of an attribute. -/
structure EncodedAttribute.At (file : ClassFile) (a : EncodedAttribute) (range : AttributeRange) :
    Prop where
  name : file.constants.text a.name = .ok range.name
  length : range.length = a.contents.length
  holds : file.bytes.Holds range.start a.contents

/-- The place where the contents of an attribute start, whatever length was announced. -/
structure EncodedAttribute.Starts (file : ClassFile) (a : EncodedAttribute)
    (range : AttributeRange) : Prop where
  name : file.constants.text a.name = .ok range.name
  holds : file.bytes.Holds range.start a.contents

theorem EncodedAttribute.At.starts {file : ClassFile} {a : EncodedAttribute}
    {range : AttributeRange} (covers : a.At file range) : a.Starts file range :=
  ⟨covers.name, covers.holds⟩

/-- The place of a field or a method. -/
structure EncodedMember.At (file : ClassFile) (part : EncodedMember) (member : MemberRange) :
    Prop where
  flags : file.bytes.u16 member.start = .ok part.flags
  name : file.bytes.u16 (member.start + 2) = .ok part.name
  descriptor : file.bytes.u16 (member.start + 4) = .ok part.descriptor
  attributes : List.Forall₂ (EncodedAttribute.At file) part.attributes member.attributes

namespace ConstantPool.Request

theorem gives_throw {α : Type} (error : Error) (post : ConstantTable → α → Prop) :
    Gives (throw error) post := by
  intro pool result pool' _ h
  cases h

theorem gives_settled {α : Type} (result : Except Error α) :
    Gives (MethodDraft.settled result) fun _ value => result = .ok value := by
  cases result with
  | ok value => exact gives_pure value fun _ => rfl
  | error error => exact gives_throw error _

theorem gives_named (name : String) (contents : Except Error (List UInt8)) :
    Gives (named name contents) fun table a =>
      table.text a.name = .ok name ∧ contents = .ok a.contents := by
  refine (gives_text name).bind
    (?contents : ∀ slot, Gives _ fun _ a => a.name = slot ∧ contents = .ok a.contents) ?_
  case contents =>
    intro slot
    cases contents with
    | ok contents => exact gives_pure _ fun _ => ⟨rfl, rfl⟩
    | error error => exact gives_throw error _
  rintro table slot a hslot ⟨rfl, hcontents⟩
  exact ⟨hslot.2, hcontents⟩

end ConstantPool.Request

namespace ClassFile

variable {file : ClassFile} {index : Nat}

theorem readAttribute_eq {a : EncodedAttribute} (readable : a.Readable file.constants)
    (holds : file.bytes.Holds index a.encode) :
    ∃ range, file.readAttribute index = .ok (range, index + a.encode.length) ∧
      a.At file range := by
  obtain ⟨name, htext⟩ := readable.text
  have hcontents : file.bytes.Holds (index + 6) a.contents := holds.right.right
  have hname : file.bytes.u16 index = .ok a.name := holds.left.u16
  have hlength : file.bytes.u32 (index + 2) = .ok (UInt32.ofNat a.contents.length) :=
    holds.right.left.u32_ofNat readable.small
  have hnat : (UInt32.ofNat a.contents.length).toNat = a.contents.length :=
    UInt32.toNat_ofNat_of_lt' readable.small
  refine ⟨⟨name, index + 6, a.contents.length⟩, ?_, htext, rfl, hcontents⟩
  have hstop : index + 6 + a.contents.length = index + a.encode.length := by
    simp only [EncodedAttribute.encode, encodeBlock, u16, List.length_append, length_ofNat]
    omega
  unfold readAttribute
  simp only [bind, Except.bind, hname, htext, hlength, hnat, hcontents.check]
  rw [hstop]
  rfl

/-- An attribute of any length is found, though not always where the next one would start. -/
theorem exists_readAttribute {a : EncodedAttribute}
    (named : ∃ name, file.constants.text a.name = .ok name)
    (holds : file.bytes.Holds index a.encode) :
    ∃ range stop, file.readAttribute index = .ok (range, stop) ∧ a.Starts file range := by
  obtain ⟨name, htext⟩ := named
  have hcontents : file.bytes.Holds (index + 6) a.contents := holds.right.right
  have hname : file.bytes.u16 index = .ok a.name := holds.left.u16
  have hlength : file.bytes.u32 (index + 2) =
      .ok (UInt32.ofNat (a.contents.length % 2 ^ 32)) := holds.right.left.u32_mod
  have hnat : (UInt32.ofNat (a.contents.length % 2 ^ 32)).toNat = a.contents.length % 2 ^ 32 :=
    UInt32.toNat_ofNat_of_lt' (Nat.mod_lt _ (by decide))
  -- what is announced is at most what there is
  have hcheck : file.bytes.check (index + 6) (a.contents.length % 2 ^ 32) = .ok () := by
    have hbound := hcontents.bound
    have hle := Nat.mod_le a.contents.length (2 ^ 32)
    rw [Bytes.check, if_pos (by omega)]
  refine ⟨⟨name, index + 6, a.contents.length % 2 ^ 32⟩,
    index + 6 + a.contents.length % 2 ^ 32, ?_, htext, hcontents⟩
  unfold readAttribute
  simp only [bind, Except.bind, hname, htext, hlength, hnat, hcheck]
  rfl

/-- A written attribute table is read back. -/
theorem readAttributes_eq {attributes : List EncodedAttribute} {part : List UInt8}
    (readable : ∀ a ∈ attributes, a.Readable file.constants)
    (h : encodeTable (fun a => .ok (EncodedAttribute.encode a)) attributes = .ok part)
    (holds : file.bytes.Holds index part) :
    ∃ ranges, file.readAttributes index = .ok (ranges, index + part.length) ∧
      List.Forall₂ (EncodedAttribute.At file) attributes ranges := by
  obtain ⟨hbound, parts, hparts, rfl⟩ := encodeTable_eq_ok h
  have hlength := hparts.length_eq
  refine readCounted_eq (forall₂_imp_mem hparts fun a ha part _ hpart i hi => ?_) (by omega) holds
  obtain rfl := Except.ok.inj hpart
  exact readAttribute_eq (readable a ha) hi

/-- A written attribute table is read back, also if the last length in it was cut. -/
theorem exists_readAttributes {front last : List EncodedAttribute} {part : List UInt8}
    (readable : ∀ a ∈ front, a.Readable file.constants)
    (named : ∀ a ∈ last, ∃ name, file.constants.text a.name = .ok name) (short : last.length ≤ 1)
    (h : encodeTable (fun a => .ok (EncodedAttribute.encode a)) (front ++ last) = .ok part)
    (holds : file.bytes.Holds index part) :
    ∃ ranges stop, file.readAttributes index = .ok (ranges, stop) ∧
      List.Forall₂ (EncodedAttribute.Starts file) (front ++ last) ranges := by
  obtain ⟨hbound, parts, hparts, rfl⟩ := encodeTable_eq_ok h
  have hlength := hparts.length_eq
  obtain ⟨first, second, rfl, hfirst, hsecond⟩ := forall₂_append_left hparts
  have hcount : file.bytes.u16 index = .ok (UInt16.ofNat (first ++ second).length) :=
    holds.left.u16_ofNat (by omega)
  have hrun := holds.right
  rw [length_ofNat, List.flatten_append] at hrun
  have hread : List.Forall₂ (fun a part => ∀ i, file.bytes.Holds i part → ∃ range,
      file.readAttribute i = .ok (range, i + part.length) ∧ a.At file range) front first := by
    refine forall₂_imp_mem hfirst fun a ha part _ hpart i hi => ?_
    obtain rfl := Except.ok.inj hpart
    exact readAttribute_eq (readable a ha) hi
  obtain ⟨ranges, hranges, hcovers⟩ := readRun_eq hread hrun.left []
  have hstarts := hcovers.imp fun _ _ covers => covers.starts
  have hcounted : file.readAttributes index = readRun file.readAttribute
      (index + 2 + first.flatten.length) second.length ranges.reverse := by
    have hnat := UInt16.toNat_ofNat_of_lt' (hlength ▸ hbound : _ < UInt16.size)
    unfold readAttributes readCounted
    simp only [hcount, bind, Except.bind, hnat]
    rw [List.length_append, readRun_add hranges]
    rfl
  rw [hcounted]
  match last, second, hsecond with
  | [], [], .nil =>
      refine ⟨ranges, index + 2 + first.flatten.length, ?_, by simpa using hstarts⟩
      rw [List.length_nil, readRun, List.reverse_reverse]
  | [a], [_], .cons hpart .nil =>
      obtain rfl := Except.ok.inj hpart
      have htail := hrun.right
      rw [List.flatten_singleton] at htail
      obtain ⟨range, stop, hrange, hstart⟩ := exists_readAttribute (named a (by simp)) htail
      refine ⟨ranges ++ [range], stop, ?_, List.rel_append hstarts (.cons hstart .nil)⟩
      rw [List.length_singleton, readRun, hrange]
      simp only [readRun, List.reverse_cons, List.reverse_reverse]

theorem readMember_eq {part : EncodedMember} {encoded : List UInt8}
    (readable : ∀ a ∈ part.attributes, a.Readable file.constants)
    (h : part.encode = .ok encoded) (holds : file.bytes.Holds index encoded) :
    ∃ member, file.readMember index = .ok (member, index + encoded.length) ∧
      part.At file member := by
  unfold EncodedMember.encode at h
  cases hattributes : encodeTable (fun a => .ok (EncodedAttribute.encode a)) part.attributes with
  | error error => rw [hattributes] at h; cases h
  | ok attributes =>
      rw [hattributes] at h
      obtain rfl := Except.ok.inj h
      have hname := holds.left.left.right.u16
      have hdescriptor := holds.left.right.u16
      have htable : file.bytes.Holds (index + 6) attributes :=
        holds.right.of_index (by simp [u16])
      simp only [u16, List.length_append, length_ofNat] at hname hdescriptor
      obtain ⟨ranges, hranges, hcovers⟩ := readAttributes_eq readable hattributes htable
      refine ⟨⟨index, ranges⟩, ?_, holds.left.left.left.u16, hname, hdescriptor, hcovers⟩
      have hstop : index + 6 + attributes.length = index +
          (u16 part.flags ++ u16 part.name ++ u16 part.descriptor ++ attributes).length := by
        simp only [u16, List.length_append, length_ofNat]
        omega
      unfold readMember
      simp only [hranges, bind, Except.bind, hstop]
      rfl

/-- A written table of fields or of methods is read back. -/
theorem readMembers_eq {parts : List EncodedMember} {encoded : List UInt8}
    (readable : ∀ part ∈ parts, ∀ a ∈ part.attributes, a.Readable file.constants)
    (h : encodeTable EncodedMember.encode parts = .ok encoded)
    (holds : file.bytes.Holds index encoded) :
    ∃ members, file.readMembers index = .ok (members, index + encoded.length) ∧
      List.Forall₂ (EncodedMember.At file) parts members := by
  obtain ⟨hbound, bytes, hbytes, rfl⟩ := encodeTable_eq_ok h
  have hlength := hbytes.length_eq
  refine readCounted_eq (forall₂_imp_mem hbytes fun part hpart bytes _ hencode i hi => ?_)
    (by omega) holds
  exact readMember_eq (readable part hpart) hencode hi

/-- A written table of classes is read back. -/
theorem classNames_eq {names : List String} {slots : List UInt16} {encoded : List UInt8}
    (hslots : List.Forall₂ (fun name slot => file.constants.className slot = .ok name) names slots)
    (h : encodeSlots slots = .ok encoded) (holds : file.bytes.Holds index encoded) :
    file.classNames index = .ok names := by
  obtain ⟨hbound, parts, hparts, rfl⟩ := encodeTable_eq_ok h
  have hlength := hparts.length_eq
  have hcount : (UInt16.ofNat parts.length).toNat = parts.length :=
    UInt16.toNat_ofNat_of_lt' (by change _ < 65536; omega)
  have htable := holds.right
  rw [length_ofNat] at htable
  unfold classNames
  simp only [holds.left.u16_ofNat (by omega), bind, Except.bind, hcount]
  refine readEach_eq ?_ htable
  clear hcount hbound h holds hlength htable
  induction hslots generalizing parts with
  | nil =>
      cases hparts
      exact .nil
  | @cons name slot names slots hname _ ih =>
      obtain ⟨part, rest, hpart, hrest, rfl⟩ := List.forall₂_cons_left_iff.mp hparts
      obtain rfl := Except.ok.inj hpart
      refine .cons ⟨by simp [u16], fun i hi => ?_⟩ (ih rest hrest)
      simp only [hi.u16, hname]

/-- A written bootstrap method is read back. -/
theorem readBootstrap_eq {bootstrap : Bootstrap} {encoded : List UInt8}
    (h : bootstrap.encode = .ok encoded) (holds : file.bytes.Holds index encoded) :
    (do
      let method ← file.bytes.u16 index
      let count := (← file.bytes.u16 (index + 2)).toNat
      let arguments ← readEach file.bytes.u16 2 (index + 4) count
      return ((⟨method, arguments⟩ : Bootstrap), index + 4 + 2 * count)) =
      .ok (bootstrap, index + encoded.length) := by
  unfold Bootstrap.encode at h
  cases hslots : encodeSlots bootstrap.arguments with
  | error error => rw [hslots] at h; cases h
  | ok slots =>
      rw [hslots] at h
      obtain rfl := Except.ok.inj h
      obtain ⟨hbound, parts, hparts, rfl⟩ := encodeTable_eq_ok hslots
      have hlength := hparts.length_eq
      have hcount : (UInt16.ofNat parts.length).toNat = parts.length :=
        UInt16.toNat_ofNat_of_lt' (by change _ < 65536; omega)
      have hcounted : file.bytes.Holds (index + 2) (ofNat 2 parts.length) := holds.right.left
      have htable : file.bytes.Holds (index + 4) parts.flatten := holds.right.right
      have hwidth : parts.flatten.length = 2 * parts.length := by
        refine length_flatten_of_width fun part hpart => ?_
        obtain ⟨slot, -, hslot⟩ := exists_left hparts hpart
        rw [← Except.ok.inj hslot]
        simp [u16]
      have hread : readEach file.bytes.u16 2 (index + 4) parts.length =
          .ok bootstrap.arguments := by
        refine readEach_eq (hparts.imp fun slot part hpart => ?_) htable
        obtain rfl := Except.ok.inj hpart
        exact ⟨by simp [u16], fun i hi => hi.u16⟩
      have hstop : index + 4 + 2 * parts.length =
          index + (u16 bootstrap.method ++ (ofNat 2 parts.length ++ parts.flatten)).length := by
        simp only [u16, List.length_append, length_ofNat, hwidth]
        omega
      simp only [holds.left.u16, hcounted.u16_ofNat (by omega), bind, Except.bind, hcount, hread,
        hstop]
      rfl

/-- A written table of bootstrap methods is read back. -/
theorem readBootstraps_eq {bootstraps : List Bootstrap} {a : EncodedAttribute}
    {range : AttributeRange} (h : encodeTable Bootstrap.encode bootstraps = .ok a.contents)
    (starts : a.Starts file range) : file.readBootstraps range = .ok bootstraps := by
  obtain ⟨hbound, parts, hparts, hcontents⟩ := encodeTable_eq_ok h
  have hlength := hparts.length_eq
  have hholds := starts.holds
  rw [hcontents] at hholds
  obtain ⟨found, hread, hfound⟩ := ClassFile.readCounted_eq
    (hparts.imp fun bootstrap part hpart i hi =>
      ⟨bootstrap, readBootstrap_eq hpart hi, rfl⟩) (by omega) hholds
  rw [List.forall₂_eq_eq_eq] at hfound
  subst hfound
  exact exceptBind_eq_ok_iff.mpr ⟨_, hread, rfl⟩

end ClassFile

end JavaClass
