import JavaClass.Proofs.ClassFile.Contents
import JavaClass.Proofs.Constant.Reach

/-!
# How far a class file goes

The header of a class file and the extents of its members and attributes follow
each other without gaps, so reading them goes through the file up to the end of
its last attribute. What is cut off there ends unexpectedly.
-/

namespace JavaClass.ClassFile

variable {file : ClassFile} {index stop : Nat}

theorem reaches_readMember {member : MemberRange} (h : file.readMember index = .ok (member, stop)) :
    file.bytes.Reaches (fun bytes => (file.withBytes bytes).readMember index) (member, stop) index
      stop := by
  unfold readMember at h ⊢
  obtain ⟨⟨attributes, next⟩, hattributes, h⟩ := exceptBind_eq_ok_iff.mp h
  obtain ⟨rfl, rfl⟩ := Prod.mk.inj (Except.ok.inj h)
  exact .bind (reaches_readAttributes hattributes (by omega)) (Bytes.reaches_const rfl _)

theorem reaches_readMembers {members : List MemberRange}
    (h : file.readMembers index = .ok (members, stop)) :
    file.bytes.Reaches (fun bytes => (file.withBytes bytes).readMembers index) (members, stop) index
      stop :=
  reaches_readCounted readMember (fun _ _ _ => reaches_readMember) h (Nat.le_refl _)

/-- The tables of the fields, of the methods and of the attributes follow each other. -/
theorem reaches_layout {interfaceCount methodStart attributeStart : Nat}
    {fields methods : List MemberRange} {attributes : List AttributeRange}
    (hfields : file.readMembers (file.headerStart + 8 + 2 * interfaceCount) =
      .ok (fields, methodStart))
    (hmethods : file.readMembers methodStart = .ok (methods, attributeStart))
    (hattributes : file.readAttributes attributeStart = .ok (attributes, stop)) :
    file.bytes.Reaches (fun bytes => (file.withBytes bytes).layout interfaceCount)
      ⟨fields, methods, attributes⟩ (file.headerStart + 8 + 2 * interfaceCount) stop := by
  unfold layout
  refine .bind (reaches_readMembers hfields) (.bind (reaches_readMembers hmethods) ?_)
  exact .bind (reaches_readAttributes hattributes (Nat.le_refl _)) (Bytes.reaches_const rfl _)

theorem reaches_header {event : Event} {count : Nat} (h : file.header = .ok (event, count)) :
    file.bytes.Reaches (fun bytes => (file.withBytes bytes).header) (event, count) file.headerStart
      (file.headerStart + 8 + 2 * count) := by
  unfold header interfaces name flags superName at h ⊢
  obtain ⟨interfaces, hinterfaces, h⟩ := exceptBind_eq_ok_iff.mp h
  obtain ⟨name, hname, h⟩ := exceptBind_eq_ok_iff.mp h
  obtain ⟨flags, hflags, h⟩ := exceptBind_eq_ok_iff.mp h
  obtain ⟨super, hsuper, h⟩ := exceptBind_eq_ok_iff.mp h
  obtain ⟨rfl, rfl⟩ := Prod.mk.inj (Except.ok.inj h)
  obtain ⟨bits, hbits, rfl⟩ := exceptMap_eq_ok_iff.mp hflags
  rw [show file.headerStart + 8 = file.headerStart + 6 + 2 from rfl]
  refine .bind (reaches_classNames hinterfaces (by omega)) ?_
  refine .bind ((reaches_lookUp hname).already (by omega)) ?_
  refine .bind (((Bytes.reaches_u16 hbits (Nat.le_add_right _ _)).map _).already (by omega)) ?_
  refine .bind ((reaches_lookUp hsuper).already (by omega)) ?_
  change Bytes.Reaches _ (fun _ => .ok (Event.header file.version _ _ _ _, _)) _ _ _
  exact Bytes.reaches_const rfl _

/-- What stands in front of the header, and where the header starts. -/
def opening (bytes : Bytes) : Except Error (Version × ConstantTable × Nat) := do
  if (← bytes.u32 0) ≠ magic then malformed .badMagic
  else
    let version ← Version.read bytes 4
    let (constants, headerStart) ← ConstantTable.read bytes 8
    return (version, constants, headerStart)

theorem read_eq_map (bytes : Bytes) : ClassFile.read bytes =
    (opening bytes).map fun (version, constants, headerStart) =>
      ⟨bytes, version, constants, headerStart⟩ := by
  unfold ClassFile.read opening
  cases bytes.u32 0 with
  | error error => rfl
  | ok number =>
      simp only [bind, Except.bind]
      split
      · rfl
      · cases Version.read bytes 4 with
        | error error => rfl
        | ok version =>
            simp only
            cases ConstantTable.read bytes 8 with
            | error error => rfl
            | ok found => rfl

theorem opening_of_read {bytes : Bytes} (h : ClassFile.read bytes = .ok file) :
    file.bytes = bytes ∧ opening bytes = .ok (file.version, file.constants, file.headerStart) := by
  rw [read_eq_map] at h
  obtain ⟨⟨version, constants, headerStart⟩, hopening, rfl⟩ := exceptMap_eq_ok_iff.mp h
  exact ⟨rfl, hopening⟩

theorem reaches_version {bytes : Bytes} {version : Version}
    (h : Version.read bytes index = .ok version) :
    bytes.Reaches (Version.read · index) version index (index + 4) := by
  unfold Version.read at h ⊢
  obtain ⟨minor, hminor, h⟩ := exceptBind_eq_ok_iff.mp h
  obtain ⟨major, hmajor, h⟩ := exceptBind_eq_ok_iff.mp h
  refine .bind (Bytes.reaches_u16 hminor (by omega)) ?_
  refine .bind (Bytes.reaches_u16 hmajor (by omega)) ?_
  refine Bytes.reaches_ite h (fun _ h => ?_) fun _ h => Bytes.reaches_const h _
  cases h

theorem reaches_opening {bytes : Bytes} {version : Version} {constants : ConstantTable}
    {headerStart : Nat} (h : opening bytes = .ok (version, constants, headerStart)) :
    bytes.Reaches opening (version, constants, headerStart) 0 headerStart := by
  unfold opening at h ⊢
  obtain ⟨number, hnumber, h⟩ := exceptBind_eq_ok_iff.mp h
  refine .bind (Bytes.reaches_u32 hnumber (Nat.zero_le _)) ?_
  refine Bytes.reaches_ite h (fun _ h => ?_) fun _ h => ?_
  · cases h
  · obtain ⟨found, hversion, h⟩ := exceptBind_eq_ok_iff.mp h
    obtain ⟨⟨table, stop⟩, htable, h⟩ := exceptBind_eq_ok_iff.mp h
    obtain ⟨rfl, rfl, rfl⟩ : found = version ∧ table = constants ∧ stop = headerStart := by
      simpa using Except.ok.inj h
    refine .bind (reaches_version hversion) (.bind (ConstantTable.reaches_read htable) ?_)
    exact Bytes.reaches_const rfl _

/-- Opens a class file and finds its members and attributes. -/
def readExtents (bytes : Bytes) : Except Error ClassLayout := do
  (← ClassFile.read bytes).extents

theorem reaches_readExtents {bytes : Bytes} {event : Event} {interfaceCount : Nat}
    {layout : ClassLayout} (hread : ClassFile.read bytes = .ok file)
    (hheader : file.header = .ok (event, interfaceCount))
    (hlayout : file.bytes.Reaches (fun bytes => (file.withBytes bytes).layout interfaceCount)
      layout (file.headerStart + 8 + 2 * interfaceCount) stop) :
    bytes.Reaches readExtents layout 0 stop := by
  obtain ⟨rfl, hopening⟩ := opening_of_read hread
  have readExtents_eq : readExtents = fun bytes => opening bytes >>= fun opened =>
      (⟨bytes, opened.1, opened.2.1, opened.2.2⟩ : ClassFile).extents := by
    funext bytes
    rw [readExtents, read_eq_map]
    cases opening bytes with
    | error error => rfl
    | ok opened => rfl
  rw [readExtents_eq]
  refine .bind (reaches_opening hopening) ?_
  unfold extents
  exact .bind (reaches_header hheader) hlayout

end JavaClass.ClassFile
