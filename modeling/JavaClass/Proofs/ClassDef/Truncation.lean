import JavaClass.Proofs.Assembly.Runs
import JavaClass.Proofs.ClassFile.Failures
import JavaClass.Proofs.ClassFile.Growth

/-!
# Class files that are cut off

A class file says where it ends. More bytes behind it do not change what is
decoded, and a file that was written can lose none of its bytes: whatever is
missing at the end, decoding misses it.

## Implementation notes

All that is needed of a file that was written is that its tables follow each
other up to its last byte. Its code may be such that it cannot be decoded even
with all bytes there, and its version such that it cannot be opened.
-/

namespace JavaClass

open ConstantPool

theorem ClassFile.exists_header_event {file : ClassFile} {event : Event} {count : Nat}
    (h : file.header = .ok (event, count)) :
    ∃ version flags name super interfaces, event = .header version flags name super interfaces := by
  unfold header at h
  obtain ⟨interfaces, -, h⟩ := exceptBind_eq_ok_iff.mp h
  obtain ⟨name, -, h⟩ := exceptBind_eq_ok_iff.mp h
  obtain ⟨flags, -, h⟩ := exceptBind_eq_ok_iff.mp h
  obtain ⟨super, -, h⟩ := exceptBind_eq_ok_iff.mp h
  exact ⟨_, _, _, _, _, (congrArg Prod.fst (Except.ok.inj h)).symm⟩

/-- If the members and attributes of a file are not found, then the file is not decoded, for the
same reason. -/
theorem ClassDef.decode_of_readExtents {bytes : Bytes} {error : Error}
    (h : ClassFile.readExtents bytes = .error error) : decode bytes = .error error := by
  unfold decode
  unfold ClassFile.readExtents at h
  cases hread : ClassFile.read bytes with
  | error found =>
      rw [hread] at h
      obtain rfl := Except.error.inj h
      rfl
  | ok file =>
      rw [hread] at h
      simp only [bind, Except.bind] at h ⊢
      unfold ClassFile.extents at h
      cases hheader : file.header with
      | error found =>
          rw [hheader] at h
          obtain rfl := Except.error.inj h
          simp only [ofTranscript, ClassFile.transcript, hheader]
          rfl
      | ok found =>
          obtain ⟨event, count⟩ := found
          rw [hheader] at h
          have hlayout : file.layout count = .error error := h
          obtain ⟨version, flags, name, super, interfaces, rfl⟩ :=
            ClassFile.exists_header_event hheader
          simp only [ofTranscript, ClassFile.transcript, hheader, Transcript.withResult, hlayout]
          rfl

section Written

variable {parts : ClassParts} {bootstraps : Array Bootstrap} {story : ClassStory}
  {content : List UInt8}

/-- The tables of a file that was written follow each other up to its end. -/
theorem ClassParts.reaches_readExtents (valid : parts.pool.Valid)
    (supported : parts.header.version.major ≤ Version.latestMajor)
    (h : parts.encode = .ok content)
    (frame : FrameShown ⟨parts.pool.entries⟩ bootstraps story parts)
    (methods : ∀ part ∈ parts.methods, ∀ a ∈ part.attributes, a.Readable ⟨parts.pool.entries⟩)
    (small : 2 + (bootstraps.toList.map Bootstrap.size).sum < 2 ^ 32) :
    ∃ layout, Bytes.Reaches content.toArray ClassFile.readExtents layout 0 content.length := by
  obtain ⟨file, hread, within⟩ :=
    ClassParts.read_eq valid.writable supported h (Bytes.holds_all content)
  rw [← within.constants] at frame methods
  obtain ⟨fields, methodStart, members, attributeStart, attributes, hfields, hmembers, -, -,
    htable, holds, hstop⟩ := within.exists_members frame.readable_fields methods
  obtain ⟨ranges, hranges, -⟩ :=
    ClassFile.readAttributes_eq (frame.readable_attributes small) htable holds
  rw [← hstop] at hranges
  have hheader := within.header_eq frame.header
  rw [frame.header.interfaces.length_eq] at hheader
  exact ⟨_, ClassFile.reaches_readExtents hread hheader
    (ClassFile.reaches_layout hfields hmembers hranges)⟩

/-- A file that is too new is refused before its constants are read. -/
theorem ClassParts.read_prefix_of_new (writable : parts.pool.Writable)
    (h : parts.encode = .ok content) (new : Version.latestMajor < parts.header.version.major)
    {front : List UInt8} (cut : front <+: content) :
    ∃ cause, ClassFile.read front.toArray = .error (.malformed cause) := by
  obtain ⟨back, rfl⟩ := cut
  obtain ⟨file, opens, within⟩ := ClassParts.opens writable h (Bytes.holds_all _)
  unfold ClassFile.read
  cases hnumber : Bytes.u32 front.toArray 0 with
  | error error =>
      obtain ⟨cause, rfl⟩ := Bytes.blames_u32 _ _ error hnumber
      exact ⟨cause, rfl⟩
  | ok number =>
      simp only [bind, Except.bind]
      split
      · exact ⟨_, rfl⟩
      · cases hread : Version.read front.toArray 4 with
        | error error =>
            obtain ⟨cause, rfl⟩ := Version.blames_read _ _ error hread
            exact ⟨cause, rfl⟩
        | ok version =>
            have read : Version.read (front.toArray ++ back.toArray) 4 = .ok version :=
              ClassFile.persists_version 4 _ _ _ hread
            rw [List.append_toArray] at read
            obtain ⟨-, major, supported⟩ := Version.read_eq_ok_iff.mp read
            rw [Except.ok.inj (major.symm.trans opens.major), within.version] at supported
            exact absurd new (UInt16.not_lt.mpr supported)

end Written

theorem toArray_take (content : List UInt8) (cut : Nat) :
    (content.take cut).toArray = Bytes.upTo content.toArray cut := by
  simp [Bytes.upTo]

namespace ClassDef

variable {c : ClassDef} {content : List UInt8}

/-- A file that was written is not decoded if it was cut off. -/
theorem decode_prefix (small : bootstrapTableSize c.story.calls < 2 ^ 32)
    (h : c.encode = .ok content) {front : List UInt8} (cut : front <+: content)
    (short : front ≠ content) : ∃ cause, decode front.toArray = .error (.malformed cause) := by
  obtain ⟨-, draft, takes, hbytes⟩ := encode_eq_ok h
  obtain ⟨parts, bootstraps, hencode, valid, frame, methods, nodup, hfrom⟩ :=
    ClassDraft.takes_frame (fun method _ => ClassDraft.addsMethod_readable method) takes hbytes
  by_cases supported : parts.header.version.major ≤ Version.latestMajor
  · have readable : ∀ part ∈ parts.methods, ∀ a ∈ part.attributes,
        a.Readable ⟨parts.pool.entries⟩ := by
      intro part hpart
      obtain ⟨method, -, readable⟩ := exists_left methods hpart
      exact readable
    have hsmall := Nat.lt_of_le_of_lt (sum_entries_le valid nodup hfrom) small
    obtain ⟨layout, reaches⟩ :=
      ClassParts.reaches_readExtents valid supported hencode frame readable hsmall
    have hlt : front.length < content.length :=
      Nat.lt_of_le_of_ne cut.length_le fun same => short (cut.eq_of_length same)
    obtain ⟨length, index, missed⟩ := reaches.misses front.length (Nat.zero_le _) hlt
    rw [← toArray_take, ← List.prefix_iff_eq_take.mp cut] at missed
    exact ⟨_, decode_of_readExtents missed⟩
  · rw [UInt16.not_le] at supported
    obtain ⟨cause, refused⟩ := ClassParts.read_prefix_of_new valid.writable hencode supported cut
    refine ⟨cause, ?_⟩
    unfold decode
    rw [refused]
    rfl

/-- Class files are delimited by themselves: what is decoded is decoded whatever bytes follow, and
no file that was written is decoded without its last bytes. -/
theorem decode_delimits :
    (∀ (bytes more : Bytes) (c : ClassDef), decode bytes = .ok c → decode (bytes ++ more) = .ok c) ∧
    ∀ (c : ClassDef) (content front : List UInt8), bootstrapTableSize c.story.calls < 2 ^ 32 →
      c.encode = .ok content → front <+: content → front ≠ content →
        ∃ cause, decode front.toArray = .error (.malformed cause) :=
  ⟨fun _ more _ decoded => decode_append decoded more,
    fun _ _ _ small encoded cut short => decode_prefix small encoded cut short⟩

theorem decode_delimits_watcher : ∃ content c, watcher.encode = .ok content ∧
    decode content.toArray = .ok c ∧ decode (content.toArray ++ #[0]) = .ok c ∧
      ∃ cause, decode content.dropLast.toArray = .error (.malformed cause) := by
  have hencoded : (watcher.encode.map List.isEmpty).toOption = some false := by decide +kernel
  have documented : watcher.Documented := by decide +kernel
  have small : bootstrapTableSize watcher.story.calls < 2 ^ 32 := by decide +kernel
  cases hencode : watcher.encode with
  | error error =>
      rw [hencode] at hencoded
      cases hencoded
  | ok content =>
      rw [hencode] at hencoded
      have nonempty : content.isEmpty = false := Option.some.inj hencoded
      obtain ⟨-, c, decoded, -⟩ := exists_decode documented (by decide) small hencode
      have short : content.dropLast ≠ content := by
        intro same
        have lengths := congrArg List.length same
        have positive := List.length_pos_iff.mpr (List.isEmpty_eq_false_iff.mp nonempty)
        rw [List.length_dropLast] at lengths
        omega
      exact ⟨content, c, rfl, decoded, decode_delimits.1 _ #[0] c decoded,
        decode_delimits.2 watcher content _ small hencode content.dropLast_prefix short⟩

end ClassDef

end JavaClass
