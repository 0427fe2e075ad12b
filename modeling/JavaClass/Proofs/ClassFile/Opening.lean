import JavaClass.ClassFile.Basic
import JavaClass.Proofs.Bytes.Reading

/-!
# What stands at the front of a class file

A class file is opened if it starts with the magic number, a version and a
constant pool, and if the version is not too new. What the file is does not
depend on the last of these.
-/

namespace JavaClass

/-- A version is read unless it is too new. -/
theorem Version.read_eq_ok_iff {bytes : Bytes} {index : Nat} {version : Version} :
    read bytes index = .ok version ↔ bytes.u16 index = .ok version.minor ∧
      bytes.u16 (index + 2) = .ok version.major ∧ version.major ≤ latestMajor := by
  unfold read
  constructor
  · intro h
    obtain ⟨minor, hminor, h⟩ := exceptBind_eq_ok_iff.mp h
    obtain ⟨major, hmajor, h⟩ := exceptBind_eq_ok_iff.mp h
    by_cases hnew : latestMajor < major
    · simp only [if_pos hnew] at h
      cases h
    · simp only [if_neg hnew] at h
      obtain rfl := Except.ok.inj h
      exact ⟨hminor, hmajor, UInt16.not_lt.mp hnew⟩
  · rintro ⟨hminor, hmajor, supported⟩
    simp only [hminor, hmajor, bind, Except.bind, if_neg (UInt16.not_lt.mpr supported)]
    rfl

namespace ClassFile

/-- The bytes start with what the file says, however new its version is. -/
structure Opens (file : ClassFile) (bytes : Bytes) : Prop where
  bytes_eq : file.bytes = bytes
  magic : bytes.u32 0 = .ok JavaClass.magic
  minor : bytes.u16 4 = .ok file.version.minor
  major : bytes.u16 6 = .ok file.version.major
  constants : ConstantTable.read bytes 8 = .ok (file.constants, file.headerStart)

variable {bytes : Bytes} {file file' : ClassFile}

/-- A class file is opened unless its version is too new. -/
theorem read_eq_ok_iff :
    read bytes = .ok file ↔ file.Opens bytes ∧ file.version.major ≤ Version.latestMajor := by
  unfold read
  constructor
  · intro h
    obtain ⟨number, hnumber, h⟩ := exceptBind_eq_ok_iff.mp h
    by_cases hmagic : number ≠ magic
    · rw [if_pos hmagic] at h
      cases h
    rw [if_neg hmagic] at h
    obtain ⟨version, hversion, h⟩ := exceptBind_eq_ok_iff.mp h
    obtain ⟨⟨constants, headerStart⟩, hconstants, h⟩ := exceptBind_eq_ok_iff.mp h
    obtain rfl := Except.ok.inj h
    obtain ⟨hminor, hmajor, supported⟩ := Version.read_eq_ok_iff.mp hversion
    exact ⟨⟨rfl, not_not.mp hmagic ▸ hnumber, hminor, hmajor, hconstants⟩, supported⟩
  · rintro ⟨⟨rfl, hmagic, hminor, hmajor, hconstants⟩, supported⟩
    have hversion := Version.read_eq_ok_iff.mpr ⟨hminor, hmajor, supported⟩
    rw [hmagic]
    simp only [bind, Except.bind, ne_eq, not_true, if_false]
    rw [hversion]
    simp only [hconstants]
    rfl

/-- Bytes start with one file at most. -/
theorem Opens.unique (opens : file.Opens bytes) (opens' : file'.Opens bytes) : file = file' := by
  have hminor := Except.ok.inj (opens.minor.symm.trans opens'.minor)
  have hmajor := Except.ok.inj (opens.major.symm.trans opens'.major)
  have hconstants := Prod.mk.inj (Except.ok.inj (opens.constants.symm.trans opens'.constants))
  have hbytes := opens.bytes_eq.trans opens'.bytes_eq.symm
  obtain ⟨found, ⟨major, minor⟩, constants, headerStart⟩ := file
  obtain ⟨found', ⟨major', minor'⟩, constants', headerStart'⟩ := file'
  simp only at hminor hmajor hconstants hbytes
  rw [hminor, hmajor, hconstants.1, hconstants.2, hbytes]

end ClassFile

end JavaClass
