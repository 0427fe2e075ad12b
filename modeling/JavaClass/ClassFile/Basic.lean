import JavaClass.AccessFlags
import JavaClass.Constant.Table

/-!
# Class files

A class file that is being read. Opening one checks the magic number and the
version and reads the constant pool; everything behind the pool is read when it
is asked for.

## Implementation notes

The minor number of the version comes first in the file. Numbers behind the
pool are found by their distance from the end of the pool.
-/

namespace JavaClass

/-- Reads the version at an index, which must not be newer than the newest that is understood. -/
def Version.read (bytes : Bytes) (index : Nat) : Except Error Version := do
  let minor ← bytes.u16 index
  let major ← bytes.u16 (index + 2)
  let version : Version := ⟨major, minor⟩
  if latestMajor < major then malformed (.unsupportedVersion version)
  else return version

/-- The bytes of a version. -/
def Version.encode (version : Version) : List UInt8 :=
  BigEndian.u16 version.minor ++ BigEndian.u16 version.major

/-- The number that every class file starts with. -/
def magic : UInt32 := 0xCAFEBABE

/-- An open class file. -/
structure ClassFile where
  bytes : Bytes
  version : Version
  constants : ConstantTable
  /-- Where the constant pool ends. -/
  headerStart : Nat

namespace ClassFile

/-- Opens a class file. -/
def read (bytes : Bytes) : Except Error ClassFile := do
  if (← bytes.u32 0) ≠ magic then malformed .badMagic
  else
    let version ← Version.read bytes 4
    let (constants, headerStart) ← ConstantTable.read bytes 8
    return ⟨bytes, version, constants, headerStart⟩

def flags (file : ClassFile) : Except Error ClassFlags :=
  (file.bytes.u16 file.headerStart).map (.ofBits _)

/-- The internal name of the class. -/
def name (file : ClassFile) : Except Error String := do
  file.constants.className (← file.bytes.u16 (file.headerStart + 2))

/-- The internal name of the super class, which only the root of all classes lacks. -/
def superName (file : ClassFile) : Except Error (Option String) := do
  file.constants.optionalClassName (← file.bytes.u16 (file.headerStart + 4))

/-- Reads a table of classes. -/
def classNames (file : ClassFile) (index : Nat) : Except Error (List String) := do
  let count ← file.bytes.u16 index
  readEach (fun index => do file.constants.className (← file.bytes.u16 index)) 2
    (index + 2) count.toNat

/-- The internal names of the interfaces. -/
def interfaces (file : ClassFile) : Except Error (List String) :=
  file.classNames (file.headerStart + 6)

end ClassFile

end JavaClass
