import JavaClass.Archive.EndRecord
import JavaClass.Archive.EntryName
import JavaClass.Archive.ExtraField

/-!
# The directory of an archive

The directory has a header for every entry, one behind the other. All headers
are read before any entry is, so one bad header spoils the archive.

## Implementation notes

Methods and numbers of a header may be replaced by its extra fields. Where an
entry starts is counted from the start of the archive.
-/

namespace JavaClass.Archive

/-- The number that starts a header in the directory. -/
def directorySignature : Nat := 0x02014B50

/-- The number that starts a header before the contents. -/
def localSignature : Nat := 0x04034B50

/-- The size of a header in the directory without its name, extra fields and comment. -/
def directoryHeaderSize : Nat := 46

/-- The size of a header before the contents without its name and extra fields. -/
def localHeaderSize : Nat := 30

/-- The method of contents that only the cipher field tells more of. -/
def cipherMethod : Nat := 99

/-- Reads the header of an entry as it stands; gives its extra fields and the index after it. -/
def readHeader (bytes : Bytes) (index : Nat) : Except ArchiveError (Entry × List UInt8 × Nat) := do
  if (← number bytes index 4) ≠ directorySignature then throw Fault.directoryHeader.error
  let flags ← number bytes (index + 8) 2
  let method ← number bytes (index + 10) 2
  let checksum ← number bytes (index + 16) 4
  let compressedSize ← number bytes (index + 20) 4
  let size ← number bytes (index + 24) 4
  let nameLength ← number bytes (index + 28) 2
  let extraLength ← number bytes (index + 30) 2
  let commentLength ← number bytes (index + 32) 2
  let headerStart ← number bytes (index + 42) 4
  let nameStart := index + directoryHeaderSize
  let extraStart := nameStart + nameLength
  let commentStart := extraStart + extraLength
  let name ← slice bytes nameStart nameLength
  let extra ← slice bytes extraStart extraLength
  let _ ← slice bytes commentStart commentLength
  return ({ name := entryName (flags.testBit 11) name
            isEncrypted := flags.testBit 0
            hasCipher := false
            method
            checksum := UInt32.ofNat checksum
            compressedSize
            size
            headerStart },
    extra, commentStart + commentLength)

/-- Moves the start of an entry by the bytes before the archive. -/
def Entry.shiftBy (entry : Entry) (shift : Nat) : Except Fault Entry :=
  let headerStart := entry.headerStart + shift
  if wideModulus ≤ headerStart then .error .headerStart else .ok { entry with headerStart }

/-- What a header tells about an entry, given its extra fields. -/
def Entry.settle (entry : Entry) (extra : List UInt8) (shift : Nat) :
    Except Fault Entry := do
  let entry ← entry.withExtra extra
  if entry.method = cipherMethod && !entry.hasCipher then throw .noCipher
  entry.shiftBy shift

/-- Reads the header of an entry; gives the index after it. -/
def readEntry (bytes : Bytes) (shift index : Nat) : Except ArchiveError (Entry × Nat) := do
  let (entry, extra, index) ← readHeader bytes index
  return (← (entry.settle extra shift).mapError Fault.error, index)

/-- Reads the headers of `count` entries. -/
def readEntries (bytes : Bytes) (shift : Nat) :
    (count index : Nat) → Except ArchiveError (List Entry)
  | 0, _ => .ok []
  | count + 1, index => do
      let (entry, index) ← readEntry bytes shift index
      return entry :: (← readEntries bytes shift count index)

/-- The entries of an archive in the order of its directory. -/
def entries (bytes : Bytes) : Except ArchiveError (List Entry) := do
  let directory ← bounds bytes
  readEntries bytes directory.shift directory.count directory.start

end JavaClass.Archive
