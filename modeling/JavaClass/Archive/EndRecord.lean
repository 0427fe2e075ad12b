import JavaClass.Archive.LittleEndian

/-!
# End records

An archive ends with a record that says where its directory is. The record may
be followed by a comment, and the last record that is found counts. If the
numbers of the record may be too great for it, a wide record stands before it,
and between the two a locator says where the wide record starts.

## Implementation notes

Bytes may stand before the archive, so all offsets in it are off by their
number. Without a wide record it follows from where the end record was found.
With one it follows from where the wide record is found, which is looked for
from the place that the locator names up to the last place that has room for it.
A locator is looked for at a fixed distance from the end of the file.
-/

namespace JavaClass.Archive

/-- The record at the end of an archive. -/
structure EndRecord where
  disk : Nat
  directoryDisk : Nat
  /-- The number of entries on this disk. -/
  entriesHere : Nat
  entries : Nat
  directorySize : Nat
  directoryOffset : Nat
  commentLength : Nat
  deriving DecidableEq, Repr

/-- Where the directory starts, how many entries it has, and how many bytes stand before the
archive. -/
structure DirectoryBounds where
  start : Nat
  count : Nat
  shift : Nat
  deriving DecidableEq, Repr

/-- The number that starts an end record. -/
def endSignature : Nat := 0x06054B50

/-- The number that starts a wide end record. -/
def wideEndSignature : Nat := 0x06064B50

/-- The number that starts a locator. -/
def locatorSignature : Nat := 0x07064B50

/-- The size of an end record without its comment. -/
def endRecordSize : Nat := 22

/-- The size of a wide end record. -/
def wideEndRecordSize : Nat := 56

def locatorSize : Nat := 20

/-- The most bytes of a comment. -/
def commentLimit : Nat := 65535

/-- The number of values of a number of eight bytes. -/
def wideModulus : Nat := 1 <<< 64

/-- The number of places in a file. -/
def placeLimit : Nat := 1 <<< 63

/-- Whether a record with this signature starts at an index. -/
def isAt (bytes : Bytes) (signature index : Nat) : Bool :=
  match number bytes index 4 with
  | .ok n => n == signature
  | .error _ => false

/-- Looks for an end record at `index` and at the `count` indices before it. -/
def findEnd (bytes : Bytes) (index : Nat) : (count : Nat) → Option Nat
  | 0 => if isAt bytes endSignature index then some index else none
  | count + 1 =>
      if isAt bytes endSignature index then some index else findEnd bytes (index - 1) count

/-- Looks for a wide end record at `index` and at the indices after it. -/
def findWideEnd (bytes : Bytes) (index : Nat) : (count : Nat) → Option Nat
  | 0 => none
  | count + 1 =>
      if isAt bytes wideEndSignature index then some index
      else findWideEnd bytes (index + 1) count

namespace EndRecord

/-- Reads the record at an index, with its comment. -/
def read (bytes : Bytes) (index : Nat) : Except ArchiveError EndRecord := do
  let disk ← number bytes (index + 4) 2
  let directoryDisk ← number bytes (index + 6) 2
  let entriesHere ← number bytes (index + 8) 2
  let entries ← number bytes (index + 10) 2
  let directorySize ← number bytes (index + 12) 4
  let directoryOffset ← number bytes (index + 16) 4
  let commentLength ← number bytes (index + 20) 2
  let _ ← slice bytes (index + endRecordSize) commentLength
  return { disk, directoryDisk, entriesHere, entries, directorySize, directoryOffset,
           commentLength }

/-- Whether a number has its greatest value, which says that it may stand in a wide record. -/
def isTooSmall (record : EndRecord) : Bool :=
  record.disk == 0xFFFF || record.directoryDisk == 0xFFFF ||
  record.entriesHere == 0xFFFF || record.entries == 0xFFFF ||
  record.directorySize == 0xFFFFFFFF || record.directoryOffset == 0xFFFFFFFF

/-- Whether the record speaks for itself and names another disk for the directory. -/
def isSplit (record : EndRecord) (directoryDisk : Nat) : Bool :=
  !record.isTooSmall && record.disk != directoryDisk

/-- Where the locator is, if there is one. -/
def locator? (record : EndRecord) (bytes : Bytes) : Option Nat :=
  let distance := locatorSize + endRecordSize + record.commentLength
  if distance ≤ bytes.size && isAt bytes locatorSignature (bytes.size - distance) then
    some (bytes.size - distance)
  else none

/-- The bounds that the record found at an index tells on its own. -/
def bounds (record : EndRecord) (index : Nat) : Except ArchiveError DirectoryBounds :=
  let length := record.directorySize + record.directoryOffset
  if index < length then .error Fault.directoryBounds.error
  else .ok ⟨index - record.directorySize, record.entriesHere, index - length⟩

/-- The bounds in the wide end record before the record at an index. -/
def wideBounds (record : EndRecord) (bytes : Bytes) (index locator : Nat) :
    Except ArchiveError DirectoryBounds := do
  if record.isSplit (← number bytes (locator + 4) 4) then throw Fault.severalDisks.error
  let nominal ← number bytes (locator + 8) 8
  let least := wideEndRecordSize + 4
  if index < least then throw Fault.noRoomForWideEnd.error
  match findWideEnd bytes nominal (index - least + 1 - nominal) with
  | none => throw Fault.noWideEnd.error
  | some wide =>
      let disk ← number bytes (wide + 16) 4
      let directoryDisk ← number bytes (wide + 20) 4
      let count ← number bytes (wide + 32) 8
      let offset ← number bytes (wide + 48) 8
      if disk ≠ directoryDisk then throw Fault.severalDisks.error
      let start := offset + (wide - nominal)
      if wideModulus ≤ start then throw Fault.directoryBounds.error
      return ⟨start, count, wide - nominal⟩

end EndRecord

/-- Finds the end record. -/
def findEndRecord (bytes : Bytes) : Except ArchiveError Nat :=
  if bytes.size < endRecordSize then .error Fault.tooShort.error
  else
    let index := bytes.size - endRecordSize
    match findEnd bytes index (min index commentLimit) with
    | none => .error Fault.noEndRecord.error
    | some index => .ok index

/-- Finds the directory. -/
def bounds (bytes : Bytes) : Except ArchiveError DirectoryBounds := do
  let index ← findEndRecord bytes
  let record ← EndRecord.read bytes index
  if record.isSplit record.directoryDisk then throw Fault.severalDisks.error
  let found ← match record.locator? bytes with
    | none => record.bounds index
    | some locator => record.wideBounds bytes index locator
  if placeLimit ≤ found.start then throw Fault.directoryStart.error
  return found

end JavaClass.Archive
