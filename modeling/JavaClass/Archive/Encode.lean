import JavaClass.Archive.Checksum
import JavaClass.Archive.Directory

/-!
# Writing archives

Entries are stored as they are, one behind the other, and the directory follows
them. Names are written as UTF-8, and are marked as such if they have other
characters than ASCII. An archive of very many entries has a wide end record.
-/

namespace JavaClass.Archive

/-- The version of the format that stored entries need. -/
def neededVersion : Nat := 20

/-- The fields that a header before the contents and a header in the directory share. -/
def sharedFields (name : ByteArray) (contents : Bytes) : List UInt8 :=
  littleEndian 2 neededVersion ++
  littleEndian 2 (if name.data.all (· < 128) then 0 else 0x800) ++
  littleEndian 2 0 ++ littleEndian 4 0 ++
  littleEndian 4 (checksum contents).toNat ++
  littleEndian 4 contents.size ++ littleEndian 4 contents.size ++
  littleEndian 2 name.size ++ littleEndian 2 0

/-- The header before the contents. -/
def localHeader (name : ByteArray) (contents : Bytes) : List UInt8 :=
  littleEndian 4 localSignature ++ sharedFields name contents ++ name.data.toList

/-- The header in the directory. -/
def directoryHeader (name : ByteArray) (contents : Bytes) (start : Nat) : List UInt8 :=
  littleEndian 4 directorySignature ++ littleEndian 2 neededVersion ++
  sharedFields name contents ++
  littleEndian 2 0 ++ littleEndian 2 0 ++ littleEndian 2 0 ++ littleEndian 4 0 ++
  littleEndian 4 start ++ name.data.toList

/-- The record that ends an archive. A number that is too great for it has its greatest value. -/
def endRecord (count size start : Nat) : List UInt8 :=
  littleEndian 4 endSignature ++ littleEndian 2 0 ++ littleEndian 2 0 ++
  littleEndian 2 (min count 0xFFFF) ++ littleEndian 2 (min count 0xFFFF) ++
  littleEndian 4 (min size 0xFFFFFFFF) ++ littleEndian 4 (min start 0xFFFFFFFF) ++
  littleEndian 2 0

/-- The wide end record, and the locator that says that it starts at an index. -/
def wideEnd (count size start index : Nat) : List UInt8 :=
  littleEndian 4 wideEndSignature ++ littleEndian 8 (wideEndRecordSize - 12) ++
  littleEndian 2 neededVersion ++ littleEndian 2 neededVersion ++
  littleEndian 4 0 ++ littleEndian 4 0 ++
  littleEndian 8 count ++ littleEndian 8 count ++
  littleEndian 8 size ++ littleEndian 8 start ++
  littleEndian 4 locatorSignature ++ littleEndian 4 0 ++ littleEndian 8 index ++
  littleEndian 4 1

/-- Whether the numbers of an archive are too great for its end record. -/
def needsWideEnd (count size start : Nat) : Bool :=
  0xFFFF < count || 0xFFFFFFFF < max size start

/-- An archive that is being written: the bytes so far, and the directory so far. -/
structure Draft where
  written : Bytes
  directory : Bytes
  count : Nat

namespace Draft

def empty : Draft := ⟨#[], #[], 0⟩

/-- Adds an entry. -/
def add : Draft → String → Bytes → Draft
  | ⟨written, directory, count⟩, name, contents =>
      let directory := directory ++ directoryHeader name.toUTF8 contents written.size
      ⟨written ++ localHeader name.toUTF8 contents ++ contents, directory, count + 1⟩

/-- What stands behind the directory. -/
def ending (draft : Draft) : List UInt8 :=
  let size := draft.directory.size
  let start := draft.written.size
  (if needsWideEnd draft.count size start then wideEnd draft.count size start (start + size)
    else []) ++ endRecord draft.count size start

/-- The archive. -/
def bytes (draft : Draft) : Bytes :=
  draft.written ++ draft.directory ++ draft.ending

end Draft

/-- An archive with these entries. -/
def encode (entries : List (String × Bytes)) : Bytes :=
  (entries.foldl (fun (draft : Draft) entry => draft.add entry.1 entry.2) .empty).bytes

end JavaClass.Archive
