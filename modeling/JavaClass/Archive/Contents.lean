import JavaClass.Archive.Checksum
import JavaClass.Archive.Directory
import JavaClass.Archive.Inflate

/-!
# The contents of archive entries

Contents are stored as they are or compressed, and their checksum must agree
with the one in the directory. An entry that uses anything else is refused when
it is opened, whatever its name is.
-/

namespace JavaClass.Archive

/-- How contents are kept, by the number of the method. -/
def compression? (method : Nat) : Option Compression :=
  if method = 0 then some .stored else if method = 8 then some .deflated else none

/-- An entry that was opened, with the bytes that are kept for it. -/
structure Member where
  entry : Entry
  compression : Compression
  kept : Bytes

/-- Opens an entry. Fewer bytes than the directory promises are kept for it if the file ends
before. -/
def openEntry (bytes : Bytes) (entry : Entry) : Except ArchiveError Member := do
  if entry.isEncrypted then throw Fault.encrypted.error
  if (← number bytes entry.headerStart 4) ≠ localSignature then throw Fault.localHeader.error
  let nameLength ← number bytes (entry.headerStart + 26) 2
  let extraLength ← number bytes (entry.headerStart + 28) 2
  match compression? entry.method with
  | none => throw Fault.unsupportedMethod.error
  | some compression =>
      if entry.hasCipher then throw Fault.encrypted.error
      let start := entry.headerStart + localHeaderSize + nameLength + extraLength
      return ⟨entry, compression, bytes.extract start (start + entry.compressedSize)⟩

/-- Why contents that stop early cannot be had. -/
def Inflate.Stop.text : Inflate.Stop → String
  | cutOff => "incomplete deflate stream"
  | damaged => "corrupt deflate stream"

namespace Member

/-- The contents in the bytes that are kept. -/
def expand (member : Member) : Except String Bytes :=
  match member.compression with
  | .stored => .ok member.kept
  | .deflated => (inflate member.kept).mapError Inflate.Stop.text

/-- The contents, or why they cannot be had. -/
def contents (member : Member) : Except String Bytes := do
  let contents ← member.expand
  if checksum contents = member.entry.checksum then return contents
  else throw "Invalid checksum"

end Member

end JavaClass.Archive
