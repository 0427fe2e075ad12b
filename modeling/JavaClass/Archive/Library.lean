import JavaClass.Archive.Contents
import JavaClass.Archive.Encode
import JavaClass.Files.System

/-!
# An archive library

Archives in files of a file system, so that the command can be run. An archive is kept
in memory until it is finished, and read at once when it is opened.

## Implementation notes

All members are stored, whatever compression is asked for. Of several members with a
name, the last one is found by it. What the command does is defined and stated for every
archive library; this one is only what it is run with.
-/

namespace JavaClass.Archive

/-- An archive that is being written: its file, and the members so far, the last one first. -/
structure Writer where
  path : String
  members : List (String × Bytes)

namespace Writer

/-- Begins a member. -/
def start (writer : Writer) (name : String) : Writer :=
  { writer with members := (name, #[]) :: writer.members }

/-- Goes on with the contents of the last member, if there is one. -/
def write (writer : Writer) (contents : Bytes) : Option Writer :=
  match writer.members with
  | [] => none
  | (name, before) :: others =>
      some { writer with members := (name, before ++ contents) :: others }

/-- The whole archive. -/
def bytes (writer : Writer) : Bytes :=
  encode writer.members.reverse

end Writer

/-- An archive that was opened. -/
structure Reader where
  bytes : Bytes
  entries : Array Entry

namespace Reader

/-- The archive in some bytes. -/
def ofBytes (bytes : Bytes) : Except ArchiveError Reader :=
  (Archive.entries bytes).map fun found => ⟨bytes, found.toArray⟩

/-- Opens an entry, if there is one. -/
def openEntry (reader : Reader) : Option Entry → Except ArchiveError Member
  | none => .error .notFound
  | some entry => Archive.openEntry reader.bytes entry

end Reader

/-- Whether the member is a directory, which its name says. -/
def Member.isDirectory (member : Member) : Bool :=
  member.entry.name.toList.getLast?.any fun c => c = '/' || c = '\\'

instance {m : Type → Type} [Monad m] [FileSystem m] : ArchiveLibrary m where
  Writer := Writer
  Reader := Reader
  Member := Member
  beginIn path := return ⟨path, []⟩
  startFile writer name _ := return .ok (writer.start name)
  writeAll writer contents := return writer.write contents
  finish writer := do
    if ← FileSystem.write writer.path writer.bytes then return .ok () else return .error .io
  openAt path := do
    match ← FileSystem.read path with
    | none => return .error .io
    | some bytes => return Reader.ofBytes bytes
  count reader := reader.entries.size
  memberAt reader index := return reader.openEntry reader.entries[index]?
  memberNamed reader name := return reader.openEntry (reader.entries.findRev? (·.name == name))
  name member := member.entry.name
  isFile member := !member.isDirectory
  readAll member := return member.contents

end JavaClass.Archive
