import JavaClass.Bytes.Basic

/-!
# Archive libraries

What the library needs of whoever reads and writes archives. An archive is written into
a file that was made for it, member by member, and each step may be refused. It is read
by opening the file and asking for its members one at a time, by place or by name.

## Implementation notes

Only the operations are listed, each with the refusals that its callers have to expect.
What is written may be in the file or not until the archive is finished, and a refusal
leaves in the file whatever is there. What an operation gives back is nowhere promised
here: whoever relies on it says so.
-/

namespace JavaClass

/-- Why something could not be done with an archive. -/
inductive ArchiveError where
  /-- The file system refused. -/
  | io
  /-- There is no such member. -/
  | notFound
  | other (message : String)
  deriving DecidableEq, Repr

/-- The error that a caller of the library sees. -/
def ArchiveError.toError : ArchiveError → Error
  | io => .io
  | notFound => .archive "specified file not found in archive"
  | other message => .archive message

/-- How the contents of a member are to be kept. -/
inductive Compression where
  | stored
  | deflated
  deriving DecidableEq, Repr

/-- Access to archives in files. -/
class ArchiveLibrary (m : Type → Type) where
  /-- An archive that is being written. -/
  Writer : Type
  /-- An archive that was opened. -/
  Reader : Type
  /-- A member of an archive. -/
  Member : Type
  /-- Begins an archive in the file at a path, which is there and empty. -/
  beginIn : (path : String) → m Writer
  /-- Begins a member, whose contents are what is written next. -/
  startFile : Writer → (name : String) → Compression → m (Except ArchiveError Writer)
  /-- Writes contents, unless the file system refuses. -/
  writeAll : Writer → Bytes → m (Option Writer)
  /-- Writes what ends the archive. -/
  finish : Writer → m (Except ArchiveError Unit)
  /-- Opens the archive in the file at a path. -/
  openAt : (path : String) → m (Except ArchiveError Reader)
  /-- The number of members. -/
  count : Reader → Nat
  /-- The member at a place, counted from 0. -/
  memberAt : Reader → (index : Nat) → m (Except ArchiveError Member)
  memberNamed : Reader → (name : String) → m (Except ArchiveError Member)
  name : Member → String
  /-- Whether the member is a file, not a directory. -/
  isFile : Member → Bool
  /-- The contents of a member, or the text that says why they cannot be had. -/
  readAll : Member → m (Except String Bytes)

end JavaClass
