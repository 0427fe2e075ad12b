import JavaClass.Container.Basic
import JavaClass.Files.Archives
import JavaClass.Files.Path
import JavaClass.Files.System

/-!
# Writing containers

Each class gets a file of its name. An archive and a directory are both written
file by file, and what was written before a refusal stays.
-/

namespace JavaClass.Container

variable {m : Type → Type} [Monad m] [FileSystem m] [ArchiveLibrary m]

/-- Writes the file of a class into an archive. -/
def writeMember (writer : ArchiveLibrary.Writer m) (className : String) (bytes : Bytes) :
    m (Except Error (ArchiveLibrary.Writer m)) := do
  match ← ArchiveLibrary.startFile writer (fileName className) .deflated with
  | .error error => return .error error.toError
  | .ok started =>
      match ← ArchiveLibrary.writeAll started bytes with
      | none => return .error .io
      | some written => return .ok written

/-- Writes the files of these classes into an archive, and finishes it. -/
def writeMembers (writer : ArchiveLibrary.Writer m) :
    List (String × Bytes) → m (Except Error Unit)
  | [] => return (← ArchiveLibrary.finish writer).mapError ArchiveError.toError
  | (name, bytes) :: rest => do
      match ← writeMember writer name bytes with
      | .error error => return .error error
      | .ok written => writeMembers written rest

/-- Writes an archive of these classes into a new file, or over an earlier one. -/
def writeArchive (path : String) (classes : List (String × Bytes)) : m (Except Error Unit) := do
  if ← FileSystem.write path #[] then writeMembers (← ArchiveLibrary.beginIn path) classes
  else return .error .io

/-- The path of the file of a class below a root. -/
def classPath (root className : String) : String := Path.join root (fileName className)

/-- Writes the file of a class below a root, in directories made as needed. -/
def writeClass (root className : String) (bytes : Bytes) : m Bool := do
  let path := classPath root className
  if ← FileSystem.makeDirectories (Path.parent path) then FileSystem.write path bytes
  else return false

/-- Writes the files of these classes below a root. -/
def writeDirectory (root : String) : List (String × Bytes) → m (Except Error Unit)
  | [] => return .ok ()
  | (name, bytes) :: rest => do
      if ← writeClass root name bytes then writeDirectory root rest else return .error .io

end JavaClass.Container
