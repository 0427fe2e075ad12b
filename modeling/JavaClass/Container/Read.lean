import JavaClass.Container.Basic
import JavaClass.Files.Archives
import JavaClass.Files.Path
import JavaClass.Files.System

/-!
# Reading containers

An archive is read member by member in its own order, a directory in the order of
its names. A container that is not there at all is told apart from one that
cannot be read.
-/

namespace JavaClass.Container

variable {m : Type → Type} [Monad m] [FileSystem m] [ArchiveLibrary m]

/-- Why a member of an archive that is there cannot be read. -/
def brokenMember (location text : String) : Error := .archive (location ++ ": " ++ text)

/-- Opens an archive that has to be there. -/
def openArchive (path : String) : m (Except Error (ArchiveLibrary.Reader m)) := do
  if !(← FileSystem.isThere path) then return .error (.notFound path)
  return (← ArchiveLibrary.openAt path).mapError ArchiveError.toError

/-- The class file at a place in an archive, if it is one. -/
def classInArchive (reader : ArchiveLibrary.Reader m) (index : Nat) :
    m (Except Error (Option ClassFileEntry)) := do
  match ← ArchiveLibrary.memberAt reader index with
  | .error error => return .error error.toError
  | .ok member =>
      let location := ArchiveLibrary.name member
      if ArchiveLibrary.isFile member && isClassName location then
        match ← ArchiveLibrary.readAll member with
        | .error text => return .error (brokenMember location text)
        | .ok contents => return .ok (some ⟨location, contents⟩)
      else return .ok none

/-- The class files in the archive at a path. -/
def readArchive (path : String) : m (Except Error Entries) := do
  match ← openArchive path with
  | .error error => return .error error
  | .ok reader =>
      return .ok (← collect (classInArchive reader) (List.range (ArchiveLibrary.count reader)))

/-- The file of a class in the archive at a path. -/
def readFromArchive (path className : String) : m (Except Error (Option Bytes)) := do
  match ← openArchive path with
  | .error error => return .error error
  | .ok reader =>
      match ← ArchiveLibrary.memberNamed reader (fileName className) with
      | .error .notFound => return .ok none
      | .error error => return .error error.toError
      | .ok member =>
          match ← ArchiveLibrary.readAll member with
          | .error text => return .error (brokenMember (fileName className) text)
          | .ok contents => return .ok (some contents)

/-- The path of a file below a root. -/
def pathBelow (root : String) (names : List String) : String :=
  if names.isEmpty then root else Path.join root ("/".intercalate names)

/-- Whether a file below a root has the ending of class files. -/
def isClassFile (root : String) (names : List String) : Bool :=
  ((Path.components (pathBelow root names)).getLast?.bind Path.extension?) == some "class"

/-- The class file at a place below a root, if there is one. A directory has to be one by the path
that leads to it from here. -/
def classBelow (root : String) (found : Below) : m (Except Error (Option ClassFileEntry)) := do
  let path := pathBelow root found.names
  if found.isDirectory then
    if ← FileSystem.isDirectory path then return .ok none else return .error .io
  else if isClassFile root found.names then
    match ← FileSystem.read path with
    | some contents => return .ok (some ⟨"/".intercalate found.names, contents⟩)
    | none => return .error .io
  else return .ok none

/-- The class files in the directory at a path and below it. -/
def readDirectory (root : String) : m (Except Error Entries) := do
  if !(← FileSystem.isThere root) then return .error (.notFound root)
  return .ok (← collect (classBelow root) (← FileSystem.walk root))

end JavaClass.Container
