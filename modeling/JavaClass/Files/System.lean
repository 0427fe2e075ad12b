import JavaClass.Bytes.Basic

/-!
# File systems

What the library needs of a file system. A refusal carries no reason, because
none is ever shown.
-/

namespace JavaClass

/-- A file or a directory below another directory, by the names on the way to it. -/
structure Below where
  names : List String
  isDirectory : Bool
  deriving DecidableEq, Repr

/-- Access to files by their paths. -/
class FileSystem (m : Type → Type) where
  isThere : (path : String) → m Bool
  isDirectory : (path : String) → m Bool
  isFile : (path : String) → m Bool
  /-- The contents of a file. -/
  read : (path : String) → m (Option Bytes)
  /-- Writes a file over an earlier one; tells whether it was written. -/
  write : (path : String) → Bytes → m Bool
  /-- Makes a directory and those above it; tells whether it is there afterwards. -/
  makeDirectories : (path : String) → m Bool
  /-- What is at a path and below it. A directory comes before its entries, and these come in the
  order of their names. -/
  walk : (path : String) → m (List Below)

end JavaClass
