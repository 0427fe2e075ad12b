import Std.Data.TreeMap
import JavaClass.Container.Read
import JavaClass.Container.Write
import JavaClass.Loading.DefinedClass

/-!
# Class paths

A class path is a list of directories and archives in which the file of a class
is looked for, in order. Places that are not there are passed over.
-/

namespace JavaClass

/-- Where to look for classes, and the classes that were found and defined. -/
structure Classpath where
  places : List String
  defined : Std.TreeMap String DefinedClass

namespace Classpath

/-- A line without the carriage return at its end. -/
def dropReturn (line : List Char) : List Char :=
  if line.getLast? = some '\r' then line.dropLast else line

/-- The lines of a text without their line ends. A carriage return belongs to the line feed after
it, so it stays in a last line that no line feed ends. -/
def lines (text : List Char) : List (List Char) :=
  let parts := text.splitOn '\n'
  parts.dropLast.map dropReturn ++ parts.drop (parts.length - 1)

/-- The places in a text, one after the other between colons and line ends. -/
def ofText (text : String) : Classpath :=
  let places := ((lines text.toList).flatMap (·.splitOn ':')).filter (· ≠ [])
  ⟨places.map String.ofList, ∅⟩

variable {m : Type → Type} [Monad m] [FileSystem m] [ArchiveLibrary m]

/-- The file of a class at one place. -/
def findAt (place name : String) : m (Except Error (Option Bytes)) := do
  if ← FileSystem.isDirectory place then
    let path := Container.classPath place name
    if ← FileSystem.isFile path then
      match ← FileSystem.read path with
      | some bytes => return .ok (some bytes)
      | none => return .error .io
    else return .ok none
  else if ← FileSystem.isFile place then Container.readFromArchive place name
  else return .ok none

/-- The file of a class at the first place that has it. -/
def find (name : String) : (places : List String) → m (Except Error (Option Bytes))
  | [] => return .ok none
  | place :: rest => do
      match ← findAt place name with
      | .ok none => find name rest
      | found => return found

/-- Loads a class. -/
def load (path : Classpath) (name : String) :
    m (EStateM.Result Error Classpath DefinedClass) := do
  match path.defined[name]? with
  | some c => return .ok c path
  | none =>
      match ← find name path.places with
      | .error error => return .error error path
      | .ok none => return .error (.classNotFound name) path
      | .ok (some bytes) =>
          match DefinedClass.named name bytes with
          | .error error => return .error error path
          | .ok c => return .ok c { path with defined := path.defined.insert name c }

end Classpath

end JavaClass
