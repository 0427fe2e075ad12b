import JavaClass.Catalog.Files
import JavaClass.Command.Arguments

/-!
# Running the command

Loads a directory or an archive into a catalog, lists its classes if asked to,
and saves it as a directory or an archive if asked to. What was printed before
a failure stays printed.
-/

namespace JavaClass.Command

/-- What a run prints, how it ends, and why it failed. -/
structure Outcome where
  output : String
  code : UInt32
  failure : Option Error

/-- The text that is printed for help. -/
def helpText : String :=
  "Reads class files from an archive or a directory.\n\n" ++
  "Arguments: [--list] [-o PATH] INPUT\n\n" ++
  "  INPUT              archive, or directory of class files\n" ++
  "  -o, --output PATH  write all classes to this archive, or to this directory if\n" ++
  "                     it is there or ends with a slash\n" ++
  "  --list             print a line for each class\n" ++
  "  -h, --help         print this text\n" ++
  "  -V, --version      print the version\n"

/-- The text that is printed for the version. -/
def versionText : String := "0.1.0\n"

/-- The line of a class in the list. -/
def listLine (c : ClassDef) : String :=
  c.name ++ " extends " ++ c.super.getD "-" ++
    s!" ({c.fields.size} fields, {c.methods.size} methods)\n"

/-- The list of all classes. -/
def listing (catalog : Catalog) : String :=
  String.join (catalog.map listLine)

variable {m : Type → Type} [Monad m] [FileSystem m] [ArchiveLibrary m]

/-- Loads the input. -/
def load (path : String) : m (EStateM.Result Error Catalog Nat) := do
  if ← FileSystem.isDirectory path then Catalog.empty.loadDirectory path
  else Catalog.empty.loadArchive path

/-- Saves to the output. -/
def save (catalog : Catalog) (path : String) : m (Except Error Unit) := do
  if (← FileSystem.isDirectory path) || Path.endsWithSlash path then catalog.saveDirectory path
  else catalog.saveArchive path

/-- Does what was asked for. -/
def perform (request : Request) : m Outcome := do
  match ← load request.input with
  | .error error _ => return ⟨"", 1, some error⟩
  | .ok _ catalog =>
      let printed := if request.list then listing catalog else ""
      match request.output with
      | none => return ⟨printed, 0, none⟩
      | some path =>
          match ← save catalog path with
          | .error error => return ⟨printed, 1, some error⟩
          | .ok () => return ⟨printed, 0, none⟩

/-- Runs the command. -/
def run (arguments : List String) : m Outcome :=
  match Invocation.ofArguments arguments with
  | .help => return ⟨helpText, 0, none⟩
  | .version => return ⟨versionText, 0, none⟩
  | .misuse => return ⟨"", 2, none⟩
  | .run request => perform request

end JavaClass.Command
