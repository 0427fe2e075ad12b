/-!
# Paths

A path is a text whose components stand between slashes. A path that starts
with a slash is absolute, and joining an absolute path to another one gives the
absolute one.

## Implementation notes

Empty components and single dots name the directory that they stand in. Two
dots name the directory above it, which is where a path can leave the place
that it starts in. The parent of a path is one of words: it does not ask what
the path leads to.
-/

namespace JavaClass.Path

def isAbsolute (path : String) : Bool := path.toList.head? == some '/'

/-- Whether nothing follows the last slash, so that the path can only name a directory. -/
def endsWithSlash (path : String) : Bool := path.toList.getLast? == some '/'

/-- The components between the slashes, empty ones included. -/
def components (path : String) : List String :=
  (path.toList.splitOn '/').map String.ofList

/-- Whether a component names the directory that it stands in. -/
def isHere (component : String) : Bool := component == "" || component == "."

def isAbove (component : String) : Bool := component == ".."

/-- A path inside a directory. -/
def join (directory path : String) : String :=
  if isAbsolute path || directory == "" then path
  else if endsWithSlash directory then directory ++ path
  else directory ++ "/" ++ path

/-- Components without those at the end that name the directory they stand in. -/
def trimmed (components : List String) : List String :=
  (components.reverse.dropWhile isHere).reverse

/-- The path without its last component that names something else than the directory it stands
in. -/
def parent (path : String) : String :=
  match trimmed (trimmed (components path)).dropLast with
  | [] => if isAbsolute path then "/" else ""
  | above => "/".intercalate above

/-- Whether the last component is a single dot, not counting empty ones. -/
def endsHere (path : String) : Bool :=
  ((components path).filter (· ≠ "")).getLast? == some "."

/-- What follows the last point of a file name, if something stands before the point. -/
def extension? (name : String) : Option String :=
  match name.toList.reverse.span (· ≠ '.') with
  | (ending, '.' :: before) =>
      if before.isEmpty || name == ".." then none else some (String.ofList ending.reverse)
  | _ => none

/-- The most bytes of one component. -/
def componentLimit : Nat := 255

/-- The most bytes of a path. -/
def lengthLimit : Nat := 4095

/-- Whether a file system takes the path at all: it is neither empty nor too long, and holds no
zero character. -/
def isUsable (path : String) : Bool :=
  path != "" && path.utf8ByteSize ≤ lengthLimit && !path.toList.contains '\x00'

end JavaClass.Path
