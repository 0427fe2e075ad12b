import Std.Data.TreeMap
import JavaClass.Bytes.Basic
import JavaClass.Files.Path
import JavaClass.Files.System

/-!
# File trees

Directories and files by their place below the root, with one directory as the
place where relative paths start. Paths are followed component by component, as
a file system follows them: `..` after a missing directory leads nowhere.

## Implementation notes

A place is the list of names from the root. Every place with a node has a
directory above it. An operation that fails half way keeps what it did.
-/

namespace JavaClass

/-- What is at a place. -/
inductive FileNode where
  | file (contents : Bytes)
  | directory

/-- Directories and files, and the working directory. -/
structure FileTree where
  nodes : Std.TreeMap (List String) FileNode
  working : List String

namespace FileTree

/-- The places from the root down to a place. -/
def chain (place : List String) : List (List String) :=
  (List.range (place.length + 1)).map place.take

/-- Nothing but the working directory. -/
def empty (working : List String) : FileTree :=
  ⟨(chain working).foldl (fun nodes place => nodes.insert place .directory) ∅, working⟩

/-- The node at a place. -/
def node? (tree : FileTree) (place : List String) : Option FileNode :=
  tree.nodes[place]?

def isDirectoryAt (tree : FileTree) (place : List String) : Bool :=
  match tree.node? place with
  | some .directory => true
  | _ => false

/-- Where a path starts. -/
def base (tree : FileTree) (path : String) : List String :=
  if Path.isAbsolute path then [] else tree.working

/-- Follows components from a place on. -/
def follow (tree : FileTree) : List String → List String → Option (List String)
  | place, [] => if (tree.node? place).isSome then some place else none
  | place, component :: rest =>
      if !tree.isDirectoryAt place then none
      else if Path.isHere component then tree.follow place rest
      else if Path.isAbove component then tree.follow place.dropLast rest
      else tree.follow (place ++ [component]) rest

/-- The place of what a path names, if it exists. -/
def resolve (tree : FileTree) (path : String) : Option (List String) :=
  if Path.isUsable path then tree.follow (tree.base path) (Path.components path) else none

def isThere (tree : FileTree) (path : String) : Bool :=
  (tree.resolve path).isSome

def isDirectory (tree : FileTree) (path : String) : Bool :=
  (tree.resolve path).any tree.isDirectoryAt

/-- The contents of a file. -/
def read? (tree : FileTree) (path : String) : Option Bytes :=
  match (tree.resolve path).bind tree.node? with
  | some (.file contents) => some contents
  | _ => none

def isFile (tree : FileTree) (path : String) : Bool :=
  (tree.read? path).isSome

/-- Makes the directories of a path from a place on; tells whether all are there afterwards. -/
def makeFrom (tree : FileTree) : List String → List String → Bool × FileTree
  | _, [] => (true, tree)
  | place, component :: rest =>
      if Path.isHere component then tree.makeFrom place rest
      else if Path.isAbove component then tree.makeFrom place.dropLast rest
      else
        let place := place ++ [component]
        match tree.node? place with
        | some .directory => tree.makeFrom place rest
        | some (.file _) => (false, tree)
        | none =>
            if component.utf8ByteSize ≤ Path.componentLimit then
              makeFrom { tree with nodes := tree.nodes.insert place .directory } place rest
            else (false, tree)

/-- Makes the directories of a path; tells whether all are there afterwards. A path that ends in
a single dot has its parent made, but what it names has to be there already. -/
def makeDirectories (tree : FileTree) (path : String) : Bool × FileTree :=
  if path == "" then (true, tree)
  else if !Path.isUsable path then (false, tree)
  else if Path.endsHere path then
    let (made, after) := tree.makeFrom (tree.base path) (Path.components (Path.parent path))
    (made && after.isDirectory path, after)
  else tree.makeFrom (tree.base path) (Path.components path)

/-- Writes a file into a directory that exists, over an earlier file of the name. -/
def write (tree : FileTree) (path : String) (contents : Bytes) : Option FileTree :=
  let components := Path.components path
  match components.getLast? with
  | none => none
  | some name =>
      if !Path.isUsable path || Path.isHere name || Path.isAbove name ||
          Path.componentLimit < name.utf8ByteSize then none
      else
        match tree.follow (tree.base path) components.dropLast with
        | none => none
        | some place =>
            if !tree.isDirectoryAt place || tree.isDirectoryAt (place ++ [name]) then none
            else some { tree with nodes := tree.nodes.insert (place ++ [name]) (.file contents) }

/-- What is at a place and below it. A tree is ordered by places, so a directory comes before its
entries, and these come in the order of their names. -/
def below (tree : FileTree) (place : List String) : List Below :=
  tree.nodes.toList.filterMap fun (other, node) =>
    if place.isPrefixOf other then
      some ⟨other.drop place.length, node matches .directory⟩
    else none

/-- What is at a path and below it. -/
def walk (tree : FileTree) (path : String) : List Below :=
  match tree.resolve path with
  | some place => tree.below place
  | none => []

/-- The paths of the files in the working directory and below it, sorted. -/
def listing (tree : FileTree) : List String :=
  let files := (tree.below tree.working).filter (!·.isDirectory)
  (files.map ("/".intercalate ·.names)).mergeSort fun a b => a ≤ b

instance : FileSystem (StateM FileTree) where
  isThere path := return (← get).isThere path
  isDirectory path := return (← get).isDirectory path
  isFile path := return (← get).isFile path
  read path := return (← get).read? path
  write path contents := modifyGet fun tree =>
    match tree.write path contents with
    | some tree => (true, tree)
    | none => (false, tree)
  makeDirectories path := modifyGet fun tree => tree.makeDirectories path
  walk path := return (← get).walk path

end FileTree

end JavaClass
