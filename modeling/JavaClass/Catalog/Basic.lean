import Std.Data.TreeMap
import JavaClass.ClassDef.Codec
import JavaClass.Container.Basic

/-!
# Catalogs of classes

A catalog keeps classes in the order in which they were added and finds them by
name. Adding a class of a name that is present replaces the earlier one where it
stands.

## Implementation notes

The positions of the names are kept beside the classes. A class whose name is
changed within the catalog is still found under the name that it was added by.

A program that keeps classes like this aborts when it looks up, replaces or takes
out a class at a position behind the last one, or moves a position 0 further to
the front. Here nothing is found, replaced or taken out at such a position, and
0 stays 0, so that every function has a result (`find?`, `add`, `remove`,
`advance`). This differs only after a class was renamed within the catalog: as
long as classes bear the names that they were added by, all positions are those
of classes.
-/

namespace JavaClass

/-- Classes in order, and the position of each name. -/
structure Catalog where
  classes : Array ClassDef
  positions : Std.TreeMap String Nat

namespace Catalog

/-- No classes. -/
def empty : Catalog := ⟨#[], ∅⟩

instance : Inhabited Catalog := ⟨empty⟩

def size (catalog : Catalog) : Nat := catalog.classes.size

def isEmpty (catalog : Catalog) : Bool := catalog.classes.isEmpty

def toList (catalog : Catalog) : List ClassDef := catalog.classes.toList

def names (catalog : Catalog) : List String := catalog.toList.map (·.name)

/-- Puts a class in the place of the one with its name, or at the end. -/
def add (catalog : Catalog) (c : ClassDef) : Catalog :=
  match catalog.positions[c.name]? with
  | some position => { catalog with classes := catalog.classes.setIfInBounds position c }
  | none =>
      { classes := catalog.classes.push c
        positions := catalog.positions.insert c.name catalog.classes.size }

/-- Moves the position of a name one place to the front. -/
def advance (positions : Std.TreeMap String Nat) (name : String) : Std.TreeMap String Nat :=
  match positions[name]? with
  | some position => positions.insert name (position - 1)
  | none => positions

/-- Takes out the class of a name. -/
def remove (catalog : Catalog) (name : String) : Option ClassDef × Catalog :=
  match catalog.positions[name]? with
  | none => (none, catalog)
  | some position =>
      let classes := catalog.classes.eraseIdxIfInBounds position
      let later := (classes.toList.drop position).map (·.name)
      (catalog.classes[position]?,
        { classes, positions := later.foldl advance (catalog.positions.erase name) })

/-- The class of a name. -/
def find? (catalog : Catalog) (name : String) : Option ClassDef :=
  catalog.positions[name]?.bind (catalog.classes[·]?)

/-- Changes the class of a name. -/
def modify (catalog : Catalog) (name : String) (f : ClassDef → ClassDef) : Catalog :=
  match catalog.positions[name]? with
  | some position => { catalog with classes := catalog.classes.modify position f }
  | none => catalog

/-- Changes each class, also by where it stands. -/
def modifyEach (catalog : Catalog) (f : Nat → ClassDef → ClassDef) : Catalog :=
  { catalog with classes := catalog.classes.mapIdx f }

/-- Changes every class in the same way. -/
def modifyAll (catalog : Catalog) (f : ClassDef → ClassDef) : Catalog :=
  catalog.modifyEach fun _ => f

/-- The first class that satisfies a predicate. -/
def first? (catalog : Catalog) (p : ClassDef → Bool) : Option ClassDef :=
  catalog.classes.find? p

/-- The classes that satisfy a predicate, in order. -/
def filter (catalog : Catalog) (p : ClassDef → Bool) : List ClassDef :=
  (catalog.classes.filter p).toList

/-- What a function gives for each class, in order. -/
def map {α : Type} (catalog : Catalog) (f : ClassDef → α) : List α :=
  (catalog.classes.map f).toList

section Effects

variable {m : Type → Type} [Monad m]

/-- Looks at the classes in order up to the first that satisfies a predicate. -/
def firstM? (catalog : Catalog) (p : ClassDef → m Bool) : m (Option ClassDef) :=
  catalog.classes.findM? p

/-- Asks of each class in order whether it satisfies a predicate. -/
def filterM (catalog : Catalog) (p : ClassDef → m Bool) : m (List ClassDef) :=
  Array.toList <$> catalog.classes.filterM p

/-- Applies a function to each class in order. -/
def mapM {α : Type} (catalog : Catalog) (f : ClassDef → m α) : m (List α) :=
  Array.toList <$> catalog.classes.mapM f

/-- Runs an action on each class in order. -/
def forEach (catalog : Catalog) (act : ClassDef → m PUnit) : m PUnit :=
  catalog.classes.forM act

end Effects

/-- A step that may change a catalog. -/
abbrev Step (α : Type) := EStateM Error Catalog α

/-- Adds the class in a class file. -/
def addBytes (bytes : Bytes) : Step ClassDef := fun catalog =>
  match ClassDef.decode bytes with
  | .error error => .error error catalog
  | .ok c => .ok c (catalog.add c)

/-- Adds the class in a class file of a container. -/
def addEntry (entry : ClassFileEntry) : Step Unit := fun catalog =>
  match ClassDef.decode entry.contents with
  | .error error => .error (error.atLocation entry.location) catalog
  | .ok c => .ok () (catalog.add c)

/-- Adds the classes of a container up to the first that cannot be decoded; gives their number. -/
def addEntries (found : Container.Entries) : Step Nat := do
  found.entries.forM addEntry
  match found.failure with
  | some error => throw error
  | none => return found.entries.length

/-- The class files of all classes by name, in order. -/
def encode (catalog : Catalog) : Except Error (List (String × Bytes)) :=
  catalog.toList.mapM fun c => c.encode.map fun bytes => (c.name, bytes.toArray)

end Catalog

end JavaClass
