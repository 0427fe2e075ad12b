import JavaClass.Catalog.Basic
import JavaClass.Container.Read
import JavaClass.Container.Write

/-!
# Catalogs and containers

Loads the classes of archives and directories into a catalog, and saves a
catalog as one of them. Classes that were added before a failure stay in the
catalog, and nothing is written unless all classes can be encoded.
-/

namespace JavaClass.Catalog

variable {m : Type → Type} [Monad m] [FileSystem m] [ArchiveLibrary m]

/-- Adds the classes of a container, if it could be opened. -/
def addContainer (catalog : Catalog) :
    Except Error Container.Entries → EStateM.Result Error Catalog Nat
  | .error error => .error error catalog
  | .ok found => addEntries found catalog

/-- Adds the classes in the archive at a path. -/
def loadArchive (catalog : Catalog) (path : String) : m (EStateM.Result Error Catalog Nat) := do
  return catalog.addContainer (← Container.readArchive path)

/-- Adds the classes in the directory at a path. -/
def loadDirectory (catalog : Catalog) (path : String) :
    m (EStateM.Result Error Catalog Nat) := do
  return catalog.addContainer (← Container.readDirectory path)

/-- Writes all classes into an archive. -/
def saveArchive (catalog : Catalog) (path : String) : m (Except Error Unit) :=
  match catalog.encode with
  | .error error => return .error error
  | .ok classes => Container.writeArchive path classes

/-- Writes all classes below a directory. -/
def saveDirectory (catalog : Catalog) (path : String) : m (Except Error Unit) :=
  match catalog.encode with
  | .error error => return .error error
  | .ok classes => Container.writeDirectory path classes

end JavaClass.Catalog
