import JavaClass.Catalog.Basic
import JavaClass.Loading.Classpath
import JavaClass.Loading.Registry

/-!
# Class loaders

A loader gives the class of a name. A registry asks its parent for the names
that it does not have, so loaders form a chain.
-/

namespace JavaClass

/-- A chain of loaders. -/
inductive Loader where
  /-- Has no classes. -/
  | none
  | registry (classes : Registry) (parent : Loader)
  | classpath (path : Classpath)

namespace Loader

instance : Inhabited Loader := ⟨none⟩

/-- Loads a class. -/
def load {m : Type → Type} [Monad m] [FileSystem m] [ArchiveLibrary m] (name : String) :
    Loader → m (EStateM.Result Error Loader DefinedClass)
  | none => return .error (.classNotFound name) none
  | registry classes parent => do
      let result ← classes.loadOr name parent (parent.load name)
      return DefinedClass.keep (fun (classes, parent) => registry classes parent) result
  | classpath path => return DefinedClass.keep classpath (← path.load name)

/-- Whether the loader itself has a class of a name registered or defined. -/
def has (name : String) : Loader → Bool
  | registry classes _ => classes.has name
  | _ => false

/-- Registers a class file with a registry. -/
def register (name : String) (bytes : Bytes) : Loader → EStateM.Result Error Loader Unit
  | registry classes parent =>
      match Registry.register name bytes classes with
      | .ok () classes => .ok () (registry classes parent)
      | .error error classes => .error error (registry classes parent)
  | other => .ok () other

end Loader

/-- A registry of the classes in a catalog. -/
def Catalog.registry (catalog : Catalog) : Except Error Registry := do
  match Registry.registerAll (← catalog.encode) .empty with
  | .ok () registry => return registry
  | .error error _ => throw error

/-- A loader of the classes in a catalog. -/
def Catalog.loader (catalog : Catalog) (parent : Loader) : Except Error Loader := do
  return .registry (← catalog.registry) parent

end JavaClass
