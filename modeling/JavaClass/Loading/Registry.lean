import Std.Data.TreeMap
import JavaClass.Loading.DefinedClass

/-!
# Registries

A registry holds class files that wait to be defined, and the classes that were
defined from them. Loading a name for the first time defines its class; after
that the same class is given, and nothing can be registered under the name.
-/

namespace JavaClass

/-- Class files by the name that they wait under, and defined classes by name. -/
structure Registry where
  registered : Std.TreeMap String Bytes
  defined : Std.TreeMap String DefinedClass

namespace Registry

/-- No classes. -/
def empty : Registry := ⟨∅, ∅⟩

instance : Inhabited Registry := ⟨empty⟩

/-- Whether there is a class file or a defined class of a name. -/
def has (registry : Registry) (name : String) : Bool :=
  registry.registered.contains name || registry.defined.contains name

/-- Registers a class file, over an earlier one that is not defined yet. -/
def register (name : String) (bytes : Bytes) : EStateM Error Registry Unit := fun registry =>
  if registry.defined.contains name then .error (.duplicateClass name) registry
  else .ok () { registry with registered := registry.registered.insert name bytes }

/-- Loads a class, unless there is nothing of the name. -/
def load? (registry : Registry) (name : String) :
    Option (EStateM.Result Error Registry DefinedClass) :=
  match registry.defined[name]? with
  | some c => some (.ok c registry)
  | none =>
      match registry.registered[name]? with
      | none => none
      | some bytes =>
          match DefinedClass.named name bytes with
          | .error error => some (.error error registry)
          | .ok c => some (.ok c
              { registered := registry.registered.erase name
                defined := registry.defined.insert name c })

/-- Loads a class; a parent is asked for it if there is nothing of the name. -/
def loadOr {m : Type → Type} [Monad m] {π : Type} (registry : Registry) (name : String)
    (parent : π) (ask : m (EStateM.Result Error π DefinedClass)) :
    m (EStateM.Result Error (Registry × π) DefinedClass) := do
  match registry.load? name with
  | some result => return DefinedClass.keep (·, parent) result
  | none => return DefinedClass.keep (registry, ·) (← ask)

/-- Registers class files one after the other. -/
def registerAll (classes : List (String × Bytes)) : EStateM Error Registry Unit :=
  classes.forM fun (name, bytes) => register name bytes

end Registry

end JavaClass
