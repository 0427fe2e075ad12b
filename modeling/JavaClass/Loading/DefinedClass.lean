import JavaClass.ClassFile.Basic

/-!
# Defined classes

Loading a class defines it from its class file, of which only the header is
read. A class that is loaded by name has to declare that name.
-/

namespace JavaClass

/-- The header of a class, and the class file that it comes from. -/
structure DefinedClass where
  name : String
  super : Option String
  interfaces : List String
  bytes : Bytes
  deriving DecidableEq

namespace DefinedClass

/-- Defines the class in a class file. -/
def ofBytes (bytes : Bytes) : Except Error DefinedClass := do
  let file ← ClassFile.read bytes
  return ⟨← file.name, ← file.superName, ← file.interfaces, bytes⟩

/-- Defines the class in a class file that has to declare a name. -/
def named (name : String) (bytes : Bytes) : Except Error DefinedClass := do
  let c ← ofBytes bytes
  if c.name = name then return c else throw (.classNameMismatch name c.name)

/-- Changes what a result leaves behind. -/
def keep {σ τ : Type} (f : σ → τ) :
    EStateM.Result Error σ DefinedClass → EStateM.Result Error τ DefinedClass
  | .ok c state => .ok c (f state)
  | .error error state => .error error (f state)

end DefinedClass

end JavaClass
