import JavaClass.Bytes.Basic

/-!
# Containers of class files

A container is an archive or a directory. Reading one gives the class files in
it up to the first that cannot be read, together with the reason.
-/

namespace JavaClass

/-- A class file and where in its container it was found. -/
structure ClassFileEntry where
  location : String
  contents : Bytes

namespace Container

/-- Class files, and why there are no more of them. -/
structure Entries where
  entries : List ClassFileEntry
  failure : Option Error

/-- The ending of the names of class files. -/
def classSuffix : String := ".class"

/-- Whether a name is one of a class file. -/
def isClassName (name : String) : Bool :=
  classSuffix.toList.isSuffixOf name.toList

/-- The name of the file for a class. -/
def fileName (className : String) : String := className ++ classSuffix

/-- Reads items up to the first one that cannot be read, leaving out those that are no class
files. -/
def collect {m : Type → Type} [Monad m] {α : Type}
    (read : α → m (Except Error (Option ClassFileEntry))) : List α → m Entries
  | [] => return ⟨[], none⟩
  | item :: rest => do
      match ← read item with
      | .error error => return ⟨[], some error⟩
      | .ok none => collect read rest
      | .ok (some entry) =>
          let more ← collect read rest
          return { more with entries := entry :: more.entries }

/-- All class files, or the reason why there are no more of them. -/
def Entries.all (found : Entries) : Except Error (List ClassFileEntry) :=
  match found.failure with
  | some error => .error error
  | none => .ok found.entries

end Container

end JavaClass
