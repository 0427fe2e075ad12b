import JavaClass.ClassFile.Basic

/-!
# Members and attributes of a class file

Where the fields, the methods and the attributes of a class file lie. An
attribute has a name and an announced length, and all of that length must be
there; what the contents mean is left to whoever knows the name.
-/

namespace JavaClass

/-- The place of the contents of an attribute. -/
structure AttributeRange where
  name : String
  start : Nat
  length : Nat
  deriving DecidableEq, Repr

/-- The place of a field or a method, and of its attributes. -/
structure MemberRange where
  start : Nat
  attributes : List AttributeRange
  deriving DecidableEq, Repr

/-- The fields, the methods and the attributes of a class. -/
structure ClassLayout where
  fields : List MemberRange
  methods : List MemberRange
  attributes : List AttributeRange
  deriving DecidableEq, Repr

namespace ClassFile

/-- Reads items one after the other, each telling where it ends, until one fails. -/
def readRun {α : Type} (read : Nat → Except Error (α × Nat)) (index : Nat) :
    (count : Nat) → (done : List α) → Except Error (List α × Nat)
  | 0, done => .ok (done.reverse, index)
  | count + 1, done =>
      match read index with
      | .error error => .error error
      | .ok (item, index) => readRun read index count (item :: done)

/-- Reads a 16-bit count and that many items. -/
def readCounted {α : Type} (file : ClassFile) (read : Nat → Except Error (α × Nat))
    (index : Nat) : Except Error (List α × Nat) := do
  let count ← file.bytes.u16 index
  readRun read (index + 2) count.toNat []

/-- Reads the name and the extent of one attribute. -/
def readAttribute (file : ClassFile) (index : Nat) : Except Error (AttributeRange × Nat) := do
  let name ← file.constants.text (← file.bytes.u16 index)
  let length := (← file.bytes.u32 (index + 2)).toNat
  let start := index + 6
  file.bytes.check start length
  return (⟨name, start, length⟩, start + length)

/-- Reads an attribute table. -/
def readAttributes (file : ClassFile) (index : Nat) : Except Error (List AttributeRange × Nat) :=
  file.readCounted file.readAttribute index

/-- Reads the extent of one field or method, whose first three numbers are left alone. -/
def readMember (file : ClassFile) (index : Nat) : Except Error (MemberRange × Nat) := do
  let (attributes, stop) ← file.readAttributes (index + 6)
  return (⟨index, attributes⟩, stop)

/-- Reads a table of fields or of methods. -/
def readMembers (file : ClassFile) (index : Nat) : Except Error (List MemberRange × Nat) :=
  file.readCounted file.readMember index

/-- Reads the extents of everything behind a header with this many interfaces. -/
def layout (file : ClassFile) (interfaceCount : Nat) : Except Error ClassLayout := do
  let (fields, index) ← file.readMembers (file.headerStart + 8 + 2 * interfaceCount)
  let (methods, index) ← file.readMembers index
  let (attributes, _) ← file.readAttributes index
  return ⟨fields, methods, attributes⟩

end ClassFile

end JavaClass
