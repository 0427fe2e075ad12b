import JavaClass.Constant.Encode
import JavaClass.Literal

/-!
# Constant tables

The constant pool of a class file that is being read. A look-up says which kind
of constant it needs, and anything else at the slot makes the file malformed.

## Implementation notes

Reading stops with the entry that reaches the announced count. An entry of two
slots may overshoot it, which is refused. A pool announced with no slots at all
overshoots as well, since its first entry would take slot 1.
-/

namespace JavaClass

/-- The entries of a constant pool that was read. -/
structure ConstantTable where
  entries : SlotVector Constant

namespace ConstantTable

/-- Reads an index of two bytes that ends up in one constant. -/
def one (bytes : Bytes) (index : Nat) (make : UInt16 → Constant) :
    Except Error (Constant × Nat) := do
  return (make (← bytes.u16 index), index + 2)

/-- Reads two indices that end up in one constant. -/
def two (bytes : Bytes) (index : Nat) (make : UInt16 → UInt16 → Constant) :
    Except Error (Constant × Nat) := do
  let first ← bytes.u16 index
  let second ← bytes.u16 (index + 2)
  return (make first second, index + 4)

/-- Reads the entry at an index, and gives the index after it. -/
def readEntry (bytes : Bytes) (index : Nat) : Except Error (Constant × Nat) := do
  let tag ← bytes.u8 index
  let index := index + 1
  if tag = 1 then
    let length ← bytes.u16 index
    let encoded ← bytes.slice (index + 2) length.toNat
    return (.utf8 (← Text.ModifiedUtf8.decode encoded), index + 2 + length.toNat)
  else if tag = 3 then return (.integer (← bytes.i32 index), index + 4)
  else if tag = 4 then return (.float (← bytes.u32 index), index + 4)
  else if tag = 5 then return (.long (← bytes.i64 index), index + 8)
  else if tag = 6 then return (.double (← bytes.u64 index), index + 8)
  else if tag = 7 then one bytes index .classInfo
  else if tag = 8 then one bytes index .string
  else if tag = 9 then two bytes index .fieldRef
  else if tag = 10 then two bytes index fun owner member => .methodRef owner member false
  else if tag = 11 then two bytes index fun owner member => .methodRef owner member true
  else if tag = 12 then two bytes index .nameAndType
  else if tag = 15 then
    let code ← bytes.u8 index
    match HandleKind.ofCode? code with
    | none => malformed (.invalidHandleKind code)
    | some kind => return (.methodHandle kind (← bytes.u16 (index + 1)), index + 3)
  else if tag = 16 then one bytes index .methodType
  else if tag = 18 then two bytes index .invokeDynamic
  else if tag = 19 then one bytes index .moduleInfo
  else if tag = 20 then one bytes index .packageInfo
  else throw (.unsupportedConstant tag)

/-- Reads entries until they take all slots before `count`. -/
def readEntries (bytes : Bytes) (count index : Nat) (entries : SlotVector Constant) :
    Except Error (SlotVector Constant × Nat) :=
  if entries.next < count then
    match readEntry bytes index with
    | .error error => .error error
    | .ok (constant, index) => readEntries bytes count index (entries.push constant)
  else .ok (entries, index)
termination_by count - entries.next
decreasing_by
  have := constant.width_pos
  simp only [SlotVector.push, HasWidth.width]
  omega

/-- Reads the count at an index and the entries after it, and gives the index after them. -/
def read (bytes : Bytes) (index : Nat) : Except Error (ConstantTable × Nat) := do
  let count ← bytes.u16 index
  let (entries, index) ← readEntries bytes count.toNat (index + 2) (.startingAt 1)
  if entries.next = count.toNat then return (⟨entries⟩, index)
  else malformed .straddlingConstant

/-- The constant that starts at a slot. -/
def get (table : ConstantTable) (slot : UInt16) : Except Error Constant :=
  match table.entries.get? slot.toNat with
  | some constant => .ok constant
  | none => malformed (.noConstant slot)

def text (table : ConstantTable) (slot : UInt16) : Except Error String := do
  match ← table.get slot with
  | .utf8 text => return text
  | found => malformed (.unexpectedConstant .text slot found)

/-- The internal name of a class. -/
def className (table : ConstantTable) (slot : UInt16) : Except Error String := do
  match ← table.get slot with
  | .classInfo name => table.text name
  | found => malformed (.unexpectedConstant .classRef slot found)

/-- The internal name of a class, slot 0 standing for no class. -/
def optionalClassName (table : ConstantTable) (slot : UInt16) : Except Error (Option String) :=
  if slot = 0 then .ok none else (table.className slot).map some

/-- A name and a descriptor. -/
def nameAndType (table : ConstantTable) (slot : UInt16) : Except Error (String × String) := do
  match ← table.get slot with
  | .nameAndType name descriptor =>
      let name ← table.text name
      let descriptor ← table.text descriptor
      return (name, descriptor)
  | found => malformed (.unexpectedConstant .nameAndType slot found)

/-- A field or a method, and whether its owner is an interface. -/
structure Member where
  owner : String
  name : String
  descriptor : String
  isInterface : Bool
  deriving DecidableEq, Repr

def memberOf (table : ConstantTable) (owner member : UInt16) (isInterface : Bool) :
    Except Error Member := do
  let owner ← table.className owner
  let (name, descriptor) ← table.nameAndType member
  return ⟨owner, name, descriptor, isInterface⟩

def member (table : ConstantTable) (slot : UInt16) : Except Error Member := do
  match ← table.get slot with
  | .fieldRef owner member => table.memberOf owner member false
  | .methodRef owner member isInterface => table.memberOf owner member isInterface
  | found => malformed (.unexpectedConstant .member slot found)

def methodHandle (table : ConstantTable) (slot : UInt16) : Except Error MethodHandle := do
  match ← table.get slot with
  | .methodHandle kind member =>
      let member ← table.member member
      return ⟨kind, member.owner, member.name, member.descriptor, member.isInterface⟩
  | found => malformed (.unexpectedConstant .methodHandle slot found)

def literal (table : ConstantTable) (slot : UInt16) : Except Error Literal := do
  match ← table.get slot with
  | .integer value => return .int value
  | .float bits => return .float bits
  | .long value => return .long value
  | .double bits => return .double bits
  | .string text => return .string (← table.text text)
  | .classInfo name => return .classRef (← table.text name)
  | .methodType descriptor => return .methodType (← table.text descriptor)
  | .methodHandle _ _ => return .methodHandle (← table.methodHandle slot)
  | found => malformed (.unexpectedConstant .literal slot found)

/-- A bootstrap method, a name and a descriptor. -/
structure CallSite where
  bootstrap : UInt16
  name : String
  descriptor : String
  deriving DecidableEq, Repr

def callSite (table : ConstantTable) (slot : UInt16) : Except Error CallSite := do
  match ← table.get slot with
  | .invokeDynamic bootstrap member =>
      let (name, descriptor) ← table.nameAndType member
      return ⟨bootstrap, name, descriptor⟩
  | found => malformed (.unexpectedConstant .callSite slot found)

end ConstantTable

end JavaClass
