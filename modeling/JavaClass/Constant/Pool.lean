import Std.Data.TreeMap
import JavaClass.Constant.Encode
import JavaClass.Literal

/-!
# Constant pools

A constant pool under construction. Asking for a constant gives the slot of the
entry that already holds it, and adds an entry otherwise; the pool so never
holds a constant twice, and its layout follows from the order of the requests.

## Implementation notes

Entries are recognised by their bytes. The count that stands before the entries
is one more than the last slot and has to fit 16 bits, so a new entry may end at
slot 65534 at the latest. A request for a constant with parts asks for the parts
first, and the parts stay in the pool when a later part is refused.
-/

namespace JavaClass

/-- Entries, and the slot of each entry by its bytes. -/
structure ConstantPool where
  entries : SlotVector Constant
  slots : Std.TreeMap (List UInt8) UInt16

namespace ConstantPool

/-- The first entry takes slot 1; slot 0 means that there is no constant. -/
def empty : ConstantPool := ⟨.startingAt 1, ∅⟩

instance : Inhabited ConstantPool := ⟨empty⟩

/-- A request, which may add entries even if it fails. -/
abbrev Request (α : Type) := EStateM Error ConstantPool α

/-- One more than the last slot in use. -/
def slotCount (pool : ConstantPool) : UInt16 :=
  UInt16.ofNat pool.entries.next

namespace Request

/-- The slot of a constant. -/
def intern (constant : Constant) : Request UInt16 := fun pool =>
  match constant.encode with
  | .error error => .error error pool
  | .ok key =>
      match pool.slots[key]? with
      | some slot => .ok slot pool
      | none =>
          let slot := UInt16.ofNat pool.entries.next
          if countLimit < pool.entries.next + constant.width then
            .error (.poolOverflow constant slot) pool
          else .ok slot ⟨pool.entries.push constant, pool.slots.insert key slot⟩

def text (text : String) : Request UInt16 := intern (.utf8 text)

/-- A class, by its internal name or the descriptor of an array type. -/
def classNamed (name : String) : Request UInt16 := do
  intern (.classInfo (← text name))

/-- A class, slot 0 standing for no class. -/
def optionalClass : Option String → Request UInt16
  | some name => classNamed name
  | none => pure 0

def nameAndType (name descriptor : String) : Request UInt16 := do
  let name ← text name
  let descriptor ← text descriptor
  intern (.nameAndType name descriptor)

def field (owner name descriptor : String) : Request UInt16 := do
  let owner ← classNamed owner
  let member ← nameAndType name descriptor
  intern (.fieldRef owner member)

def method (owner name descriptor : String) (isInterface : Bool) : Request UInt16 := do
  let owner ← classNamed owner
  let member ← nameAndType name descriptor
  intern (.methodRef owner member isInterface)

/-- A method handle, with the member that it names. -/
def methodHandle (handle : MethodHandle) : Request UInt16 := do
  let member ←
    if handle.kind.isField then field handle.owner handle.name handle.descriptor
    else method handle.owner handle.name handle.descriptor handle.isInterface
  intern (.methodHandle handle.kind member)

/-- A call site, by the position of its bootstrap method. -/
def callSite (bootstrap : UInt16) (name descriptor : String) : Request UInt16 := do
  intern (.invokeDynamic bootstrap (← nameAndType name descriptor))

def literal : Literal → Request UInt16
  | .int value => intern (.integer value)
  | .float bits => intern (.float bits)
  | .long value => intern (.long value)
  | .double bits => intern (.double bits)
  | .string contents => do intern (.string (← text contents))
  | .classRef name => classNamed name
  | .methodType descriptor => do intern (.methodType (← text descriptor))
  | .methodHandle handle => methodHandle handle

/-- The slot of each element, in order, up to the first that is refused. -/
def each {α : Type} (request : α → Request UInt16) : List α → Request (List UInt16)
  | items => go items []
where
  go : List α → List UInt16 → Request (List UInt16)
    | [], done => pure done.reverse
    | item :: rest, done => do
        let slot ← request item
        go rest (slot :: done)

end Request

/-- The bytes of the count and the entries. -/
def encode (pool : ConstantPool) : Except Error (List UInt8) :=
  (pool.entries.toList.mapM Constant.encode).map fun encoded =>
    BigEndian.u16 pool.slotCount ++ encoded.flatten

end ConstantPool

end JavaClass
