import Std.Data.TreeMap
import JavaClass.Error
import JavaClass.Instruction

/-!
# Method bodies

The body of a method: a doubly linked list of instructions, an exception table,
and the sizes of the operand stack and of the local variables. Instructions are
named by handles, which stay valid while other instructions come and go.

## Implementation notes

Nodes live in numbered slots. A slot counts the removals that it has seen, and
a handle carries the count at the time when it was given out, so a handle on a
removed instruction is refused even if its slot is in use again. The slot that
was freed last is used first. A body has an identity of its own, which its
handles carry, so the handles of one body are refused by another.

A missing neighbour stands for the end of the list: linking to it changes the
first or the last slot of the body.
-/

namespace JavaClass

/-- An instruction and its neighbours in the list. -/
structure BodyNode where
  instruction : Instruction Label
  before : Option UInt32
  after : Option UInt32
  deriving Repr

/-- A place for a node. -/
structure BodySlot where
  /-- How many nodes were removed from the slot. -/
  generation : UInt32
  node : Option BodyNode
  deriving Repr

/-- The position of every instruction, as it was when the list was last walked. -/
structure PositionIndex where
  order : Array InstructionHandle
  /-- The position of the node in each slot. -/
  positions : Array (Option Nat)
  deriving Repr

/-- The body of a method. -/
structure MethodBody where
  id : UInt32
  slots : Array BodySlot
  /-- The slots without a node, the one freed last in front. -/
  free : List UInt32
  first : Option UInt32
  last : Option UInt32
  size : Nat
  /-- The labels that stand for tokens. -/
  labels : Std.TreeMap LabelToken Label
  labelCount : UInt32
  tryBlocks : Array (TryBlock Label)
  maxStack : UInt16
  maxLocals : UInt16
  /-- Present only while the list is as it was when the index was made. -/
  index : Option PositionIndex

namespace MethodBody

/-- A body without instructions. -/
def empty (id : UInt32) : MethodBody where
  id := id
  slots := #[]
  free := []
  first := none
  last := none
  size := 0
  labels := ∅
  labelCount := 0
  tryBlocks := #[]
  maxStack := 0
  maxLocals := 0
  index := none

instance : Inhabited MethodBody := ⟨empty 0⟩

/-- The same contents under another identity. -/
def copy (body : MethodBody) (id : UInt32) : MethodBody :=
  { body with id, index := none }

def isEmpty (body : MethodBody) : Bool := body.size == 0

/-- The node in a slot. -/
def node? (body : MethodBody) (slot : UInt32) : Option BodyNode :=
  body.slots[slot.toNat]?.bind (·.node)

/-- How many nodes were removed from a slot. -/
def generation (body : MethodBody) (slot : UInt32) : UInt32 :=
  (body.slots[slot.toNat]?.map (·.generation)).getD 0

/-- The handle on the node in a slot. -/
def handle (body : MethodBody) (slot : UInt32) : InstructionHandle :=
  ⟨body.id, slot, body.generation slot⟩

def firstHandle? (body : MethodBody) : Option InstructionHandle :=
  body.first.map body.handle

def lastHandle? (body : MethodBody) : Option InstructionHandle :=
  body.last.map body.handle

/-- The node that a handle names. -/
def linkedNode (body : MethodBody) (handle : InstructionHandle) : Except Error BodyNode :=
  match body.node? handle.slot with
  | some node =>
      if handle.body = body.id ∧ handle.generation = body.generation handle.slot then .ok node
      else .error (.unlinked handle)
  | none => .error (.unlinked handle)

/-- Puts a node into the slot freed last, or into a new one. -/
def allocate (body : MethodBody) (node : BodyNode) : UInt32 × MethodBody :=
  match body.free with
  | slot :: free =>
      (slot, { body with
        free
        slots := body.slots.modify slot.toNat fun s => { s with node := some node } })
  | [] =>
      (UInt32.ofNat body.slots.size, { body with slots := body.slots.push ⟨0, some node⟩ })

/-- Makes `after` follow a slot, or come first if there is no node in the slot. -/
def linkAfter (body : MethodBody) (slot after : Option UInt32) : MethodBody :=
  match slot.filter fun slot => (body.node? slot).isSome with
  | some slot =>
      { body with slots := body.slots.modify slot.toNat fun s =>
          { s with node := s.node.map fun node => { node with after } } }
  | none => { body with first := after }

/-- Makes `before` precede a slot, or come last if there is no node in the slot. -/
def linkBefore (body : MethodBody) (slot before : Option UInt32) : MethodBody :=
  match slot.filter fun slot => (body.node? slot).isSome with
  | some slot =>
      { body with slots := body.slots.modify slot.toNat fun s =>
          { s with node := s.node.map fun node => { node with before } } }
  | none => { body with last := before }

/-- Adds an instruction between two neighbours. -/
def insertBetween (body : MethodBody) (instruction : Instruction Label)
    (before after : Option UInt32) : InstructionHandle × MethodBody :=
  let (slot, body) := body.allocate ⟨instruction, before, after⟩
  let body := (body.linkAfter before (some slot)).linkBefore after (some slot)
  let body := { body with size := body.size + 1, index := none }
  (body.handle slot, body)

/-- Adds an instruction at the end. -/
def append (body : MethodBody) (instruction : Instruction Label) :
    InstructionHandle × MethodBody :=
  body.insertBetween instruction body.last none

/-- Adds an instruction at the start. -/
def prepend (body : MethodBody) (instruction : Instruction Label) :
    InstructionHandle × MethodBody :=
  body.insertBetween instruction none body.first

/-- Adds an instruction right before another one. -/
def insertBefore (body : MethodBody) (anchor : InstructionHandle)
    (instruction : Instruction Label) : Except Error (InstructionHandle × MethodBody) :=
  (body.linkedNode anchor).map fun node =>
    body.insertBetween instruction node.before (some anchor.slot)

/-- Adds an instruction right after another one. -/
def insertAfter (body : MethodBody) (anchor : InstructionHandle)
    (instruction : Instruction Label) : Except Error (InstructionHandle × MethodBody) :=
  (body.linkedNode anchor).map fun node =>
    body.insertBetween instruction (some anchor.slot) node.after

/-- Takes an instruction out of the list; its handle is refused from then on. -/
def remove (body : MethodBody) (handle : InstructionHandle) :
    Except Error (Instruction Label × MethodBody) :=
  (body.linkedNode handle).map fun node =>
    let body := { body with
      slots := body.slots.modify handle.slot.toNat fun s => ⟨s.generation + 1, none⟩
      free := handle.slot :: body.free }
    let body := (body.linkAfter node.before node.after).linkBefore node.after node.before
    (node.instruction, { body with size := body.size - 1, index := none })

def instruction (body : MethodBody) (handle : InstructionHandle) :
    Except Error (Instruction Label) :=
  (body.linkedNode handle).map (·.instruction)

/-- Exchanges an instruction, which keeps its handle and its position. -/
def replace (body : MethodBody) (handle : InstructionHandle) (instruction : Instruction Label) :
    Except Error MethodBody :=
  (body.linkedNode handle).map fun _ =>
    { body with slots := body.slots.modify handle.slot.toNat fun s =>
        { s with node := s.node.map fun node => { node with instruction } } }

/-- The handle on the instruction that follows. -/
def next (body : MethodBody) (handle : InstructionHandle) :
    Except Error (Option InstructionHandle) :=
  (body.linkedNode handle).map fun node => node.after.map body.handle

/-- The handle on the instruction that precedes. -/
def previous (body : MethodBody) (handle : InstructionHandle) :
    Except Error (Option InstructionHandle) :=
  (body.linkedNode handle).map fun node => node.before.map body.handle

/-- Follows the list from a slot on for at most `fuel` nodes, after those in `done`, the last one
first. -/
def walkFrom (body : MethodBody) :
    (fuel : Nat) → Option UInt32 → List (InstructionHandle × Instruction Label) →
      List (InstructionHandle × Instruction Label)
  | 0, _, done => done.reverse
  | _ + 1, none, done => done.reverse
  | fuel + 1, some slot, done =>
      match body.node? slot with
      | none => done.reverse
      | some node => body.walkFrom fuel node.after ((body.handle slot, node.instruction) :: done)

/-- The instructions in order, with their handles. -/
def toList (body : MethodBody) : List (InstructionHandle × Instruction Label) :=
  body.walkFrom body.slots.size body.first []

/-- Follows the list backwards from a slot on for at most `fuel` nodes. -/
def walkBackFrom (body : MethodBody) : (fuel : Nat) → Option UInt32 → List InstructionHandle
  | 0, _ => []
  | _ + 1, none => []
  | fuel + 1, some slot =>
      match body.node? slot with
      | none => []
      | some node => body.handle slot :: body.walkBackFrom fuel node.before

/-- The handles from the last instruction to the first. -/
def backward (body : MethodBody) : List InstructionHandle :=
  body.walkBackFrom body.slots.size body.last

/-- The instructions in order. -/
def instructions (body : MethodBody) : List (Instruction Label) :=
  body.toList.map (·.2)

/-- Whether the instruction of a handle is in the list. -/
def contains (body : MethodBody) (handle : InstructionHandle) : Bool :=
  body.toList.any fun (linked, _) => linked = handle

end MethodBody

end JavaClass
