/-!
# Sequences addressed by slot

Each element of a slot vector takes as many slots as its width says. The slots
of an element follow those of the element before it, so the slot where an
element starts is the first slot of the vector plus the widths before it.

## Implementation notes

Elements are kept with the slot where they start. Starts never decrease, so the
number of elements that start at or before a slot is found by bisection. An
element of no slots shares its start with the one behind it. A look-up depends
on the outcome of the search alone, so any search among the starts will do.
-/

namespace JavaClass

/-- A number of slots for each element of a type. -/
class HasWidth (α : Type) where
  width : α → Nat

/-- Elements with the slot where each one starts, and the slot after the last one. -/
structure SlotVector (α : Type) where
  entries : Array (Nat × α)
  next : Nat

namespace SlotVector

variable {α : Type}

/-- How a search for a slot ends, among elements that start in order. -/
inductive Search where
  /-- The element at this position starts there. -/
  | found (position : Nat)
  /-- None starts there. An element that did would stand at this position. -/
  | missing (position : Nat)
  deriving Repr

/-- What is found at a slot. -/
inductive Lookup (α : Type) where
  /-- An element starts there. -/
  | start (position : Nat) (element : α)
  /-- The slot is a later slot of the element at this position. -/
  | inside (position : Nat)
  /-- The slot lies before the first element or after the last one. -/
  | outside
  deriving Repr

/-- No elements, the first one to start at `first`. -/
def startingAt (first : Nat) : SlotVector α := ⟨#[], first⟩

instance : Inhabited (SlotVector α) := ⟨startingAt 0⟩

def size (v : SlotVector α) : Nat := v.entries.size

def isEmpty (v : SlotVector α) : Bool := v.entries.isEmpty

/-- Adds an element after the last one. -/
def push [HasWidth α] (v : SlotVector α) (element : α) : SlotVector α :=
  ⟨v.entries.push (v.next, element), v.next + HasWidth.width element⟩

/-- Adds elements after the last one. -/
def append [HasWidth α] (v : SlotVector α) (elements : List α) : SlotVector α :=
  elements.foldl push v

/-- The elements in order. -/
def toList (v : SlotVector α) : List α :=
  v.entries.toList.map Prod.snd

/-- The elements in order, each behind its slot and its position. -/
def withSlots (v : SlotVector α) : List (Nat × Nat × α) :=
  v.entries.toList.zipIdx.map fun ((start, element), position) => (start, position, element)

/-- The number of entries in `low ..< high` and before it that start at or before a slot, given
that all entries before `low` do and none from `high` on does. -/
def bisect (entries : Array (Nat × α)) (slot low high : Nat) : Nat :=
  if h : low < high then
    let middle := (low + high) / 2
    if (entries[middle]?.map (·.1)).any (· ≤ slot) then bisect entries slot (middle + 1) high
    else bisect entries slot low middle
  else low
termination_by high - low

/-- The number of elements that start at or before a slot. -/
def countUpTo (v : SlotVector α) (slot : Nat) : Nat :=
  bisect v.entries slot 0 v.size

/-- The search for a slot among the entries. -/
def search (v : SlotVector α) (slot : Nat) : Search :=
  match v.countUpTo slot with
  | 0 => .missing 0
  | position + 1 =>
      if v.entries[position]?.any (·.1 = slot) then .found position else .missing (position + 1)

/-- What is at a slot, by the outcome of the search for it. -/
def resolve (v : SlotVector α) (slot : Nat) : Search → Lookup α
  | .found position =>
      match v.entries[position]? with
      | some (_, element) => .start position element
      | none => .outside
  | .missing 0 => .outside
  | .missing (position + 1) => if v.next ≤ slot then .outside else .inside position

/-- What is at a slot. -/
def lookup (v : SlotVector α) (slot : Nat) : Lookup α :=
  v.resolve slot (v.search slot)

/-- The element that starts at a slot. -/
def get? (v : SlotVector α) (slot : Nat) : Option α :=
  match v.lookup slot with
  | .start _ element => some element
  | _ => none

end SlotVector

end JavaClass
