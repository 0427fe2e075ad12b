import JavaClass.Body.Basic

/-!
# Positions in a method body

Looks up an instruction by its position, and a position by its instruction.
Both go through an index that is made when it is first needed after the list
changed, so a run of look-ups walks the list once.

## Implementation notes

A look-up gives its answer together with the body that holds the index. Nothing
but the index differs between the body before and the body after.
-/

namespace JavaClass

namespace PositionIndex

/-- The index of a list. -/
def ofHandles (slotCount : Nat) (handles : List InstructionHandle) : PositionIndex where
  order := handles.toArray
  positions := handles.zipIdx.foldl
    (fun positions (handle, position) =>
      positions.setIfInBounds handle.slot.toNat (some position))
    (Array.replicate slotCount none)

end PositionIndex

namespace MethodBody

/-- The index of the list as it is. -/
def makeIndex (body : MethodBody) : PositionIndex :=
  .ofHandles body.slots.size (body.toList.map (·.1))

/-- The index, and the body that keeps it. -/
def withIndex (body : MethodBody) : PositionIndex × MethodBody :=
  match body.index with
  | some index => (index, body)
  | none =>
      let index := body.makeIndex
      (index, { body with index := some index })

/-- The position of an instruction, counted from 0. -/
def indexOf (body : MethodBody) (handle : InstructionHandle) : Except Error Nat × MethodBody :=
  match body.linkedNode handle with
  | .error error => (.error error, body)
  | .ok _ =>
      let (index, body) := body.withIndex
      match index.positions[handle.slot.toNat]?.join with
      | some position => (.ok position, body)
      | none => (.error (.unlinked handle), body)

/-- The instruction at a position, counted from 0. -/
def get (body : MethodBody) (position : Nat) : Except Error InstructionHandle × MethodBody :=
  let (index, body) := body.withIndex
  match index.order[position]? with
  | some handle => (.ok handle, body)
  | none => (.error (.indexOutOfRange position body.size), body)

end MethodBody

end JavaClass
