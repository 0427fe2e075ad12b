/-!
# Handles on instructions

A handle names one instruction of one method body. It stays valid while other
instructions come and go, and is refused once its own instruction is removed.
-/

namespace JavaClass

/-- A body, a place in that body, and how many instructions left the place before. -/
structure InstructionHandle where
  body : UInt32
  slot : UInt32
  generation : UInt32
  deriving DecidableEq, Repr, Hashable

/-- The place and the generation. -/
def InstructionHandle.text (handle : InstructionHandle) : String :=
  s!"{handle.slot}.{handle.generation}"

end JavaClass
