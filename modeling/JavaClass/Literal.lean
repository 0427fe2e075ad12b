import JavaClass.MethodHandle

/-!
# Literals

A literal is a value that code can load from the constant pool, that a field
can start with, and that a bootstrap method can take as an argument.

## Implementation notes

Floating point literals are kept as their bits. Two literals are equal when the
constant pool would share them: not-a-number payloads and the sign of zero
count, and an integer never equals a long.
-/

namespace JavaClass

/-- A loadable value. -/
inductive Literal where
  | int (value : Int32)
  | float (bits : UInt32)
  | long (value : Int64)
  | double (bits : UInt64)
  | string (text : String)
  /-- A class by its internal name, or an array type by its descriptor. -/
  | classRef (name : String)
  | methodType (descriptor : String)
  | methodHandle (handle : MethodHandle)
  deriving DecidableEq, Repr

namespace Literal

/-- The type of a literal. -/
inductive Kind where
  | int
  | float
  | long
  | double
  | string
  | classRef
  | methodType
  | methodHandle
  deriving DecidableEq, Repr

def kind : Literal → Kind
  | int _ => .int
  | float _ => .float
  | long _ => .long
  | double _ => .double
  | string _ => .string
  | classRef _ => .classRef
  | methodType _ => .methodType
  | methodHandle _ => .methodHandle

/-- Longs and doubles take two places, on the operand stack and in the constant pool. -/
def isWide (literal : Literal) : Bool :=
  literal.kind = .long || literal.kind = .double

end Literal

end JavaClass
