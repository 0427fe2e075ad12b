import JavaClass.MethodHandle

/-!
# Constants

The entries of a constant pool. An entry refers to other entries by the slot
where they start. Longs and doubles take two slots, every other entry one.

## Implementation notes

Floating point entries are kept as their bits, so equality of entries is
equality of what is stored.
-/

namespace JavaClass

/-- An entry of a constant pool. -/
inductive Constant where
  | classInfo (name : UInt16)
  | fieldRef (owner nameAndType : UInt16)
  | methodRef (owner nameAndType : UInt16) (isInterface : Bool)
  /-- A string literal, by the entry that holds its text. -/
  | string (text : UInt16)
  | integer (value : Int32)
  | float (bits : UInt32)
  | long (value : Int64)
  | double (bits : UInt64)
  | nameAndType (name descriptor : UInt16)
  | utf8 (text : String)
  | methodHandle (kind : HandleKind) (member : UInt16)
  | methodType (descriptor : UInt16)
  /-- A call site, by the position of its bootstrap method. -/
  | invokeDynamic (bootstrap nameAndType : UInt16)
  | moduleInfo (name : UInt16)
  | packageInfo (name : UInt16)
  deriving DecidableEq, Repr

namespace Constant

/-- The number of slots of an entry. -/
def width : Constant → Nat
  | long _ => 2
  | double _ => 2
  | _ => 1

theorem width_pos (c : Constant) : 0 < c.width := by
  cases c <;> simp [width]

/-- The byte that announces an entry. -/
def tag : Constant → UInt8
  | utf8 _ => 1
  | integer _ => 3
  | float _ => 4
  | long _ => 5
  | double _ => 6
  | classInfo _ => 7
  | string _ => 8
  | fieldRef _ _ => 9
  | methodRef _ _ false => 10
  | methodRef _ _ true => 11
  | nameAndType _ _ => 12
  | methodHandle _ _ => 15
  | methodType _ => 16
  | invokeDynamic _ _ => 18
  | moduleInfo _ => 19
  | packageInfo _ => 20

end Constant

end JavaClass
