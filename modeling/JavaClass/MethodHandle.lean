/-!
# Method handles

A method handle names a field or a method together with what to do with it.
The kind decides whether the member it names is a field or a method.
-/

namespace JavaClass

/-- What calling a method handle does. -/
inductive HandleKind where
  | getField
  | getStatic
  | putField
  | putStatic
  | invokeVirtual
  | invokeStatic
  | invokeSpecial
  | newInvokeSpecial
  | invokeInterface
  deriving DecidableEq, Repr

namespace HandleKind

/-- The number that stands for a kind in the constant pool. -/
def code : HandleKind → UInt8
  | getField => 1
  | getStatic => 2
  | putField => 3
  | putStatic => 4
  | invokeVirtual => 5
  | invokeStatic => 6
  | invokeSpecial => 7
  | newInvokeSpecial => 8
  | invokeInterface => 9

/-- The kind that a number stands for. -/
def ofCode? (n : UInt8) : Option HandleKind :=
  if n = 1 then some getField
  else if n = 2 then some getStatic
  else if n = 3 then some putField
  else if n = 4 then some putStatic
  else if n = 5 then some invokeVirtual
  else if n = 6 then some invokeStatic
  else if n = 7 then some invokeSpecial
  else if n = 8 then some newInvokeSpecial
  else if n = 9 then some invokeInterface
  else none

@[simp] theorem ofCode?_code (kind : HandleKind) : ofCode? kind.code = some kind := by
  cases kind <;> rfl

/-- The kind as the specification spells it. -/
def text : HandleKind → String
  | getField => "GetField"
  | getStatic => "GetStatic"
  | putField => "PutField"
  | putStatic => "PutStatic"
  | invokeVirtual => "InvokeVirtual"
  | invokeStatic => "InvokeStatic"
  | invokeSpecial => "InvokeSpecial"
  | newInvokeSpecial => "NewInvokeSpecial"
  | invokeInterface => "InvokeInterface"

/-- Whether handles of this kind name a field. -/
def isField (kind : HandleKind) : Bool :=
  kind.code ≤ 4

end HandleKind

/-- A reference to a member and what to do with it. -/
structure MethodHandle where
  kind : HandleKind
  owner : String
  name : String
  descriptor : String
  /-- Whether the owner is an interface. -/
  isInterface : Bool
  deriving DecidableEq, Repr

end JavaClass
