import JavaClass.AccessFlags
import JavaClass.Bootstrap
import JavaClass.ClassFile.Basic
import JavaClass.Constant.Pool

/-!
# Parts of a class file to be written

Attributes and members whose names and contents are settled, and the bytes of a
whole class file made of them.
-/

namespace JavaClass

open BigEndian

/-- An attribute with its contents encoded. -/
structure EncodedAttribute where
  name : UInt16
  contents : List UInt8
  deriving DecidableEq, Repr

namespace EncodedAttribute

def encode (part : EncodedAttribute) : List UInt8 :=
  u16 part.name ++ encodeBlock part.contents

end EncodedAttribute

/-- Asks for the name of an attribute, then takes its contents, which may have failed. -/
def ConstantPool.Request.named (name : String) (contents : Except Error (List UInt8)) :
    Request EncodedAttribute := do
  let name ← text name
  match contents with
  | .ok contents => pure ⟨name, contents⟩
  | .error error => throw error

/-- A field or a method with its attributes encoded. -/
structure EncodedMember where
  flags : UInt16
  name : UInt16
  descriptor : UInt16
  attributes : List EncodedAttribute
  deriving DecidableEq, Repr

namespace EncodedMember

def encode (part : EncodedMember) : Except Error (List UInt8) :=
  (encodeTable (fun a => .ok (EncodedAttribute.encode a)) part.attributes).map fun attributes =>
    u16 part.flags ++ u16 part.name ++ u16 part.descriptor ++ attributes

end EncodedMember

/-- The bytes of a table of constant pool slots. -/
def encodeSlots (slots : List UInt16) : Except Error (List UInt8) :=
  encodeTable (fun slot => .ok (u16 slot)) slots

def Bootstrap.encode (bootstrap : Bootstrap) : Except Error (List UInt8) :=
  (encodeSlots bootstrap.arguments).map (u16 bootstrap.method ++ ·)

/-- What stands between the constant pool and the fields, and the version. -/
structure EncodedHeader where
  version : Version
  flags : ClassFlags
  thisClass : UInt16
  superClass : UInt16
  interfaces : List UInt16
  deriving DecidableEq, Repr

/-- All parts of a class file. -/
structure ClassParts where
  header : EncodedHeader
  pool : ConstantPool
  fields : List EncodedMember
  methods : List EncodedMember
  attributes : List EncodedAttribute

namespace ClassParts

/-- The bytes of a class file. -/
def encode (parts : ClassParts) : Except Error (List UInt8) := do
  let pool ← parts.pool.encode
  let interfaces ← encodeSlots parts.header.interfaces
  let fields ← encodeTable EncodedMember.encode parts.fields
  let methods ← encodeTable EncodedMember.encode parts.methods
  let attributes ← encodeTable (fun a => .ok (EncodedAttribute.encode a)) parts.attributes
  return u32 magic ++ parts.header.version.encode ++ pool ++ u16 parts.header.flags.bits ++
    u16 parts.header.thisClass ++ u16 parts.header.superClass ++ interfaces ++ fields ++
    methods ++ attributes

end ClassParts

end JavaClass
