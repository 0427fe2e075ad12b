import JavaClass.Body.Labels

/-!
# Class definitions

What a class is, free of constant pool slots and bytecode offsets: members have
their names and descriptors, and branches go to labels. A definition can be told
as events.

## Implementation notes

Only what has an event is part of a definition. Members are kept in the order
of their declaration; several may share a name and a descriptor, and looking
one up finds the first.
-/

namespace JavaClass

/-- A field. -/
structure FieldDef where
  flags : FieldFlags
  name : String
  descriptor : String
  /-- The value that a static field starts with. -/
  value : Option Literal
  deriving DecidableEq, Repr

/-- A method. -/
structure MethodDef where
  flags : MethodFlags
  name : String
  descriptor : String
  /-- The internal names of the exceptions that the method declares. -/
  exceptions : List String
  body : MethodBody

/-- A class. -/
structure ClassDef where
  version : Version
  flags : ClassFlags
  /-- The internal name. -/
  name : String
  super : Option String
  interfaces : List String
  source : Option String
  fields : Array FieldDef
  methods : Array MethodDef

namespace FieldDef

/-- Whether the field has this name and this descriptor. -/
def isNamed (field : FieldDef) (name descriptor : String) : Bool :=
  field.name == name && field.descriptor == descriptor

/-- Tells a field. -/
def transcript (field : FieldDef) : Transcript :=
  .tell [.field field.flags field.name field.descriptor field.value, .fieldEnd]

end FieldDef

namespace MethodDef

/-- Whether the method has this name and this descriptor. -/
def isNamed (method : MethodDef) (name descriptor : String) : Bool :=
  method.name == name && method.descriptor == descriptor

/-- Whether the method is written with code. -/
def hasCode (method : MethodDef) : Bool :=
  method.flags.hasCode || !method.body.isEmpty

/-- Tells the code of a method, if it has any. -/
def tellCode (method : MethodDef) : Transcript :=
  if method.hasCode then
    method.body.transcript.mapFailure (Error.inMethod method.name method.descriptor)
  else .done

/-- Tells a method. -/
def transcript (method : MethodDef) : Transcript :=
  (Transcript.tell
    [.method method.flags method.name method.descriptor method.exceptions]).andThen <|
  method.tellCode.andThen <|
  Transcript.tell [.methodEnd]

end MethodDef

namespace ClassDef

/-- A public class of the usual version without members. -/
def new (name : String) (super : Option String) : ClassDef where
  version := .standard
  flags := .standard
  name := name
  super := super
  interfaces := []
  source := none
  fields := #[]
  methods := #[]

instance : Inhabited ClassDef := ⟨new "" none⟩

/-- Tells a class. -/
def transcript (c : ClassDef) : Transcript :=
  (Transcript.tell (.header c.version c.flags c.name c.super c.interfaces ::
    (c.source.map Event.source).toList)).andThen <|
  (Transcript.concat (c.fields.toList.map FieldDef.transcript)).andThen <|
  (Transcript.concat (c.methods.toList.map MethodDef.transcript)).andThen <|
  Transcript.tell [.classEnd]

/-- The position of the first method with this name and this descriptor. -/
def methodPosition? (c : ClassDef) (name descriptor : String) : Option Nat :=
  c.methods.findIdx? (·.isNamed name descriptor)

/-- The position of the first field with this name and this descriptor. -/
def fieldPosition? (c : ClassDef) (name descriptor : String) : Option Nat :=
  c.fields.findIdx? (·.isNamed name descriptor)

def findMethod? (c : ClassDef) (name descriptor : String) : Option MethodDef :=
  (c.methodPosition? name descriptor).bind (c.methods[·]?)

def findField? (c : ClassDef) (name descriptor : String) : Option FieldDef :=
  (c.fieldPosition? name descriptor).bind (c.fields[·]?)

/-- Changes the first method with this name and this descriptor. -/
def modifyMethod (c : ClassDef) (name descriptor : String) (f : MethodDef → MethodDef) :
    ClassDef :=
  match c.methodPosition? name descriptor with
  | some position => { c with methods := c.methods.modify position f }
  | none => c

/-- Changes the first field with this name and this descriptor. -/
def modifyField (c : ClassDef) (name descriptor : String) (f : FieldDef → FieldDef) : ClassDef :=
  match c.fieldPosition? name descriptor with
  | some position => { c with fields := c.fields.modify position f }
  | none => c

/-- Puts a method in the place of the one with its name and descriptor, or at the end. -/
def addMethod (c : ClassDef) (method : MethodDef) : ClassDef :=
  match c.methodPosition? method.name method.descriptor with
  | some position => { c with methods := c.methods.setIfInBounds position method }
  | none => { c with methods := c.methods.push method }

/-- Puts a field in the place of the one with its name and descriptor, or at the end. -/
def addField (c : ClassDef) (field : FieldDef) : ClassDef :=
  match c.fieldPosition? field.name field.descriptor with
  | some position => { c with fields := c.fields.setIfInBounds position field }
  | none => { c with fields := c.fields.push field }

/-- Takes out the first method with this name and this descriptor. -/
def removeMethod (c : ClassDef) (name descriptor : String) : Option MethodDef × ClassDef :=
  match c.methodPosition? name descriptor with
  | some position =>
      (c.methods[position]?, { c with methods := c.methods.eraseIdxIfInBounds position })
  | none => (none, c)

/-- Takes out the first field with this name and this descriptor. -/
def removeField (c : ClassDef) (name descriptor : String) : Option FieldDef × ClassDef :=
  match c.fieldPosition? name descriptor with
  | some position =>
      (c.fields[position]?, { c with fields := c.fields.eraseIdxIfInBounds position })
  | none => (none, c)

end ClassDef

end JavaClass
