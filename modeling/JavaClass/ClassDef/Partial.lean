import JavaClass.ClassDef.Basic
import JavaClass.Event.Delivery

/-!
# Classes of which not all events have come

A partial class receives the events of a class and gives its definition once
the end has come. Tokens become labels of the method that they are used in, in
the order in which they are met.

## Implementation notes

An event that is refused changes nothing. Events that belong to a class need a
header before them, and events that belong to code need a method; beyond that,
their order is not checked.
-/

namespace JavaClass

/-- A class whose events are arriving. -/
structure PartialClass where
  definition : Option ClassDef
  field : Option FieldDef
  method : Option MethodDef
  ended : Bool

namespace PartialClass

/-- No events yet. -/
def empty : PartialClass := ⟨none, none, none, false⟩

instance : Inhabited PartialClass := ⟨empty⟩

/-- The identity of the next method body, which is the number of methods before it. -/
def nextId (p : PartialClass) : UInt32 :=
  UInt32.ofNat ((p.definition.map (·.methods.size)).getD 0)

/-- A step that may change the partial class. -/
abbrev Step (α : Type) := EStateM Error PartialClass α

def refuse {α : Type} (cause : Malformation) : Step α :=
  throw (.malformed cause)

/-- Refuses an event before the header. -/
def needHeader : Step Unit := fun p =>
  match p.definition with
  | some _ => .ok () p
  | none => .error (.malformed .beforeHeader) p

/-- Changes the class. -/
def editClass (edit : ClassDef → ClassDef) : Step Unit := fun p =>
  match p.definition with
  | none => .error (.malformed .beforeHeader) p
  | some definition =>
      let p := { p with definition := none }
      .ok () { p with definition := some (edit definition) }

/-- Changes the body of the method that is arriving. -/
def editBody (edit : MethodBody → MethodBody) : Step Unit := fun p =>
  match p.method with
  | none => .error (.malformed .codeOutsideMethod) p
  | some method =>
      let p := { p with method := none }
      let body := method.body
      let method := { method with body := .empty 0 }
      .ok () { p with method := some { method with body := edit body } }

/-- Adds an instruction, whose tokens become labels from left to right. -/
def addInstruction (body : MethodBody) (instruction : Instruction LabelToken) : MethodBody :=
  let body := (body.resolveAll instruction.targets).2
  (body.append (instruction.map fun token => (body.resolve token).1)).2

/-- Adds an entry to the exception table. -/
def addTryBlock (body : MethodBody) (block : TryBlock LabelToken) : MethodBody :=
  let body := (body.resolveAll block.targets).2
  body.addTryBlock (block.map fun token => (body.resolve token).1)

/-- Receives an event. -/
def receive : Receiver PartialClass
  | .header version flags name super interfaces => do
      match (← get).definition with
      | some _ => refuse .secondHeader
      | none =>
          modify fun p => { p with
            definition := some { ClassDef.new name super with version, flags, interfaces } }
  | .source file => editClass fun c => { c with source := some file }
  | .field flags name descriptor value => do
      needHeader
      modify fun p => { p with field := some ⟨flags, name, descriptor, value⟩ }
  | .fieldEnd => do
      match ← modifyGet fun p => (p.field, { p with field := none }) with
      | none => refuse .fieldEndWithoutField
      | some field => editClass fun c => { c with fields := c.fields.push field }
  | .method flags name descriptor exceptions => do
      needHeader
      modify fun p =>
        { p with method := some ⟨flags, name, descriptor, exceptions, .empty p.nextId⟩ }
  | .instruction i => editBody fun body => addInstruction body i
  | .tryBlock block => editBody fun body => addTryBlock body block
  | .maxs stack locals =>
      editBody fun body => { body with maxStack := stack, maxLocals := locals }
  | .methodEnd => do
      match ← modifyGet fun p => (p.method, { p with method := none }) with
      | none => refuse .methodEndWithoutMethod
      | some method => editClass fun c => { c with methods := c.methods.push method }
  | .classEnd => do
      needHeader
      modify fun p => { p with ended := true }

/-- The class, once its header and its end have come. -/
def finish (p : PartialClass) : Except Error ClassDef :=
  match p.definition, p.ended with
  | some definition, true => .ok definition
  | _, _ => malformed .incompleteEvents

end PartialClass

end JavaClass
