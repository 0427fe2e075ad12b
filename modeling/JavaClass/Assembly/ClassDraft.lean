import JavaClass.Assembly.Descriptor
import JavaClass.Assembly.MethodDraft
import JavaClass.Event.Basic

/-!
# Classes under construction

A class draft receives the events of a class and turns them into a class file.
The constant pool grows in the order in which events need constants, and every
instruction takes its most compact form.

## Implementation notes

A refused event leaves the draft usable, and what it did before it was refused
stays: constants that it asked for, the start of an interface call whose
descriptor is bad, the new place of a label that had a place before. Ending a
method or the class gives up what was being built even if it is refused.
Operation codes of field, method and type instructions are taken as they come.
-/

namespace JavaClass

open BigEndian

/-- A class that is being assembled. -/
structure ClassDraft where
  pool : ConstantPool
  header : Option EncodedHeader
  source : Option EncodedAttribute
  fields : Array EncodedMember
  methods : Array EncodedMember
  bootstraps : Array Bootstrap
  /-- The position of each bootstrap method. -/
  positions : Std.TreeMap Bootstrap UInt16
  field : Option EncodedMember
  method : Option MethodDraft
  output : Option (List UInt8)

namespace ClassDraft

/-- No events yet. -/
def empty : ClassDraft where
  pool := .empty
  header := none
  source := none
  fields := #[]
  methods := #[]
  bootstraps := #[]
  positions := ∅
  field := none
  method := none
  output := none

instance : Inhabited ClassDraft := ⟨empty⟩

/-- A step that may change the draft even if it fails. -/
abbrev Step (α : Type) := EStateM Error ClassDraft α

/-- Asks the constant pool of the class. -/
def request {α : Type} (ask : ConstantPool.Request α) : Step α := fun draft =>
  let pool := draft.pool
  let draft := { draft with pool := .empty }
  match ask pool with
  | .ok value pool => .ok value { draft with pool }
  | .error error pool => .error error { draft with pool }

/-- Works on the method under construction. -/
def onMethod {α : Type} (work : MethodDraft → α × MethodDraft) : Step α := fun draft =>
  match draft.method with
  | none => .error (.malformed .codeOutsideMethod) draft
  | some method =>
      let draft := { draft with method := none }
      let (value, method) := work method
      .ok value { draft with method := some method }

/-- Changes the method under construction. -/
def editMethod (edit : MethodDraft → MethodDraft) : Step Unit :=
  onMethod fun method => ((), edit method)

/-- Refuses an event. -/
def refuse {α : Type} (cause : Malformation) : Step α :=
  throw (.malformed cause)

/-- Adds an instruction with settled operands. -/
def emit (opcode : Opcode) (operands : List UInt8) : Step Unit :=
  editMethod fun method => method.emit opcode operands

/-- The position of a bootstrap method, which is added if it is new. -/
def bootstrap (handle : MethodHandle) (arguments : List Literal) : Step UInt16 := do
  let method ← request (.methodHandle handle)
  let arguments ← request (.each .literal arguments)
  let entry : Bootstrap := ⟨method, arguments⟩
  modifyGet fun draft =>
    match draft.positions[entry]? with
    | some position => (position, draft)
    | none =>
        let position := UInt16.ofNat draft.bootstraps.size
        (position, { draft with
          bootstraps := draft.bootstraps.push entry
          positions := draft.positions.insert entry position })

/-- Adds a number to push, or the element type of an array to create. -/
def int (opcode : Opcode) (operand : Int32) : Step Unit :=
  if opcode = .bipush ∧ -128 ≤ operand ∧ operand ≤ 127 then
    emit opcode (i8 operand.toInt8)
  else if opcode = .sipush ∧ -32768 ≤ operand ∧ operand ≤ 32767 then
    emit opcode (i16 operand.toInt16)
  else if opcode = .newArray ∧ 0 ≤ operand ∧ operand ≤ 255 then
    emit opcode (u8 operand.toUInt32.toUInt8)
  else refuse (.operandOutOfRange operand opcode)

/-- Adds a call; interface calls announce their argument slots. -/
def call (opcode : Opcode) (owner name descriptor : String) (isInterface : Bool) : Step Unit := do
  let member ← request (.method owner name descriptor isInterface)
  emit opcode (u16 member)
  if opcode = .invokeInterface then
    match Descriptor.argumentSlots? descriptor with
    | none => refuse (.badDescriptor descriptor)
    | some slots => editMethod fun method => method.push [slots, 0]

/-- Adds a constant load, with an index of one byte if that is enough. -/
def load (literal : Literal) : Step Unit := do
  let slot ← request (.literal literal)
  if literal.isWide then emit .ldcLong (u16 slot)
  else if slot < 256 then emit .ldc [slot.toUInt8]
  else emit .ldcWide (u16 slot)

/-- Places a label; the new place counts even if the label had one before. -/
def place (token : LabelToken) : Step Unit := do
  if ← onMethod fun method => method.place token then refuse (.tokenPlacedTwice token)

/-- Adds an instruction, or places a label or a line. -/
def instruction : Instruction LabelToken → Step Unit
  | .simple opcode =>
      if opcode.shape = .bare then emit opcode [] else refuse (.hasOperands opcode)
  | .int opcode operand => int opcode operand
  | .localVar opcode slot =>
      if opcode.shape = .localVar then
        editMethod fun method => method.localVar opcode opcode.shortForm? slot
      else refuse (.notLocalVar opcode)
  | .increment slot delta => editMethod fun method => method.increment slot delta
  | .field opcode owner name descriptor => do
      emit opcode (u16 (← request (.field owner name descriptor)))
  | .method opcode owner name descriptor isInterface =>
      call opcode owner name descriptor isInterface
  | .invokeDynamic name descriptor handle arguments => do
      let position ← bootstrap handle arguments
      let site ← request (.callSite position name descriptor)
      emit .invokeDynamic (u16 site ++ [0, 0])
  | .type opcode name => do emit opcode (u16 (← request (.classNamed name)))
  | .load literal => load literal
  | .jump opcode target =>
      if opcode.isJump then editMethod fun method => method.jump opcode target
      else refuse (.notJump opcode)
  | .lookupSwitch otherwise keys targets =>
      if keys.length = targets.length then
        editMethod fun method => method.lookupSwitch otherwise (keys.zip targets)
      else refuse (.switchKeys keys.length targets.length)
  | .tableSwitch low high otherwise targets =>
      if high < low ∨ high.toInt - low.toInt + 1 ≠ targets.length then
        refuse (.switchTargets low high targets.length)
      else editMethod fun method => method.tableSwitch low high otherwise targets
  | .multiNewArray descriptor dimensions => do
      emit .multiNewArray (u16 (← request (.classNamed descriptor)) ++ [dimensions])
  | .label token => place token
  | .line number token =>
      editMethod fun method => { method with lines := method.lines.push (number, token) }

/-- Settles the attributes of the class: the source file, then the bootstrap methods. -/
def classAttributes : Step (List EncodedAttribute) := do
  let source ← modifyGet fun draft => (draft.source, { draft with source := none })
  let bootstraps ← modifyGet fun draft =>
    (draft.bootstraps, { draft with bootstraps := #[] })
  if bootstraps.isEmpty then return source.toList
  else
    let table ← request <|
      .named "BootstrapMethods" (encodeTable Bootstrap.encode bootstraps.toList)
    return source.toList ++ [table]

/-- Ends the class. -/
def finish : Step Unit := do
  match ← modifyGet fun draft => (draft.header, { draft with header := none }) with
  | none => refuse .endWithoutHeader
  | some header =>
      let attributes ← classAttributes
      let parts ← modifyGet fun draft =>
        (({ header, pool := draft.pool, fields := draft.fields.toList,
            methods := draft.methods.toList, attributes } : ClassParts),
          { draft with pool := .empty, fields := #[], methods := #[] })
      match parts.encode with
      | .error error => throw error
      | .ok bytes => modify fun draft => { draft with output := some bytes }

/-- Receives an event. -/
def receive : Event → Step Unit
  | .header version flags name super interfaces => do
      let thisClass ← request (.classNamed name)
      let superClass ← request (.optionalClass super)
      let interfaces ← request (.each .classNamed interfaces)
      modify fun draft =>
        { draft with header := some ⟨version, flags, thisClass, superClass, interfaces⟩ }
  | .source file => do
      let file ← request (.text file)
      let source ← request (.named "SourceFile" (.ok (u16 file)))
      modify fun draft => { draft with source := some source }
  | .field flags name descriptor value => do
      let name ← request (.text name)
      let descriptor ← request (.text descriptor)
      let attributes ← match value with
        | none => pure []
        | some value => do
            let value ← request (.literal value)
            pure [← request (.named "ConstantValue" (.ok (u16 value)))]
      modify fun draft => { draft with field := some ⟨flags.bits, name, descriptor, attributes⟩ }
  | .fieldEnd => do
      match ← modifyGet fun draft => (draft.field, { draft with field := none }) with
      | none => refuse .fieldEndWithoutField
      | some field => modify fun draft => { draft with fields := draft.fields.push field }
  | .method flags name descriptor exceptions => do
      let name ← request (.text name)
      let descriptor ← request (.text descriptor)
      let exceptions ←
        if exceptions.isEmpty then pure none
        else do
          let classes ← request (.each .classNamed exceptions)
          pure (some (← request (.named "Exceptions" (encodeSlots classes))))
      modify fun draft => { draft with method := some (.start flags name descriptor exceptions) }
  | .instruction i => instruction i
  | .tryBlock block => do
      let catchType ← request (.optionalClass block.exception)
      editMethod fun method => { method with
        hasCode := true
        handlers := method.handlers.push ⟨block.start, block.stop, block.handler, catchType⟩ }
  | .maxs stack locals =>
      editMethod fun method => { method with
        hasCode := true
        maxStack := stack
        maxLocals := locals }
  | .methodEnd => do
      match ← modifyGet fun draft => (draft.method, { draft with method := none }) with
      | none => refuse .methodEndWithoutMethod
      | some method =>
          let method ← request method.finish
          modify fun draft => { draft with methods := draft.methods.push method }
  | .classEnd => finish

/-- The bytes of the class, once its end was received. -/
def bytes (draft : ClassDraft) : Except Error (List UInt8) :=
  match draft.output with
  | some bytes => .ok bytes
  | none => malformed .unfinishedClass

end ClassDraft

end JavaClass
