import JavaClass.Assembly.Parts
import JavaClass.Label

/-!
# Methods under construction

The code of a method while its instructions arrive. Branch offsets are reserved
as zero bytes and filled in when the method is finished, since a label may be
placed after it is mentioned.

## Implementation notes

Offsets are counted from the start of the code and branches are relative to the
instruction that branches. Everything that can go wrong with labels is found
when the method is finished, in the order: branches, exception table, lines.
-/

namespace JavaClass

open BigEndian

/-- A reserved branch offset. -/
structure Fixup where
  opcode : Opcode
  /-- Where the branching instruction starts. -/
  origin : Nat
  /-- Where the offset goes. -/
  position : Nat
  /-- Four bytes rather than two. -/
  wide : Bool
  target : LabelToken
  deriving DecidableEq, Repr

/-- An entry of an exception table whose class is settled but whose labels are not. -/
structure DraftHandler where
  start : LabelToken
  stop : LabelToken
  handler : LabelToken
  catchType : UInt16
  deriving DecidableEq, Repr

/-- A method whose code is being assembled. -/
structure MethodDraft where
  flags : MethodFlags
  name : UInt16
  descriptor : UInt16
  exceptions : Option EncodedAttribute
  /-- Whether the method gets a code attribute. -/
  hasCode : Bool
  code : Array UInt8
  labels : Std.TreeMap LabelToken Nat
  fixups : Array Fixup
  lines : Array (UInt16 × LabelToken)
  handlers : Array DraftHandler
  maxStack : UInt16
  maxLocals : UInt16

namespace MethodDraft

/-- A method without any code yet. -/
def start (flags : MethodFlags) (name descriptor : UInt16)
    (exceptions : Option EncodedAttribute) : MethodDraft :=
  { flags, name, descriptor, exceptions
    hasCode := flags.hasCode
    code := #[]
    labels := ∅
    fixups := #[]
    lines := #[]
    handlers := #[]
    maxStack := 0
    maxLocals := 0 }

/-- Adds bytes to the code. -/
def push (draft : MethodDraft) (bytes : List UInt8) : MethodDraft :=
  { draft with code := bytes.foldl Array.push draft.code }

/-- Adds an operation code and what follows it. -/
def emit (draft : MethodDraft) (opcode : Opcode) (operands : List UInt8) : MethodDraft :=
  { draft with hasCode := true, code := operands.foldl Array.push (draft.code.push opcode.byte) }

/-- Reserves a branch offset for the instruction at `origin`. -/
def reserve (draft : MethodDraft) (opcode : Opcode) (origin : Nat) (wide : Bool)
    (target : LabelToken) : MethodDraft :=
  let position := draft.code.size
  let zeros : List UInt8 := if wide then [0, 0, 0, 0] else [0, 0]
  { draft with
    fixups := draft.fixups.push ⟨opcode, origin, position, wide, target⟩
    code := zeros.foldl Array.push draft.code }

/-- Adds a jump. -/
def jump (draft : MethodDraft) (opcode : Opcode) (target : LabelToken) : MethodDraft :=
  let origin := draft.code.size
  (draft.emit opcode []).reserve opcode origin opcode.isWideJump target

/-- The zero bytes up to the next multiple of four. -/
def switchPadding (length : Nat) : List UInt8 :=
  List.replicate ((4 - length % 4) % 4) 0

/-- Adds the code of a switch, the padding and the default target. -/
def switch (draft : MethodDraft) (opcode : Opcode) (otherwise : LabelToken) : MethodDraft :=
  let origin := draft.code.size
  (draft.emit opcode (switchPadding (origin + 1))).reserve opcode origin true otherwise

/-- Adds a switch by pairs of a key and a target. -/
def lookupSwitch (draft : MethodDraft) (otherwise : LabelToken)
    (pairs : List (Int32 × LabelToken)) : MethodDraft :=
  let origin := draft.code.size
  let opcode := Opcode.lookupSwitch
  pairs.foldl (fun draft (key, target) => (draft.push (i32 key)).reserve opcode origin true target)
    ((draft.switch opcode otherwise).push (ofNat 4 pairs.length))

/-- Adds a switch by bounds. -/
def tableSwitch (draft : MethodDraft) (low high : Int32) (otherwise : LabelToken)
    (targets : List LabelToken) : MethodDraft :=
  let origin := draft.code.size
  let opcode := Opcode.tableSwitch
  targets.foldl (fun draft target => draft.reserve opcode origin true target)
    ((draft.switch opcode otherwise).push (i32 low ++ i32 high))

/-- Adds an access to a local variable in its most compact form, given its short form. -/
def localVar (draft : MethodDraft) (opcode : Opcode) (short : Option Opcode) (slot : UInt16) :
    MethodDraft :=
  match short with
  | some short =>
      if slot < 4 then draft.emit ⟨short.byte + slot.toUInt8⟩ []
      else if slot < 256 then draft.emit opcode [slot.toUInt8]
      else draft.emit .wide (opcode.byte :: u16 slot)
  | none =>
      if slot < 256 then draft.emit opcode [slot.toUInt8]
      else draft.emit .wide (opcode.byte :: u16 slot)

/-- Adds an increment in its most compact form. -/
def increment (draft : MethodDraft) (slot : UInt16) (delta : Int16) : MethodDraft :=
  if slot < 256 ∧ -128 ≤ delta ∧ delta ≤ 127 then
    draft.emit .iinc [slot.toUInt8, delta.toInt8.toUInt8]
  else draft.emit .wide (Opcode.iinc.byte :: (u16 slot ++ i16 delta))

/-- Places a label at the end of the code, and tells whether it had a place before. -/
def place (draft : MethodDraft) (token : LabelToken) : Bool × MethodDraft :=
  (draft.labels.contains token,
    { draft with labels := draft.labels.insert token draft.code.size })

/-- The offset of a label. -/
def offset (draft : MethodDraft) (token : LabelToken) : Except Error Nat :=
  match draft.labels[token]? with
  | some offset => .ok offset
  | none => malformed (.unplacedToken token)

/-- Overwrites bytes of the code from a position on. -/
def overwrite (code : Array UInt8) (position : Nat) : List UInt8 → Array UInt8
  | [] => code
  | byte :: rest => overwrite (code.setIfInBounds position byte) (position + 1) rest

/-- Fills in a reserved offset. -/
def patch (draft : MethodDraft) (code : Array UInt8) (fixup : Fixup) :
    Except Error (Array UInt8) := do
  let target ← draft.offset fixup.target
  let distance : Int := target - fixup.origin
  if fixup.wide then
    return overwrite code fixup.position (i32 (Int32.ofInt distance))
  else if -32768 ≤ distance ∧ distance ≤ 32767 then
    return overwrite code fixup.position (i16 (Int16.ofInt distance))
  else throw (.jumpTooFar fixup.opcode distance)

/-- The code with all branch offsets filled in, unless it is too long. -/
def patchedCode (draft : MethodDraft) : Except Error (Array UInt8) :=
  if countLimit < draft.code.size then .error (.codeTooLong draft.code.size)
  else draft.fixups.foldlM draft.patch draft.code

/-- The bytes of an offset. -/
def offsetBytes (draft : MethodDraft) (token : LabelToken) : Except Error (List UInt8) :=
  (draft.offset token).map (ofNat 2)

/-- The bytes of an entry of the exception table. -/
def encodeHandler (draft : MethodDraft) (handler : DraftHandler) : Except Error (List UInt8) := do
  let start ← draft.offsetBytes handler.start
  let stop ← draft.offsetBytes handler.stop
  let target ← draft.offsetBytes handler.handler
  return start ++ stop ++ target ++ u16 handler.catchType

/-- The bytes of an entry of the line number table. -/
def encodeLine (draft : MethodDraft) (line : UInt16 × LabelToken) : Except Error (List UInt8) := do
  return (← draft.offsetBytes line.2) ++ u16 line.1

/-- Takes a result that does not depend on the pool. -/
def settled {α : Type} (result : Except Error α) : ConstantPool.Request α :=
  match result with
  | .ok value => pure value
  | .error error => throw error

/-- Asks for the line number table, if there are lines. -/
def lineAttributes (draft : MethodDraft) : ConstantPool.Request (List EncodedAttribute) := do
  if draft.lines.isEmpty then return []
  else
    let lines ← settled (draft.lines.toList.mapM draft.encodeLine)
    return [← .named "LineNumberTable" (encodeTable .ok lines)]

/-- Asks for the code attribute, given the patched code. -/
def codeAttribute (draft : MethodDraft) (code : Array UInt8) :
    ConstantPool.Request EncodedAttribute := do
  let handlers ← settled (draft.handlers.toList.mapM draft.encodeHandler)
  let attributes ← draft.lineAttributes
  .named "Code" do
    let handlers ← encodeTable .ok handlers
    let attributes ← encodeTable (fun a => .ok (EncodedAttribute.encode a)) attributes
    return u16 draft.maxStack ++ u16 draft.maxLocals ++ encodeBlock code.toList ++ handlers ++
      attributes

/-- Settles a method: its code, if it has any, and then the exceptions that it declares. -/
def finish (draft : MethodDraft) : ConstantPool.Request EncodedMember := do
  let code ← settled draft.patchedCode
  let attributes ← if draft.hasCode then do pure [← draft.codeAttribute code] else pure []
  return ⟨draft.flags.bits, draft.name, draft.descriptor, attributes ++ draft.exceptions.toList⟩

end MethodDraft

end JavaClass
