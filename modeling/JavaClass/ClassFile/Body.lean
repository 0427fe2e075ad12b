import Std.Data.TreeMap
import Std.Data.TreeSet
import JavaClass.Bootstrap
import JavaClass.Bytecode.Decode
import JavaClass.ClassFile.Members
import JavaClass.Event.Transcript

/-!
# Method bodies of a class file

Reads a code attribute and tells it as events. Every offset that something
refers to becomes a label, which is told right before the instruction at that
offset, and right after the label come the lines that start there. All of the
attribute is read before the first event is told; only constants of loads, call
sites and exception classes are looked up while telling.

## Implementation notes

Lines may be spread over several tables. The lines of one offset keep the order
in which the tables name them.
-/

namespace JavaClass

/-- An entry of an exception table as it was read; slot 0 catches everything. -/
structure HandlerRange where
  start : Nat
  stop : Nat
  handler : Nat
  catchType : UInt16
  deriving DecidableEq, Repr

/-- A code attribute as it was read. -/
structure BodyRecord where
  maxStack : UInt16
  maxLocals : UInt16
  length : Nat
  instructions : List (Nat × Bytecode.Decoded)
  handlers : List HandlerRange
  /-- The offset where a line starts, and the number of the line. -/
  lines : List (Nat × UInt16)
  deriving DecidableEq, Repr

namespace BodyRecord

/-- The offsets that something refers to, some of them several times. -/
def mentioned (body : BodyRecord) : List Nat :=
  body.instructions.flatMap (fun (_, decoded) => decoded.targets) ++
    body.handlers.flatMap (fun h => [h.start, h.stop, h.handler]) ++
    body.lines.map (·.1)

/-- The offsets that something refers to but where no label can stand. -/
def unplaceable (body : BodyRecord) : List Nat :=
  let starts := Std.TreeSet.ofList (body.instructions.map (·.1))
  body.mentioned.filter fun offset => !starts.contains offset && offset != body.length

/-- The lines that start at each offset. -/
def linesByOffset (lines : List (Nat × UInt16)) : Std.TreeMap Nat (List UInt16) :=
  lines.foldr (fun (offset, line) found =>
    found.insert offset (line :: found.getD offset [])) ∅

/-- The token for an offset. -/
def token (offset : Nat) : LabelToken := ⟨UInt32.ofNat offset⟩

/-- The label at an offset and the lines that start there, if anything refers to it. -/
def place (labels : Std.TreeSet Nat) (lines : Std.TreeMap Nat (List UInt16)) (offset : Nat) :
    List Event :=
  if labels.contains offset then
    .instruction (.label (token offset)) ::
      (lines.getD offset []).map fun line => .instruction (.line line (token offset))
  else []

end BodyRecord

namespace ClassFile

/-- Reads one entry of an exception table. -/
def readHandler (file : ClassFile) (window : Bytecode.Window) (index : Nat) :
    Except Error HandlerRange := do
  let start ← window.offset (← file.bytes.u16 index).toNat
  let stop ← window.offset (← file.bytes.u16 (index + 2)).toNat
  let handler ← window.offset (← file.bytes.u16 (index + 4)).toNat
  return ⟨start, stop, handler, ← file.bytes.u16 (index + 6)⟩

/-- Reads one table of line numbers. -/
def readLines (file : ClassFile) (window : Bytecode.Window) (range : AttributeRange) :
    Except Error (List (Nat × UInt16)) := do
  let count ← file.bytes.u16 range.start
  readEach (fun index => do
    let offset ← window.offset (← file.bytes.u16 index).toNat
    return (offset, ← file.bytes.u16 (index + 2))) 4 (range.start + 2) count.toNat

/-- Reads a code attribute. -/
def readBody (file : ClassFile) (range : AttributeRange) : Except Error BodyRecord := do
  let bytes := file.bytes
  let maxStack ← bytes.u16 range.start
  let maxLocals ← bytes.u16 (range.start + 2)
  let length := (← bytes.u32 (range.start + 4)).toNat
  let start := range.start + 8
  let stop := start + length
  if countLimit < length ∨ range.start + range.length < stop then
    malformed (.invalidCodeLength length)
  else
    let window : Bytecode.Window := ⟨bytes, file.constants, start, length⟩
    let instructions ← window.decodeAll
    let handlerCount := (← bytes.u16 stop).toNat
    let handlers ← readEach (file.readHandler window) 8 (stop + 2) handlerCount
    let (attributes, _) ← file.readAttributes (stop + 2 + 8 * handlerCount)
    let tables := attributes.filter (·.name = "LineNumberTable")
    let lines := (← tables.mapM (file.readLines window)).flatten
    let body : BodyRecord := ⟨maxStack, maxLocals, length, instructions, handlers, lines⟩
    match body.unplaceable.min? with
    | some offset => malformed (.notInstructionStart offset)
    | none => return body

/-- Tells an instruction, whose constants are looked up now. -/
def tellDecoded (file : ClassFile) (bootstraps : Array Bootstrap) :
    Bytecode.Decoded → Transcript
  | .complete instruction => .tell [.instruction (instruction.map BodyRecord.token)]
  | .load slot =>
      .withResult (file.constants.literal slot) fun literal => .tell [.instruction (.load literal)]
  | .call site =>
      match bootstraps[site.bootstrap.toNat]? with
      | none => .fail (.malformed (.missingBootstrap site.bootstrap))
      | some bootstrap =>
          .withResult (file.constants.methodHandle bootstrap.method) fun handle =>
            .withResult (bootstrap.arguments.mapM file.constants.literal) fun arguments =>
              .tell [.instruction (.invokeDynamic site.name site.descriptor handle arguments)]

/-- Tells an entry of an exception table. -/
def tellHandler (file : ClassFile) (handler : HandlerRange) : Transcript :=
  .withResult (file.constants.optionalClassName handler.catchType) fun exception =>
    .tell [.tryBlock ((⟨handler.start, handler.stop, handler.handler, exception⟩ :
      TryBlock Nat).map BodyRecord.token)]

/-- Tells a method body. -/
def tellBody (file : ClassFile) (bootstraps : Array Bootstrap) (body : BodyRecord) : Transcript :=
  let labels := Std.TreeSet.ofList body.mentioned
  let lines := BodyRecord.linesByOffset body.lines
  let place := BodyRecord.place labels lines
  (Transcript.concat (body.instructions.map fun (offset, decoded) =>
    (Transcript.tell (place offset)).andThen (file.tellDecoded bootstraps decoded))).andThen <|
  (Transcript.tell (place body.length)).andThen <|
  (Transcript.concat (body.handlers.map file.tellHandler)).andThen <|
  Transcript.tell [.maxs body.maxStack body.maxLocals]

end ClassFile

end JavaClass
