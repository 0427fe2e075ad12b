import Std.Data.TreeSet
import JavaClass.Body.Basic
import JavaClass.Event.Transcript

/-!
# Labels of a method body

A body numbers its labels from 0 in the order in which it gives them out, be it
for a token or for a caller who wants a fresh one. A body can be told as events
only if every label that it refers to has a place.
-/

namespace JavaClass.MethodBody

/-- A label that was not given out before. -/
def newLabel (body : MethodBody) : Label × MethodBody :=
  (⟨body.labelCount⟩, { body with labelCount := body.labelCount + 1 })

/-- The label for a token, a new one when the token is met first. -/
def resolve (body : MethodBody) (token : LabelToken) : Label × MethodBody :=
  match body.labels[token]? with
  | some label => (label, body)
  | none =>
      let (label, body) := body.newLabel
      (label, { body with labels := body.labels.insert token label })

/-- The labels for tokens, in order. -/
def resolveAll (body : MethodBody) (tokens : List LabelToken) : List Label × MethodBody :=
  let (labels, body) := tokens.foldl
    (fun (labels, body) token =>
      let (label, body) := body.resolve token
      (label :: labels, body)) (([] : List Label), body)
  (labels.reverse, body)

/-- The handle on the first place of a label. -/
def marker? (body : MethodBody) (label : Label) : Option InstructionHandle :=
  (body.toList.find? fun (_, instruction) => instruction = .label label).map (·.1)

def addTryBlock (body : MethodBody) (block : TryBlock Label) : MethodBody :=
  { body with tryBlocks := body.tryBlocks.push block }

/-- The labels that have a place. -/
def placed (body : MethodBody) : List Label :=
  body.instructions.filterMap fun
    | .label label => some label
    | _ => none

/-- The labels that the instructions and then the exception table refer to. -/
def referenced (body : MethodBody) : List Label :=
  body.instructions.flatMap Instruction.targets ++
    body.tryBlocks.toList.flatMap TryBlock.targets

/-- Refuses the first label that is referred to and has no place. -/
def checkLabels (body : MethodBody) : Except Error Unit :=
  let placed := Std.TreeSet.ofList body.placed
  match body.referenced.find? fun label => !placed.contains label with
  | some label => malformed (.unplacedLabel label)
  | none => .ok ()

/-- Tells a body: the instructions, the exception table and the sizes. -/
def transcript (body : MethodBody) : Transcript :=
  .withResult body.checkLabels fun _ =>
    .tell (body.instructions.map (fun i => .instruction (i.map Label.token)) ++
      body.tryBlocks.toList.map (fun block => .tryBlock (block.map Label.token)) ++
      [.maxs body.maxStack body.maxLocals])

end JavaClass.MethodBody
