import JavaClass.Assembly.ClassDraft
import JavaClass.ClassDef.Partial
import JavaClass.ClassFile.Transcript

/-!
# Class definitions and class files

A class file is decoded by telling it to a partial class, and a definition is
encoded by telling it to a class draft.
-/

namespace JavaClass

/-- The definition that a transcript tells. -/
def ClassDef.ofTranscript (transcript : Transcript) : Except Error ClassDef :=
  match Receiver.deliver PartialClass.receive transcript .empty with
  | .error error _ => .error error
  | .ok _ p => p.finish

/-- The class file that a transcript tells. -/
def Transcript.assemble (transcript : Transcript) : Except Error (List UInt8) :=
  match Receiver.deliver ClassDraft.receive transcript .empty with
  | .error error _ => .error error
  | .ok _ draft => draft.bytes

namespace ClassDef

/-- The definition in a class file. -/
def decode (bytes : Bytes) : Except Error ClassDef := do
  ofTranscript (← ClassFile.read bytes).transcript

/-- The bytes of a class file with this definition. -/
def encode (c : ClassDef) : Except Error (List UInt8) :=
  c.transcript.assemble

end ClassDef

end JavaClass
