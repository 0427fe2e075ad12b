import JavaClass.ClassFile.Body

/-!
# Telling a class file

The events of a class file, in the order of the file except that the attributes
of the class, which come last, are needed before its methods. Attributes that
have no event are skipped.

## Implementation notes

Of several constant values of a field, and of several code attributes of a
method, the first one counts. Exception tables of a method add up, every source
file is told, and the last bootstrap table counts.
-/

namespace JavaClass.ClassFile

/-- The header, and the number of interfaces. -/
def header (file : ClassFile) : Except Error (Event × Nat) := do
  let interfaces ← file.interfaces
  let name ← file.name
  let flags ← file.flags
  let super ← file.superName
  return (.header file.version flags name super interfaces, interfaces.length)

/-- Reads a bootstrap table. -/
def readBootstraps (file : ClassFile) (range : AttributeRange) :
    Except Error (List Bootstrap) := do
  let (bootstraps, _) ← file.readCounted (fun index => do
    let method ← file.bytes.u16 index
    let count := (← file.bytes.u16 (index + 2)).toNat
    let arguments ← readEach file.bytes.u16 2 (index + 4) count
    return ((⟨method, arguments⟩ : Bootstrap), index + 4 + 2 * count)) range.start
  return bootstraps

/-- Tells an attribute of the class. -/
def tellClassAttribute (file : ClassFile) (range : AttributeRange) : Transcript :=
  if range.name = "SourceFile" then
    .withResult (do file.constants.text (← file.bytes.u16 range.start)) fun text =>
      .tell [.source text]
  else if range.name = "BootstrapMethods" then
    .withResult (file.readBootstraps range) fun _ => .done
  else .done

/-- The last bootstrap table among the attributes of the class. -/
def bootstraps (file : ClassFile) (attributes : List AttributeRange) : Array Bootstrap :=
  match (attributes.filter (·.name = "BootstrapMethods")).getLast? with
  | none => #[]
  | some range =>
      match file.readBootstraps range with
      | .ok bootstraps => bootstraps.toArray
      | .error _ => #[]

/-- Reads the event of a field. -/
def readField (file : ClassFile) (member : MemberRange) : Except Error Event := do
  let flags := AccessFlags.ofBits _ (← file.bytes.u16 member.start)
  let name ← file.constants.text (← file.bytes.u16 (member.start + 2))
  let descriptor ← file.constants.text (← file.bytes.u16 (member.start + 4))
  match member.attributes.find? (·.name = "ConstantValue") with
  | none => return .field flags name descriptor none
  | some range =>
      let value ← file.constants.literal (← file.bytes.u16 range.start)
      return .field flags name descriptor (some value)

/-- Tells a field. -/
def tellField (file : ClassFile) (member : MemberRange) : Transcript :=
  .withResult (file.readField member) fun event => .tell [event, .fieldEnd]

/-- What stands before the code of a method. -/
structure MethodHeader where
  flags : MethodFlags
  name : String
  descriptor : String
  exceptions : List String
  deriving DecidableEq, Repr

/-- Reads what stands before the code of a method. -/
def readMethod (file : ClassFile) (member : MemberRange) : Except Error MethodHeader := do
  let flags := AccessFlags.ofBits _ (← file.bytes.u16 member.start)
  let name ← file.constants.text (← file.bytes.u16 (member.start + 2))
  let descriptor ← file.constants.text (← file.bytes.u16 (member.start + 4))
  let tables := member.attributes.filter (·.name = "Exceptions")
  let exceptions ← tables.mapM fun range => file.classNames range.start
  return ⟨flags, name, descriptor, exceptions.flatten⟩

/-- Tells the code of a method, if it has any. -/
def tellCode (file : ClassFile) (bootstraps : Array Bootstrap) (member : MemberRange) :
    Transcript :=
  match member.attributes.find? (fun range => range.name = "Code") with
  | none => .done
  | some range => .withResult (file.readBody range) (file.tellBody bootstraps)

/-- Tells a method. -/
def tellMethod (file : ClassFile) (bootstraps : Array Bootstrap) (member : MemberRange) :
    Transcript :=
  .withResult (file.readMethod member) fun method =>
    (Transcript.tell
      [.method method.flags method.name method.descriptor method.exceptions]).andThen <|
    ((file.tellCode bootstraps member).mapFailure
      (Error.inMethod method.name method.descriptor)).andThen <|
    Transcript.tell [.methodEnd]

/-- Tells a class file. -/
def transcript (file : ClassFile) : Transcript :=
  .withResult file.header fun (header, interfaceCount) =>
    (Transcript.tell [header]).andThen <|
    .withResult (file.layout interfaceCount) fun layout =>
      (Transcript.concat (layout.attributes.map file.tellClassAttribute)).andThen <|
      (Transcript.concat (layout.fields.map file.tellField)).andThen <|
      (Transcript.concat
        (layout.methods.map (file.tellMethod (file.bootstraps layout.attributes)))).andThen <|
      Transcript.tell [.classEnd]

end JavaClass.ClassFile
