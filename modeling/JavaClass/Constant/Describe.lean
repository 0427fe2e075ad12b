import JavaClass.Constant.Basic
import JavaClass.Text.Decimal
import JavaClass.Text.Quoted

/-!
# Constants in messages

The text of a constant in a message: its kind, and its parts in parentheses or
between braces. An index is shown together with the kind of entry that it
should point to.
-/

namespace JavaClass.Constant

private def index (slot : UInt16) : String :=
  s!"ConstantIndex({slot})"

private def classIndex (slot : UInt16) : String :=
  "ClassConstantIndex(" ++ index slot ++ ")"

private def textIndex (slot : UInt16) : String :=
  "Utf8ConstantIndex(" ++ index slot ++ ")"

private def nameAndTypeIndex (slot : UInt16) : String :=
  "NameAndTypeConstantIndex(" ++ index slot ++ ")"

/-- Named parts between braces. -/
private def record (parts : List (String × String)) : String :=
  " \x7b " ++ ", ".intercalate (parts.map fun (name, text) => name ++ ": " ++ text) ++ " \x7d"

/-- The text that stands for a constant in a message. -/
def describe : Constant → String
  | classInfo name => "Class(" ++ textIndex name ++ ")"
  | fieldRef owner member =>
      "FieldRef(" ++ classIndex owner ++ ", " ++ nameAndTypeIndex member ++ ")"
  | methodRef owner member isInterface =>
      "MethodRef" ++ record [("class", classIndex owner),
        ("name_and_type", nameAndTypeIndex member), ("is_interface", toString isInterface)]
  | string text => "String(" ++ textIndex text ++ ")"
  | integer value => "Integer(" ++ toString value.toInt ++ ")"
  | float bits => "Float(" ++ Text.decimal .single bits.toNat ++ ")"
  | long value => "Long(" ++ toString value.toInt ++ ")"
  | double bits => "Double(" ++ Text.decimal .double bits.toNat ++ ")"
  | nameAndType name descriptor =>
      "NameAndType" ++ record [("name", textIndex name), ("descriptor", textIndex descriptor)]
  | utf8 text => "Utf8(" ++ Text.quoted text ++ ")"
  | methodHandle kind member =>
      "MethodHandle" ++ record [("handle_kind", kind.text), ("member", index member)]
  | methodType descriptor => "MethodType" ++ record [("descriptor", textIndex descriptor)]
  | invokeDynamic bootstrap member =>
      "InvokeDynamic" ++ record [("bootstrap_method", toString bootstrap),
        ("method_descriptor", nameAndTypeIndex member)]
  | moduleInfo name => "Module(" ++ textIndex name ++ ")"
  | packageInfo name => "Package(" ++ textIndex name ++ ")"

end JavaClass.Constant
