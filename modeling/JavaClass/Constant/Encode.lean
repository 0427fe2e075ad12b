import JavaClass.Bytes.Table
import JavaClass.Constant.Basic
import JavaClass.SlotVector
import JavaClass.Text.ModifiedUtf8

/-!
# Bytes of constants

An entry of a constant pool is written as its tag and its contents. A text
longer than 65535 encoded bytes has no entry; every other constant has one.
-/

namespace JavaClass.Constant

open BigEndian

instance : HasWidth Constant := ⟨width⟩

/-- What follows the tag of an entry. -/
def contents : Constant → Except Error (List UInt8)
  | classInfo name => .ok (u16 name)
  | fieldRef owner member => .ok (u16 owner ++ u16 member)
  | methodRef owner member _ => .ok (u16 owner ++ u16 member)
  | string text => .ok (u16 text)
  | integer value => .ok (i32 value)
  | float bits => .ok (u32 bits)
  | long value => .ok (i64 value)
  | double bits => .ok (u64 bits)
  | nameAndType name descriptor => .ok (u16 name ++ u16 descriptor)
  | utf8 text =>
      let encoded := Text.ModifiedUtf8.encode text
      if countLimit < encoded.length then malformed .textTooLong
      else .ok (ofNat 2 encoded.length ++ encoded)
  | methodHandle kind member => .ok (u8 kind.code ++ u16 member)
  | methodType descriptor => .ok (u16 descriptor)
  | invokeDynamic bootstrap member => .ok (u16 bootstrap ++ u16 member)
  | moduleInfo name => .ok (u16 name)
  | packageInfo name => .ok (u16 name)

/-- The bytes of an entry. -/
def encode (constant : Constant) : Except Error (List UInt8) :=
  constant.contents.map (constant.tag :: ·)

end JavaClass.Constant
