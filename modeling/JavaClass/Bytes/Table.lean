import JavaClass.Bytes.Basic

/-!
# Tables and blocks

Almost every sequence of a class file is a table: a 16-bit count, then the
entries. Attribute contents and code arrays are blocks: a 32-bit length, then
the bytes.
-/

namespace JavaClass

/-- The most entries that a table can have, and the most bytes of a text. -/
def countLimit : Nat := 65535

/-- The bytes of a table, given the bytes of an entry. -/
def encodeTable {α : Type} (encode : α → Except Error (List UInt8)) (entries : List α) :
    Except Error (List UInt8) :=
  if countLimit < entries.length then malformed (.tableTooLong entries.length)
  else (entries.mapM encode).map fun encoded =>
    BigEndian.ofNat 2 entries.length ++ encoded.flatten

/-- The bytes of a block. -/
def encodeBlock (contents : List UInt8) : List UInt8 :=
  BigEndian.ofNat 4 contents.length ++ contents

end JavaClass
