import JavaClass.Bytes.BigEndian
import JavaClass.Error

/-!
# Bytes

The contents of a file, read by position. Every read checks its bounds, and a
read past the end says how much it wanted and from where.
-/

namespace JavaClass

/-- The contents of a file. -/
abbrev Bytes := Array UInt8

namespace Bytes

/-- Refuses a range that is not within the bytes. -/
def check (bytes : Bytes) (index length : Nat) : Except Error Unit :=
  if index + length ≤ bytes.size then .ok () else malformed (.unexpectedEnd length index)

/-- The bytes of a range. -/
def slice (bytes : Bytes) (index length : Nat) : Except Error (List UInt8) :=
  if index + length ≤ bytes.size then .ok (bytes.extract index (index + length)).toList
  else malformed (.unexpectedEnd length index)

/-- The number in a range. -/
def number (bytes : Bytes) (width index : Nat) : Except Error Nat :=
  (bytes.slice index width).map BigEndian.toNat

def u8 (bytes : Bytes) (index : Nat) : Except Error UInt8 :=
  (bytes.number 1 index).map UInt8.ofNat

def u16 (bytes : Bytes) (index : Nat) : Except Error UInt16 :=
  (bytes.number 2 index).map UInt16.ofNat

def u32 (bytes : Bytes) (index : Nat) : Except Error UInt32 :=
  (bytes.number 4 index).map UInt32.ofNat

def u64 (bytes : Bytes) (index : Nat) : Except Error UInt64 :=
  (bytes.number 8 index).map UInt64.ofNat

def i8 (bytes : Bytes) (index : Nat) : Except Error Int8 :=
  (bytes.u8 index).map UInt8.toInt8

def i16 (bytes : Bytes) (index : Nat) : Except Error Int16 :=
  (bytes.u16 index).map UInt16.toInt16

def i32 (bytes : Bytes) (index : Nat) : Except Error Int32 :=
  (bytes.u32 index).map UInt32.toInt32

def i64 (bytes : Bytes) (index : Nat) : Except Error Int64 :=
  (bytes.u64 index).map UInt64.toInt64

end Bytes

/-- Reads one item after the other, the first at `index` and each next one `stride` bytes later,
until one fails. -/
def readEach {α : Type} (read : Nat → Except Error α) (stride : Nat) (index count : Nat) :
    Except Error (List α) :=
  go index count []
where
  go (index : Nat) : Nat → List α → Except Error (List α)
    | 0, done => .ok done.reverse
    | count + 1, done =>
        match read index with
        | .error error => .error error
        | .ok item => go (index + stride) count (item :: done)

end JavaClass
