/-!
# Big endian numbers

A number is written as its digits to base 256, the highest digit first. Numbers
of a class file have a fixed width; signed numbers are written as the unsigned
number of the same width with the same low digits.
-/

namespace JavaClass.BigEndian

/-- The number with these digits. -/
def toNat (digits : List UInt8) : Nat :=
  digits.foldl (fun n digit => n * 256 + digit.toNat) 0

/-- The lowest `width` digits of a number. -/
def ofNat : (width : Nat) → Nat → List UInt8
  | 0, _ => []
  | width + 1, n => UInt8.ofNat (n >>> (8 * width)) :: ofNat width n

@[simp] theorem length_ofNat (width n : Nat) : (ofNat width n).length = width := by
  induction width with
  | zero => rfl
  | succ width ih => simp [ofNat, ih]

def u8 (n : UInt8) : List UInt8 := [n]
def u16 (n : UInt16) : List UInt8 := ofNat 2 n.toNat
def u32 (n : UInt32) : List UInt8 := ofNat 4 n.toNat
def u64 (n : UInt64) : List UInt8 := ofNat 8 n.toNat

def i8 (n : Int8) : List UInt8 := [n.toUInt8]
def i16 (n : Int16) : List UInt8 := u16 n.toUInt16
def i32 (n : Int32) : List UInt8 := u32 n.toUInt32
def i64 (n : Int64) : List UInt8 := u64 n.toUInt64

end JavaClass.BigEndian
