import JavaClass.Bytes.Basic
import JavaClass.Text.Utf16

/-!
# Modified UTF-8

Texts of a class file are written unit by unit, each 16-bit unit in one, two or
three bytes. A zero unit takes two bytes, so an encoded text holds no zero
byte, and each half of a surrogate pair takes three.

## Implementation notes

Decoding accepts a unit in any group of the right form, also one that is longer
than needed. Only the shortest group of each unit is ever written.
-/

namespace JavaClass.Text.ModifiedUtf8

/-- A byte of a longer group, with the six low bits of `n`. -/
def continuation (n : Nat) : UInt8 :=
  UInt8.ofNat (0x80 + n % 0x40)

/-- The shortest group of a unit. -/
def encodeUnit (unit : UInt16) : List UInt8 :=
  let n := unit.toNat
  if n ≠ 0 ∧ n < 0x80 then [UInt8.ofNat n]
  else if n < 0x800 then [UInt8.ofNat (0xC0 + n / 0x40), continuation n]
  else [UInt8.ofNat (0xE0 + n / 0x1000), continuation (n / 0x40), continuation n]

/-- The bytes of a text. -/
def encode (text : String) : List UInt8 :=
  (Utf16.encode text.toList).flatMap encodeUnit

/-- The six bits that a continuation byte adds. -/
def tail? (byte : UInt8) : Option Nat :=
  if byte &&& 0xC0 = 0x80 then some (byte &&& 0x3F).toNat else none

/-- The units of some bytes, after the units in `done`, the last one first. -/
def unitsAfter (done : List UInt16) : List UInt8 → Option (List UInt16)
  | [] => some done.reverse
  | byte :: rest =>
      if byte &&& 0x80 = 0 then
        if byte = 0 then none else unitsAfter (byte.toUInt16 :: done) rest
      else if byte &&& 0xE0 = 0xC0 then
        match rest with
        | second :: rest =>
            match tail? second with
            | some low =>
                unitsAfter (UInt16.ofNat ((byte &&& 0x1F).toNat * 0x40 + low) :: done) rest
            | none => none
        | [] => none
      else if byte &&& 0xF0 = 0xE0 then
        match rest with
        | second :: third :: rest =>
            match tail? second, tail? third with
            | some middle, some low =>
                unitsAfter
                  (UInt16.ofNat ((byte &&& 0x0F).toNat * 0x1000 + middle * 0x40 + low) :: done) rest
            | _, _ => none
        | _ => none
      else none

/-- The units of some bytes, if they split into groups. -/
def units? (bytes : List UInt8) : Option (List UInt16) :=
  unitsAfter [] bytes

/-- The text of some bytes. -/
def decode (bytes : List UInt8) : Except Error String :=
  match (units? bytes).bind Utf16.decode with
  | some text => .ok (String.ofList text)
  | none => malformed .invalidText

end JavaClass.Text.ModifiedUtf8
