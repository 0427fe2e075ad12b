/-!
# Sixteen-bit code units

A character up to U+FFFF is one unit; every other character is a pair of
surrogates. Units stand for a text exactly when each surrogate is part of such
a pair.
-/

namespace JavaClass.Text.Utf16

/-- The units of one character. -/
def ofChar (c : Char) : List UInt16 :=
  if c.toNat < 0x10000 then [UInt16.ofNat c.toNat]
  else
    let n := c.toNat - 0x10000
    [UInt16.ofNat (0xD800 + n / 0x400), UInt16.ofNat (0xDC00 + n % 0x400)]

/-- The units of a text. -/
def encode (text : List Char) : List UInt16 :=
  text.flatMap ofChar

def isHigh (unit : UInt16) : Bool := 0xD800 ≤ unit && unit < 0xDC00

def isLow (unit : UInt16) : Bool := 0xDC00 ≤ unit && unit < 0xE000

/-- The character of a surrogate pair. -/
def pair (high low : UInt16) : Char :=
  Char.ofNat (0x10000 + (high.toNat - 0xD800) * 0x400 + (low.toNat - 0xDC00))

/-- The text of units, after the characters in `done`, the last one first. -/
def decodeAfter (done : List Char) : List UInt16 → Option (List Char)
  | [] => some done.reverse
  | unit :: rest =>
      if isHigh unit then
        match rest with
        | low :: rest => if isLow low then decodeAfter (pair unit low :: done) rest else none
        | [] => none
      else if isLow unit then none
      else decodeAfter (Char.ofNat unit.toNat :: done) rest

/-- The text of units, unless a surrogate stands alone. -/
def decode (units : List UInt16) : Option (List Char) :=
  decodeAfter [] units

end JavaClass.Text.Utf16
