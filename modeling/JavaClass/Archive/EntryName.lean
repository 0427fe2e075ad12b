import JavaClass.Bytes.Basic

/-!
# Names of archive entries

A name is marked as UTF-8 or is written in the code page of the first archives,
one byte for each character. Bytes that are no UTF-8 are shown as replacement
characters, one for each longest start of a character.
-/

namespace JavaClass.Archive

namespace CodePage

/-- The characters from 128 on. -/
def upperHalf : Array Char :=
  ("ÇüéâäàåçêëèïîìÄÅÉæÆôöòûùÿÖÜ¢£¥₧ƒ" ++
    "áíóúñÑªº¿⌐¬½¼¡«»░▒▓│┤╡╢╖╕╣║╗╝╜╛┐" ++
    "└┴┬├─┼╞╟╚╔╩╦╠═╬╧╨╤╥╙╘╒╓╫╪┘┌█▄▌▐▀" ++
    "αßΓπΣσµτΦΘΩδ∞φε∩≡±≥≤⌠⌡÷≈°∙·√ⁿ²■\u00a0").toList.toArray

/-- The character of a byte. -/
def char (byte : UInt8) : Char :=
  if byte < 128 then Char.ofNat byte.toNat else upperHalf.getD (byte.toNat - 128) ' '

end CodePage

namespace LossyUtf8

/-- What stands for bytes that are no character. -/
def replacement : Char := Char.ofNat 0xFFFD

/-- The number of bytes after a first byte, with the least and the greatest second byte. -/
def rest? (first : UInt8) : Option (Nat × UInt8 × UInt8) :=
  if first < 0xC2 then none
  else if first < 0xE0 then some (1, 0x80, 0xBF)
  else if first = 0xE0 then some (2, 0xA0, 0xBF)
  else if first = 0xED then some (2, 0x80, 0x9F)
  else if first < 0xF0 then some (2, 0x80, 0xBF)
  else if first = 0xF0 then some (3, 0x90, 0xBF)
  else if first < 0xF4 then some (3, 0x80, 0xBF)
  else if first = 0xF4 then some (3, 0x80, 0x8F)
  else none

/-- How many of the next bytes continue a character, at most `count` of them. -/
def continued (count : Nat) (low high : UInt8) : List UInt8 → Nat
  | [] => 0
  | byte :: rest =>
      match count with
      | 0 => 0
      | count + 1 =>
          if low ≤ byte && byte ≤ high then continued count 0x80 0xBF rest + 1 else 0

/-- The bits that a first byte of a character of `count + 1` bytes adds. -/
def leading (first : UInt8) (count : Nat) : Nat :=
  first.toNat % (1 <<< (6 - count))

/-- The character at the start, and the number of bytes that it takes after the first one. -/
def group (first : UInt8) (rest : List UInt8) : Char × Nat :=
  if first < 0x80 then (Char.ofNat first.toNat, 0)
  else
    match rest? first with
    | none => (replacement, 0)
    | some (count, low, high) =>
        let present := continued count low high rest
        if present = count then
          (Char.ofNat ((rest.take count).foldl (fun n byte => n * 64 + byte.toNat % 64)
            (leading first count)), count)
        else (replacement, present)

/-- The characters of bytes of which the first `used` belong to an earlier character. -/
def characters : (used : Nat) → List UInt8 → List Char
  | _, [] => []
  | used + 1, _ :: rest => characters used rest
  | 0, byte :: rest =>
      let (c, used) := group byte rest
      c :: characters used rest

end LossyUtf8

/-- The name in some bytes. -/
def entryName (isUtf8 : Bool) (bytes : List UInt8) : String :=
  String.ofList <|
    if isUtf8 then LossyUtf8.characters 0 bytes else bytes.map CodePage.char

end JavaClass.Archive
