/-!
# Quoted text

A quoted text stands between double quotes. Quotes and backslashes are escaped,
the usual control characters have an escape of one letter, and any other
control character is written by its number in hexadecimal digits.

## Implementation notes

The debug form of a text escapes more than this: by its number also any other
character that is not printable, such as U+200B or one that is not assigned, and
one that combines with the character before it. Which characters these are
depends on the tables of a version of Unicode. They are left as they are here.
-/

namespace JavaClass.Text

/-- The hexadecimal digits of a number, without leading zeros. -/
def hex (n : Nat) : String :=
  String.ofList (Nat.toDigits 16 n)

namespace Quoted

/-- The characters that stand for one character between quotes. -/
def escape (c : Char) : String :=
  if c = '"' then "\\\""
  else if c = '\\' then "\\\\"
  else if c = '\n' then "\\n"
  else if c = '\r' then "\\r"
  else if c = '\t' then "\\t"
  else if c = '\x00' then "\\0"
  else if c.toNat < 0x20 ∨ (0x7F ≤ c.toNat ∧ c.toNat < 0xA0) then
    "\\u\x7b" ++ hex c.toNat ++ "\x7d"
  else c.toString

end Quoted

/-- The text between quotes, with escapes. -/
def quoted (s : String) : String :=
  "\"" ++ String.join (s.toList.map Quoted.escape) ++ "\""

end JavaClass.Text
