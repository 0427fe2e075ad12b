import JavaClass.Bytes.Basic

/-!
# Checksums

The cyclic redundancy check of archives: a remainder of 32 bits, kept in
reversed bit order, that starts and ends complemented.
-/

namespace JavaClass.Archive.Checksum

/-- Divides one bit. -/
def divide (remainder : UInt32) : UInt32 :=
  if remainder &&& 1 = 1 then (remainder >>> 1) ^^^ 0xEDB88320 else remainder >>> 1

/-- Divides the eight bits of a byte. -/
def feed (remainder : UInt32) (byte : UInt8) : UInt32 :=
  divide (divide (divide (divide (divide (divide (divide (divide
    (remainder ^^^ byte.toUInt32))))))))

end Checksum

/-- The checksum of some bytes. -/
def checksum (bytes : Bytes) : UInt32 :=
  bytes.foldl Checksum.feed 0xFFFFFFFF ^^^ 0xFFFFFFFF

end JavaClass.Archive
