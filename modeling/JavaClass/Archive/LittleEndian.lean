import JavaClass.Archive.Fault

/-!
# Little endian numbers

Archives write numbers lowest byte first. Reading past the end of an archive is
a refusal of the file system, not a fault of the archive.
-/

namespace JavaClass.Archive

/-- The lowest `width` bytes of a number, the lowest one first. -/
def littleEndian : (width : Nat) → Nat → List UInt8
  | 0, _ => []
  | width + 1, n => UInt8.ofNat n :: littleEndian width (n / 256)

/-- The bytes of a range. -/
def slice (bytes : Bytes) (index length : Nat) : Except ArchiveError (List UInt8) :=
  if index + length ≤ bytes.size then .ok (bytes.extract index (index + length)).toList
  else .error .io

/-- The number that some bytes write, the lowest byte first. -/
def ofLittleEndian (bytes : List UInt8) : Nat :=
  bytes.foldr (fun byte n => byte.toNat + 256 * n) 0

/-- The number in a range. -/
def number (bytes : Bytes) (index width : Nat) : Except ArchiveError Nat :=
  (slice bytes index width).map ofLittleEndian

/-- The number at the start of some bytes, and what follows it. -/
def leading? (width : Nat) (bytes : List UInt8) : Option (Nat × List UInt8) :=
  if bytes.length < width then none
  else some (ofLittleEndian (bytes.take width), bytes.drop width)

/-- The numbers of several widths at the start of some bytes. -/
def leadingAll? : (widths : List Nat) → List UInt8 → Option (List Nat × List UInt8)
  | [], bytes => some ([], bytes)
  | width :: widths, bytes => do
      let (n, bytes) ← leading? width bytes
      let (ns, bytes) ← leadingAll? widths bytes
      return (n :: ns, bytes)

end JavaClass.Archive
