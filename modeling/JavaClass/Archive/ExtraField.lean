import JavaClass.Archive.LittleEndian

/-!
# Extra fields

A header in the directory of an archive ends with extra fields, each with a
kind and a length. One kind holds the numbers that are too great for the header,
another one names the cipher of an entry and how its contents are kept before
they are enciphered. All other kinds are passed over.

## Implementation notes

The wide numbers come in a fixed order, and only those come that are needed. An
extra field that ends too early ends the reading of extra fields, and what was
read before counts. The announced length only says how much to pass over: wide
numbers are read even if they are longer, and the contents of a cipher field are
followed by as many bytes again that are passed over.
-/

namespace JavaClass.Archive

/-- What the directory tells about an entry. -/
structure Entry where
  name : String
  isEncrypted : Bool
  /-- Whether an extra field names a cipher. -/
  hasCipher : Bool
  method : Nat
  checksum : UInt32
  compressedSize : Nat
  size : Nat
  /-- Where the header before the contents starts. -/
  headerStart : Nat
  deriving DecidableEq, Repr

/-- A number of an entry that may be too great for the header. -/
structure WideField where
  value : Entry → Nat
  replace : Entry → Nat → Entry

namespace WideField

/-- The numbers that may be wide, in the order of their wide forms. -/
def all : List WideField :=
  [⟨Entry.size, fun entry n => { entry with size := n }⟩,
   ⟨Entry.compressedSize, fun entry n => { entry with compressedSize := n }⟩,
   ⟨Entry.headerStart, fun entry n => { entry with headerStart := n }⟩]

/-- What stands in the header for a number that is too great for it. -/
def mark : Nat := 0xFFFFFFFF

/-- Replaces the numbers that are marked as wide. Gives what follows the wide numbers, unless the
bytes end before. -/
def replaceAll : List WideField → Entry → List UInt8 → Entry × Option (List UInt8)
  | [], entry, rest => (entry, some rest)
  | field :: fields, entry, rest =>
      if field.value entry = mark then
        match leading? 8 rest with
        | none => (entry, none)
        | some (n, rest) => replaceAll fields (field.replace entry n) rest
      else replaceAll fields entry rest

end WideField

namespace Cipher

/-- The length of a cipher field. -/
def length : Nat := 7

/-- The number of the vendor that every cipher field names. -/
def vendor : Nat := 0x4541

/-- Refuses an unknown vendor, version or key strength. -/
def check (version vendor strength : Nat) : Except Fault Unit :=
  if vendor ≠ Cipher.vendor then .error .cipherVendor
  else if version ≠ 1 ∧ version ≠ 2 then .error .cipherVersion
  else if strength = 0 ∨ 3 < strength then .error .cipherStrength
  else .ok ()

/-- Notes the cipher of an entry. Gives what follows the field, unless the bytes end before. -/
def note (entry : Entry) (announced : Nat) (rest : List UInt8) :
    Except Fault (Entry × Option (List UInt8)) :=
  if announced ≠ length then .error .cipherLength
  else
    match leadingAll? [2, 2, 1, 2] rest with
    | some ([version, vendor, strength, method], rest) => do
        check version vendor strength
        return ({ entry with hasCipher := true, method }, some (rest.drop length))
    | _ => .ok (entry, none)

end Cipher

namespace ExtraField

/-- The kind of the fields with wide numbers. -/
def wideKind : Nat := 0x0001

/-- The kind of the fields that name a cipher. -/
def cipherKind : Nat := 0x9901

/-- Applies one field of a kind and an announced length. Gives what follows the field, unless the
bytes end before. -/
def apply (entry : Entry) (kind announced : Nat) (rest : List UInt8) :
    Except Fault (Entry × Option (List UInt8)) :=
  if kind = wideKind then
    match WideField.replaceAll WideField.all entry rest with
    | (entry, none) => .ok (entry, none)
    | (entry, some after) =>
        let taken := rest.length - after.length
        .ok (entry, some (after.drop (announced - taken)))
  else if kind = cipherKind then Cipher.note entry announced rest
  else .ok (entry, some (rest.drop announced))

/-- Applies fields one after the other. Each takes at least one byte. -/
def applyAll : (fuel : Nat) → Entry → List UInt8 → Except Fault Entry
  | 0, entry, _ => .ok entry
  | fuel + 1, entry, bytes =>
      match leadingAll? [2, 2] bytes with
      | some ([kind, announced], rest) =>
          match apply entry kind announced rest with
          | .error fault => .error fault
          | .ok (entry, none) => .ok entry
          | .ok (entry, some rest) => applyAll fuel entry rest
      | _ => .ok entry

end ExtraField

/-- Applies the extra fields of an entry. -/
def Entry.withExtra (entry : Entry) (bytes : List UInt8) : Except Fault Entry :=
  ExtraField.applyAll bytes.length entry bytes

end JavaClass.Archive
