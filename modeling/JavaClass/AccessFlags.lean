/-!
# Access flags

Classes, fields and methods each carry a 16-bit flag word. Every kind of owner
names some of the bits; a bit without a name is dropped when a word is read,
so a flag set holds named bits only.

## Implementation notes

The named bits are an index of the type, and the fact that no other bit is set
is a field of the structure. Reading a word that was written from a flag set
therefore gives the same flag set back.
-/

namespace JavaClass

/-- A flag word in which only bits of `named` are set. -/
structure AccessFlags (named : UInt16) where
  bits : UInt16
  bits_named : bits &&& named = bits
  deriving DecidableEq, Repr

namespace AccessFlags

variable {named : UInt16}

/-- The named bits of a word. -/
def ofBits (named word : UInt16) : AccessFlags named :=
  ⟨word &&& named, by rw [UInt16.and_assoc, UInt16.and_self]⟩

@[simp] theorem ofBits_bits (flags : AccessFlags named) : ofBits named flags.bits = flags := by
  cases flags with
  | mk bits h => simp [ofBits, h]

@[ext] theorem ext {a b : AccessFlags named} (h : a.bits = b.bits) : a = b := by
  cases a
  cases b
  cases h
  rfl

/-- Whether some bit of `mask` is set. -/
def meets (flags : AccessFlags named) (mask : UInt16) : Bool :=
  flags.bits &&& mask != 0

end AccessFlags

/-- Public, final, super, interface, abstract, synthetic, annotation, enum and module classes. -/
abbrev ClassFlags := AccessFlags 0xF631

/-- Public, private, protected, static, final, volatile, transient, synthetic and enum fields. -/
abbrev FieldFlags := AccessFlags 0x50DF

/-- Public, private, protected, static, final, synchronized, bridge, varargs, native, abstract,
strict and synthetic methods. -/
abbrev MethodFlags := AccessFlags 0x1DFF

/-- A public class that calls super methods the modern way. -/
def ClassFlags.standard : ClassFlags := .ofBits _ 0x0021

/-- A method that is neither abstract nor native carries code. -/
def MethodFlags.hasCode (flags : MethodFlags) : Bool :=
  !AccessFlags.meets flags 0x0500

end JavaClass
