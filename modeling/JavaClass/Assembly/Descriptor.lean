/-!
# Argument slots of a method descriptor

An interface call announces how many argument slots it passes. A long or a
double takes two slots, every other argument one, and so does the receiver.

## Implementation notes

The arguments are what stands between the opening parenthesis at the start and
the first closing one, or the end of the descriptor if there is none. The name
of a class ends at a semicolon and may be empty.
-/

namespace JavaClass.Descriptor

/-- Types of two slots. -/
def isWideBase (c : Char) : Bool := c = 'J' || c = 'D'

/-- Base types of one slot. -/
def isNarrowBase (c : Char) : Bool :=
  c = 'B' || c = 'C' || c = 'F' || c = 'I' || c = 'S' || c = 'Z'

/-- What follows the semicolon that ends a class name. -/
def afterClassName (cs : List Char) : Option (List Char) :=
  match cs.dropWhile (· ≠ ';') with
  | [] => none
  | _ :: rest => some rest

theorem length_afterClassName {cs rest : List Char} (h : afterClassName cs = some rest) :
    rest.length < cs.length := by
  have hle := (List.dropWhile_suffix (p := fun c => decide (c ≠ ';')) (l := cs)).length_le
  unfold afterClassName at h
  split at h
  · cases h
  · rename_i hd
    cases h
    rw [hd] at hle
    simp at hle
    omega

/-- What follows the element type of an array. -/
def afterElement : List Char → Option (List Char)
  | [] => none
  | c :: rest =>
      if c = 'L' then afterClassName rest
      else if isWideBase c || isNarrowBase c then some rest
      else none

theorem length_afterElement {cs rest : List Char} (h : afterElement cs = some rest) :
    rest.length < cs.length := by
  unfold afterElement at h
  split at h
  · cases h
  · split at h
    · have := length_afterClassName h
      simp
      omega
    · split at h
      · cases h
        simp
      · cases h

/-- What follows an array type whose first bracket was read. -/
def afterArray (cs : List Char) : Option (List Char) :=
  afterElement (cs.dropWhile (· = '['))

theorem length_afterArray {cs rest : List Char} (h : afterArray cs = some rest) :
    rest.length < cs.length := by
  have hlt := length_afterElement h
  have hle := (List.dropWhile_suffix (p := fun c => decide (c = '[')) (l := cs)).length_le
  omega

/-- The slots of a list of argument types, added to `n`. -/
def slotsFrom (n : Nat) : List Char → Option Nat
  | [] => some n
  | c :: rest =>
      if isWideBase c then slotsFrom (n + 2) rest
      else if isNarrowBase c then slotsFrom (n + 1) rest
      else if c = 'L' then
        match _h : afterClassName rest with
        | none => none
        | some more => slotsFrom (n + 1) more
      else if c = '[' then
        match _h : afterArray rest with
        | none => none
        | some more => slotsFrom (n + 1) more
      else none
termination_by cs => cs.length
decreasing_by
  · simp
  · simp
  · have := length_afterClassName _h
    simp
    omega
  · have := length_afterArray _h
    simp
    omega

/-- The argument slots of a descriptor with its receiver, if they fit a byte. -/
def argumentSlots? (descriptor : String) : Option UInt8 :=
  match descriptor.toList with
  | '(' :: rest =>
      match slotsFrom 1 (rest.takeWhile (· ≠ ')')) with
      | some n => if n ≤ 255 then some (UInt8.ofNat n) else none
      | none => none
  | _ => none

end JavaClass.Descriptor
