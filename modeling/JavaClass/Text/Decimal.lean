/-!
# Shortest decimals

A binary floating point number is shown by the fewest decimal digits that read
back as the same number, the nearest of those if several do.

## Implementation notes

A finite number is `m * 2 ^ q`. The numbers that round to it form an interval
around it, whose ends belong to it exactly when `m` is even. Grids of powers of
ten are tried from coarse to fine; on each grid only the two neighbours of the
number can be the answer. All comparisons are exact, on natural numbers.
-/

namespace JavaClass.Text

/-- A binary interchange format, by the sizes of its two fields below the sign. -/
structure BinaryFormat where
  fractionBits : Nat
  exponentBits : Nat
  deriving DecidableEq, Repr

namespace BinaryFormat

/-- Single precision. -/
def single : BinaryFormat := ⟨23, 8⟩

/-- Double precision. -/
def double : BinaryFormat := ⟨52, 11⟩

/-- What the bits of a number mean, the sign apart. -/
inductive Magnitude where
  | notANumber
  | infinite
  /-- The number `significand * 2 ^ exponent`; `tight` tells that the gap below it is half the
  gap above it. -/
  | finite (significand : Nat) (exponent : Int) (tight : Bool)
  deriving DecidableEq, Repr

/-- Whether the sign bit is set. -/
def isNegative (format : BinaryFormat) (bits : Nat) : Bool :=
  bits.testBit (format.fractionBits + format.exponentBits)

/-- The magnitude that the bits stand for. -/
def magnitude (format : BinaryFormat) (bits : Nat) : Magnitude :=
  let fractions := 1 <<< format.fractionBits
  let exponents := 1 <<< format.exponentBits
  let fraction := bits % fractions
  let biased := bits / fractions % exponents
  let shift := exponents / 2 - 1 + format.fractionBits
  if biased = exponents - 1 then
    if fraction = 0 then .infinite else .notANumber
  else if biased = 0 then .finite fraction (1 - (shift : Int)) false
  else .finite (fraction + fractions) ((biased : Int) - shift)
    (fraction == 0 && biased != 1)

end BinaryFormat

namespace Decimal

/-- The multiple of `10 ^ e` that stands for `m * 2 ^ q`, if one rounds to it. -/
def onGrid? (m : Nat) (q : Int) (tight : Bool) (e : Int) : Option Nat :=
  let scale := Nat.pow 10 (-e).toNat <<< (q - 2).toNat
  let step := Nat.pow 10 e.toNat <<< (2 - q).toNat
  let value := 4 * m * scale
  let low := value - (if tight then 1 else 2) * scale
  let high := value + 2 * scale
  let inside (n : Nat) : Bool :=
    if m % 2 = 0 then low ≤ n * step && n * step ≤ high
    else low < n * step && n * step < high
  let n := value / step
  match inside n, inside (n + 1) with
  | true, true => if value - n * step < (n + 1) * step - value then some n else some (n + 1)
  | true, false => some n
  | false, true => some (n + 1)
  | false, false => none

/-- The digits and the power of ten of the shortest decimal for `m * 2 ^ q`. -/
def shortest (m : Nat) (q : Int) (tight : Bool) : Nat × Int :=
  ((List.range 800).findSome? fun (i : Nat) =>
    let e : Int := 400 - i
    (onGrid? m q tight e).map fun n => (n, e)).getD (0, 0)

/-- Writes `digits * 10 ^ e`: positionally from one ten-thousandth up to 16 places before the
point, with at least one place after it, and in scientific notation otherwise. -/
def write (digits : Nat) (e : Int) : String :=
  let ds := (toString digits).toList
  let point : Int := ds.length + e
  let zeros (n : Int) : List Char := List.replicate n.toNat '0'
  String.ofList <|
    if point < -3 ∨ 16 < point then
      ds.take 1 ++ (if ds.length = 1 then [] else '.' :: ds.drop 1) ++
        'e' :: (toString (point - 1)).toList
    else if point ≤ 0 then '0' :: '.' :: (zeros (-point) ++ ds)
    else if (ds.length : Int) ≤ point then ds ++ zeros (point - ds.length) ++ ['.', '0']
    else ds.take point.toNat ++ '.' :: ds.drop point.toNat

end Decimal

/-- The text of the floating point number with these bits. -/
def decimal (format : BinaryFormat) (bits : Nat) : String :=
  let sign := if format.isNegative bits then "-" else ""
  match format.magnitude bits with
  | .notANumber => "NaN"
  | .infinite => sign ++ "inf"
  | .finite 0 _ _ => sign ++ "0.0"
  | .finite m q tight =>
      let (digits, e) := Decimal.shortest m q tight
      sign ++ Decimal.write digits e

end JavaClass.Text
