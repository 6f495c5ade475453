import SqlPipeline.Text
import SqlPipeline.Number.Binary64

/-!
# Decimal numbers

A decimal is a whole coefficient and a power of ten. Reading number text gives a
decimal first, exactly; `nearest` then rounds it to double precision. A decimal
of absurd size is settled by its number of digits alone, so that no power of ten
beyond the range of the format is ever computed.

`outOfRange` says when a decimal has no faithful double: it is too large, or it
lies below the normal range and is not hit exactly. The normal range starts where
rounding to 53 binary digits reaches it, half a unit below its smallest number.
-/

namespace SqlPipeline

/-- The value `coefficient * 10 ^ exponent`. -/
structure Decimal where
  coefficient : Nat
  exponent : Int
  deriving Repr, DecidableEq

namespace Decimal

/-- The power of ten with the given exponent. -/
def exp10 (n : Nat) : Nat := Nat.pow 10 n

/-- The numerator of the value as a fraction. -/
def num (d : Decimal) : Nat := d.coefficient * exp10 d.exponent.toNat

/-- The denominator of the value as a fraction. -/
def den (d : Decimal) : Nat := exp10 (-d.exponent).toNat

/-- A value other than zero lies between `10 ^ (magnitude - 1)` and `10 ^ magnitude`. -/
def magnitude (d : Decimal) : Int := (Text.ofNat d.coefficient).length + d.exponent

/-- No value of this magnitude or more fits the double format. -/
def hugeMagnitude : Int := 310

/-- Every value of this magnitude or less rounds to zero. -/
def tinyMagnitude : Int := -330

/-- The double nearest to the value. -/
def nearest (negative : Bool) (d : Decimal) : Binary64 :=
  if d.coefficient = 0 then .finite negative 0 Binary64.leastPower
  else if hugeMagnitude ≤ d.magnitude then .infinity negative
  else if d.magnitude ≤ tinyMagnitude then .finite negative 0 Binary64.leastPower
  else Binary64.ofFraction negative d.num d.den

/-- Whether the value stays below the normal range when it is rounded to 53 binary digits. -/
def belowNormal (d : Decimal) : Bool :=
  d.magnitude ≤ tinyMagnitude || d.num * Binary64.exp2 1076 < (Binary64.exp2 54 - 1) * d.den

/-- Whether the double nearest to the value is the value itself. -/
def isExact (d : Decimal) : Bool :=
  match d.nearest false with
  | .finite _ m p =>
    if d.coefficient = 0 then true
    else if m = 0 then false
    else d.num * Binary64.exp2 (-p).toNat == m * Binary64.exp2 p.toNat * d.den
  | _ => false

/-- Whether the value has no faithful double. -/
def outOfRange (d : Decimal) : Bool :=
  if d.coefficient = 0 then false
  else if hugeMagnitude ≤ d.magnitude then true
  else !(d.nearest false).isFinite || (d.belowNormal && !d.isExact)

/-! ## Number text -/

/-- Whether the byte is `e` or `E`. -/
def isExponentMark (b : UInt8) : Bool := b == 101 || b == 69

/-- Whether the byte is `.`. -/
def isPoint (b : UInt8) : Bool := b == 46

/-- The exponent after its mark: digits that may follow one sign. -/
def readExponent : Text → Int
  | 45 :: digits => -(Text.toNat digits)
  | 43 :: digits => Text.toNat digits
  | digits => Text.toNat digits

/-- Reads digits that may hold a point and may end in an exponent. -/
def ofText (t : Text) : Decimal :=
  let mantissa := t.takeWhile fun b => !isExponentMark b
  let exponent := (t.dropWhile fun b => !isExponentMark b).drop 1
  let whole := mantissa.takeWhile fun b => !isPoint b
  let fraction := (mantissa.dropWhile fun b => !isPoint b).drop 1
  ⟨Text.toNat (whole ++ fraction), readExponent exponent - fraction.length⟩

end Decimal

end SqlPipeline
