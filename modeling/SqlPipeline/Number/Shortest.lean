import SqlPipeline.Number.Decimal

/-!
# The text of a double

A double is written with the fewest significant digits, one to seventeen, whose
correctly rounded decimal reads back as the same number. The digits stand
positionally when the decimal exponent is at least `-4` and below their number;
otherwise one digit stands before the point and an exponent of at least two
digits follows. A number that would look whole gets `.0`.
-/

namespace SqlPipeline.Binary64

/-- The exponent of the leading decimal digit of the positive fraction `num / den`. -/
def leadingExponent (num den : Nat) : Int :=
  if den ≤ num then ((Text.ofNat (num / den)).length : Int) - 1
  else
    let places := (Text.ofNat (den / num)).length
    if den ≤ num * Decimal.exp10 (places - 1) then -((places : Int) - 1) else -(places : Int)

/-- The positive fraction `num / den` rounded to so many significant digits, a tie going to the even
digit. -/
def roundedTo (digits num den : Nat) : Decimal :=
  let unit := leadingExponent num den - (digits - 1 : Nat)
  let coefficient := roundDiv (num * Decimal.exp10 (-unit).toNat) (den * Decimal.exp10 unit.toNat)
  -- rounding up may carry into one digit more
  if coefficient = Decimal.exp10 digits then ⟨Decimal.exp10 (digits - 1), unit + 1⟩
  else ⟨coefficient, unit⟩

/-- The first of the given digit counts at which the rounded decimal reads back, or `fallback`. -/
def firstFaithful (x : Binary64) (num den : Nat) (fallback : Decimal) : List Nat → Decimal
  | [] => fallback
  | digits :: rest =>
    let d := roundedTo digits num den
    if d.nearest false == x then d else firstFaithful x num den d rest

/-- The decimal with the fewest significant digits that reads back as `mantissa * 2 ^ power`. -/
def shortest (mantissa : Nat) (power : Int) : Decimal :=
  firstFaithful (finite false mantissa power) (mantissa * exp2 power.toNat) (exp2 (-power).toNat)
    ⟨0, 0⟩ [1, 2, 3, 4, 5, 6, 7, 8, 9, 10, 11, 12, 13, 14, 15, 16, 17]

/-- An exponent with its sign and at least two digits. -/
def exponentText (x : Int) : Text :=
  let digits := Text.ofNat x.natAbs
  (if x < 0 then 45 else 43) :: (if digits.length < 2 then 48 :: digits else digits)

/-- Digits with a point after the first `whole` of them; a number without a fraction gets `.0`. -/
def pointed (digits : Text) (whole : Nat) : Text :=
  let fraction := digits.drop whole
  digits.take whole ++ 46 :: (if fraction.isEmpty then [48] else fraction)

/-- The text of a positive decimal, positional or with an exponent. -/
def layout (d : Decimal) : Text :=
  let digits := Text.ofNat d.coefficient
  let x : Int := d.exponent + digits.length - 1
  if -4 ≤ x ∧ x < digits.length then
    if x < 0 then ("0." : Text) ++ List.replicate ((-x).toNat - 1) 48 ++ digits
    else pointed digits (x.toNat + 1)
  else
    let fraction := digits.drop 1
    digits.take 1 ++ (if fraction.isEmpty then [] else 46 :: fraction) ++
      101 :: exponentText x

/-- The text of a double. -/
def toText : Binary64 → Text
  | nan => "nan"
  | infinity negative => if negative then "-inf" else "inf"
  | finite negative mantissa power =>
    (if negative then ("-" : Text) else []) ++
      (if mantissa = 0 then ("0.0" : Text) else layout (shortest mantissa power))

end SqlPipeline.Binary64
