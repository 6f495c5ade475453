/-!
# Double precision numbers

The numbers of the 64-bit binary format, written as what they mean: a finite
number is a sign, a mantissa and a power of two. Every operation works on the
exact value first and rounds once, to the nearest number of the format, a tie
going to the even mantissa. The format has mantissas below `2 ^ 53` and powers
from `-1074` to `971`.
-/

namespace SqlPipeline

/-- A number of the double precision format; all NaNs are one. -/
inductive Binary64 where
  | nan
  | infinity (negative : Bool)
  /-- The value `± mantissa * 2 ^ power`. -/
  | finite (negative : Bool) (mantissa : Nat) (power : Int)
  deriving Repr, Inhabited

namespace Binary64

/-- The power of two of the smallest positive number. -/
def leastPower : Int := -1074

/-- The power of two of the largest finite numbers. -/
def greatestPower : Int := 971

/-- The power of two with the given exponent. -/
def exp2 (n : Nat) : Nat := Nat.pow 2 n

/-- The quotient rounded to the nearest integer, a half going to the even one. -/
def roundDiv (num den : Nat) : Nat :=
  let q := num / den
  let twice := 2 * (num % den)
  if twice < den then q
  else if den < twice then q + 1
  else q + q % 2

/-- The quotient of `num` and `den * 2 ^ power` as a fraction. -/
def scaled (num den : Nat) (power : Int) : Nat × Nat :=
  (num * exp2 (-power).toNat, den * exp2 power.toNat)

/-- The power at which the fraction has 53 binary digits, or the least power when it has fewer there. -/
def powerOf (num den : Nat) : Int :=
  let guess := max ((num.log2 : Int) - den.log2 - 53) leastPower
  let (n, d) := scaled num den guess
  if n / d < exp2 53 then guess else guess + 1

/-- The number nearest to the fraction `± num / den`. -/
def ofFraction (negative : Bool) (num den : Nat) : Binary64 :=
  if num = 0 then finite negative 0 leastPower
  else
    let power := powerOf num den
    let (n, d) := scaled num den power
    let mantissa := roundDiv n d
    -- rounding up may carry into a 54th digit
    let (mantissa, power) := if mantissa = exp2 53 then (exp2 52, power + 1) else (mantissa, power)
    if power > greatestPower then infinity negative else finite negative mantissa power

/-- The number nearest to `± mantissa * 2 ^ power`. -/
def ofScaled (negative : Bool) (mantissa : Nat) (power : Int) : Binary64 :=
  ofFraction negative (mantissa * exp2 power.toNat) (exp2 (-power).toNat)

/-- The number nearest to a natural number. -/
def ofNat (n : Nat) : Binary64 := ofFraction false n 1

/-- One half. -/
def half : Binary64 := ofFraction false 1 2

/-- Neither NaN nor an infinity. -/
def isFinite : Binary64 → Bool
  | finite .. => true
  | _ => false

/-! ## Order -/

/-- The signed mantissas of two finite numbers over their smaller power. -/
def aligned (n₁ : Bool) (m₁ : Nat) (p₁ : Int) (n₂ : Bool) (m₂ : Nat) (p₂ : Int) : Int × Int :=
  let p := min p₁ p₂
  let signed (negative : Bool) (m : Nat) (q : Int) : Int :=
    let v : Int := (m * exp2 (q - p).toNat : Nat)
    if negative then -v else v
  (signed n₁ m₁ p₁, signed n₂ m₂ p₂)

/-- Whether the first number lies below the second; never so with a NaN. -/
def lt : Binary64 → Binary64 → Bool
  | finite n₁ m₁ p₁, finite n₂ m₂ p₂ =>
    let (a, b) := aligned n₁ m₁ p₁ n₂ m₂ p₂
    a < b
  | infinity n₁, infinity n₂ => n₁ && !n₂
  | infinity n, finite .. => n
  | finite .., infinity n => !n
  | _, _ => false

/-- Equality of values: the two zeros are equal and a NaN equals nothing. -/
def eq : Binary64 → Binary64 → Bool
  | finite n₁ m₁ p₁, finite n₂ m₂ p₂ =>
    let (a, b) := aligned n₁ m₁ p₁ n₂ m₂ p₂
    a == b
  | infinity n₁, infinity n₂ => n₁ == n₂
  | _, _ => false

instance : BEq Binary64 := ⟨eq⟩

/-! ## Arithmetic -/

/-- The rounded sum. -/
def add : Binary64 → Binary64 → Binary64
  | finite n₁ m₁ p₁, finite n₂ m₂ p₂ =>
    let (a, b) := aligned n₁ m₁ p₁ n₂ m₂ p₂
    let sum := a + b
    if sum = 0 then finite (n₁ && n₂) 0 leastPower
    else ofScaled (sum < 0) sum.natAbs (min p₁ p₂)
  | infinity n₁, infinity n₂ => if n₁ = n₂ then infinity n₁ else nan
  | infinity n, finite .. => infinity n
  | finite .., infinity n => infinity n
  | _, _ => nan

/-- The rounded product. -/
def mul : Binary64 → Binary64 → Binary64
  | finite n₁ m₁ p₁, finite n₂ m₂ p₂ => ofScaled (n₁ ^^ n₂) (m₁ * m₂) (p₁ + p₂)
  | infinity n₁, infinity n₂ => infinity (n₁ ^^ n₂)
  | infinity n₁, finite n₂ m _ => if m = 0 then nan else infinity (n₁ ^^ n₂)
  | finite n₁ m _, infinity n₂ => if m = 0 then nan else infinity (n₁ ^^ n₂)
  | _, _ => nan

/-- The nearest integer, a half going to the even one; a number without a fraction stays. -/
def roundToInteger : Binary64 → Binary64
  | finite negative m p =>
    if p < 0 then ofScaled negative (roundDiv m (exp2 (-p).toNat)) 0 else finite negative m p
  | x => x

/-- The low 64 bits of the integer part of a number that is not negative; a NaN gives the word with
its top bit alone set. -/
def toWord : Binary64 → Nat
  | finite _ m p => (m * exp2 p.toNat / exp2 (-p).toNat) % exp2 64
  | nan => exp2 63
  | infinity _ => 0

end Binary64

end SqlPipeline
