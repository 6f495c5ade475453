import Mathlib.Tactic.NormNum
import Mathlib.Tactic.Ring
import SqlPipeline.Json

/-!
# Doubles are decimals

Two divides ten, so every finite double has a decimal expansion that ends. This file
shows that reading the expansion gives the double back, which is why every finite double
can be written as a number of a document.

Reading first looks for the power of two at which the fraction has 53 binary digits. The
lengths of numerator and denominator leave two candidates, `p - 1` and `p`, and a look at
the quotient tells them apart. The quotient is then exact, and rounding does nothing.
-/

namespace SqlPipeline

namespace Binary64

/-- A finite number of the format: its mantissa has 53 binary digits, or less at the least power. -/
def Regular : Binary64 → Prop
  | finite _ m p => m < 2 ^ 53 ∧ p ≤ greatestPower ∧ (2 ^ 52 ≤ m ∧ leastPower ≤ p ∨ p = leastPower)
  | _ => False

instance : DecidablePred Regular
  | finite _ m p => inferInstanceAs
    (Decidable (m < 2 ^ 53 ∧ p ≤ greatestPower ∧ (2 ^ 52 ≤ m ∧ leastPower ≤ p ∨ p = leastPower)))
  | nan | infinity _ => isFalse id

/-! ## Fractions that are doubles -/

section Exact

variable {num den m : Nat} {p : Int}

/-- The fraction `num / den` is `m * 2 ^ p`. -/
def Equals (num den m : Nat) (p : Int) : Prop :=
  num * 2 ^ (-p).toNat = m * (den * 2 ^ p.toNat)

/-- One power less, twice the mantissa. -/
theorem Equals.pred (h : Equals num den m p) : Equals num den (2 * m) (p - 1) := by
  unfold Equals at h ⊢
  by_cases hp : 1 ≤ p
  · have hneg : (-(p - 1)).toNat = (-p).toNat := by omega
    have hpos : p.toNat = (p - 1).toNat + 1 := by omega
    rw [hneg, h, hpos, pow_succ]
    ring
  · have hneg : (-(p - 1)).toNat = (-p).toNat + 1 := by omega
    have hpos : (p - 1).toNat = p.toNat := by omega
    rw [hneg, hpos, pow_succ, ← mul_assoc, h]
    ring

/-- At its own power the fraction is its mantissa, with nothing left over. -/
theorem Equals.quotient (h : Equals num den m p) (hden : 0 < den) :
    (scaled num den p).1 / (scaled num den p).2 = m := by
  show num * 2 ^ (-p).toNat / (den * 2 ^ p.toNat) = m
  rw [h]
  exact Nat.mul_div_cancel m (Nat.mul_pos hden (Nat.two_pow_pos _))

theorem Equals.num_ne_zero (h : Equals num den m p) (hden : 0 < den) (hm : 0 < m) : num ≠ 0 := by
  rintro rfl
  have hzero : m * (den * 2 ^ p.toNat) = 0 := h.symm.trans (Nat.zero_mul _)
  have hpos : 0 < m * (den * 2 ^ p.toNat) :=
    Nat.mul_pos hm (Nat.mul_pos hden (Nat.two_pow_pos _))
  omega

/-- The binary digits of the numerator and the denominator tell the power up to one. -/
theorem Equals.digits (h : Equals num den m p) (hden : 0 < den) (hm : 0 < m) (hlt : m < 2 ^ 53) :
    (num.log2 : Int) - den.log2 - 53 ≤ p ∧
      (2 ^ 52 ≤ m → p - 1 ≤ (num.log2 : Int) - den.log2 - 53) := by
  have hnumle := Nat.log2_self_le (h.num_ne_zero hden hm)
  have hnumlt := Nat.lt_log2_self (n := num)
  have hdenle := Nat.log2_self_le (Nat.ne_of_gt hden)
  have hdenlt := Nat.lt_log2_self (n := den)
  constructor
  · -- the numerator is at least its first digit, all else is below a power of two
    have hpow : 2 ^ (num.log2 + (-p).toNat) < 2 ^ (53 + (den.log2 + 1 + p.toNat)) := by
      calc 2 ^ (num.log2 + (-p).toNat) = 2 ^ num.log2 * 2 ^ (-p).toNat := pow_add _ _ _
        _ ≤ num * 2 ^ (-p).toNat := Nat.mul_le_mul_right _ hnumle
        _ = m * (den * 2 ^ p.toNat) := h
        _ < 2 ^ 53 * (2 ^ (den.log2 + 1) * 2 ^ p.toNat) := by
          refine Nat.mul_lt_mul_of_lt_of_le hlt ?_ ?_
          · exact Nat.mul_le_mul_right _ (Nat.le_of_lt hdenlt)
          · exact Nat.mul_pos (Nat.two_pow_pos _) (Nat.two_pow_pos _)
        _ = 2 ^ (53 + (den.log2 + 1 + p.toNat)) := by rw [← pow_add, ← pow_add]
    have hlt := (Nat.pow_lt_pow_iff_right (by omega)).mp hpow
    omega
  · intro hnormal
    -- with a full mantissa the same estimate holds from below
    have hpow : 2 ^ (52 + (den.log2 + p.toNat)) < 2 ^ (num.log2 + 1 + (-p).toNat) := by
      calc 2 ^ (52 + (den.log2 + p.toNat)) = 2 ^ 52 * (2 ^ den.log2 * 2 ^ p.toNat) := by
            rw [← pow_add, ← pow_add]
        _ ≤ m * (den * 2 ^ p.toNat) := Nat.mul_le_mul hnormal (Nat.mul_le_mul_right _ hdenle)
        _ = num * 2 ^ (-p).toNat := h.symm
        _ < 2 ^ (num.log2 + 1) * 2 ^ (-p).toNat :=
          Nat.mul_lt_mul_of_pos_right hnumlt (Nat.two_pow_pos _)
        _ = 2 ^ (num.log2 + 1 + (-p).toNat) := (pow_add _ _ _).symm
    have hlt := (Nat.pow_lt_pow_iff_right (by omega)).mp hpow
    omega

/-- The power of a fraction that is a number of the format is the power of that number. -/
theorem Equals.powerOf_eq (h : Equals num den m p) (hden : 0 < den) (hm : 0 < m) (hlt : m < 2 ^ 53)
    (hrange : 2 ^ 52 ≤ m ∧ leastPower ≤ p ∨ p = leastPower) : powerOf num den = p := by
  obtain ⟨hle, hge⟩ := h.digits hden hm hlt
  unfold powerOf
  -- below the least power there is no candidate, so there the mantissa may be short
  have hguess : max ((num.log2 : Int) - den.log2 - 53) leastPower = p ∨
      max ((num.log2 : Int) - den.log2 - 53) leastPower = p - 1 ∧ 2 ^ 52 ≤ m := by
    rcases hrange with ⟨hnormal, hleast⟩ | hleast
    · have := hge hnormal
      omega
    · omega
  rcases hguess with hguess | ⟨hguess, hnormal⟩
  · simp only [hguess, h.quotient hden]
    exact if_pos hlt
  · simp only [hguess, h.pred.quotient hden]
    have hlong : ¬2 * m < exp2 53 := by
      show ¬2 * m < 2 ^ 53
      omega
    rw [if_neg hlong]
    omega

theorem roundDiv_mul (hden : 0 < den) : roundDiv (m * den) den = m := by
  unfold roundDiv
  simp only [Nat.mul_mod_left, Nat.mul_zero, hden, if_true]
  exact Nat.mul_div_cancel m hden

/-- **A fraction that is a number of the format is read as that number.** -/
theorem Equals.ofFraction_eq (h : Equals num den m p) (hden : 0 < den) (hm : 0 < m)
    (negative : Bool) (hr : Regular (finite negative m p)) :
    ofFraction negative num den = finite negative m p := by
  obtain ⟨hlt, hgreatest, hrange⟩ := hr
  have hmantissa : roundDiv (scaled num den p).1 (scaled num den p).2 = m := by
    show roundDiv (num * 2 ^ (-p).toNat) (den * 2 ^ p.toNat) = m
    rw [h]
    exact roundDiv_mul (Nat.mul_pos hden (Nat.two_pow_pos _))
  have hcarry : m ≠ exp2 53 := Nat.ne_of_lt hlt
  unfold ofFraction
  simp only [if_neg (h.num_ne_zero hden hm), h.powerOf_eq hden hm hlt hrange, hmantissa, if_neg hcarry]
  exact if_neg (Int.not_lt.mpr hgreatest)

end Exact

/-! ## The expansion -/

/-- The decimal expansion of `m * 2 ^ p`. -/
def expansion (m : Nat) (p : Int) : Decimal :=
  if 0 ≤ p then ⟨m * 2 ^ p.toNat, 0⟩ else ⟨m * 5 ^ (-p).toNat, p⟩

theorem ten_pow (k : Nat) : 10 ^ k = 5 ^ k * 2 ^ k := mul_pow 5 2 k

theorem equals_expansion (m : Nat) (p : Int) :
    Equals (expansion m p).num (expansion m p).den m p ∧ 0 < (expansion m p).den := by
  unfold expansion
  split
  · rename_i hp
    refine ⟨?_, Nat.one_pos⟩
    have hneg : (-p).toNat = 0 := by omega
    show m * 2 ^ p.toNat * 10 ^ 0 * 2 ^ (-p).toNat = m * (10 ^ 0 * 2 ^ p.toNat)
    rw [hneg]
    ring
  · rename_i hp
    have hpos : p.toNat = 0 := by omega
    refine ⟨?_, Nat.pow_pos (by omega)⟩
    show m * 5 ^ (-p).toNat * 10 ^ p.toNat * 2 ^ (-p).toNat = m * (10 ^ (-p).toNat * 2 ^ p.toNat)
    rw [hpos, ten_pow (-p).toNat]
    ring

end Binary64

/-- A number of so many decimal digits lies below that power of ten, and no earlier one. -/
theorem Text.length_ofNat (n : Nat) :
    n < 10 ^ (Text.ofNat n).length ∧ ∀ k, 0 < k → n < 10 ^ k → (Text.ofNat n).length ≤ k := by
  induction n using Text.ofNat.induct with
  | case1 n h =>
    rw [Text.ofNat, if_pos h]
    exact ⟨h, fun k hk _ => hk⟩
  | case2 n h ih =>
    rw [Text.ofNat, if_neg h, List.length_append, List.length_singleton]
    refine ⟨?_, fun k hk hlt => ?_⟩
    · have hhead := ih.1
      rw [pow_succ]
      omega
    · -- two digits or more cannot lie below ten, so one of them is the last
      obtain ⟨k, rfl⟩ : ∃ j, k = j + 1 := ⟨k - 1, by omega⟩
      rw [pow_succ] at hlt
      have hk : 0 < k := by
        by_contra hzero
        obtain rfl : k = 0 := by omega
        omega
      have := ih.2 k hk (by omega)
      omega

namespace Binary64

section Regular

variable {m : Nat} {p : Int}

/-- The digits of a whole number of the format. -/
theorem length_twos {k : Nat} (hlt : m < 2 ^ 53) (hk : k ≤ 971) :
    (Text.ofNat (m * 2 ^ k)).length < 310 := by
  have hvalue : m * 2 ^ k < 10 ^ 309 := by
    calc m * 2 ^ k ≤ 2 ^ 53 * 2 ^ 971 :=
          Nat.mul_le_mul (Nat.le_of_lt hlt) (Nat.pow_le_pow_right Nat.two_pos hk)
      _ < 10 ^ 309 := by decide +kernel
  exact Nat.lt_succ_of_le ((Text.length_ofNat (m * 2 ^ k)).2 309 (by omega) hvalue)

/-- The digits of a number of the format that has `k` places after the point. -/
theorem length_fives {k : Nat} (hm : 0 < m) (hlt : m < 2 ^ 53) (hk : k ≤ 1074) :
    (Text.ofNat (m * 5 ^ k)).length < k + 310 ∧ k < (Text.ofNat (m * 5 ^ k)).length + 330 := by
  obtain ⟨hbelow, hleast⟩ := Text.length_ofNat (m * 5 ^ k)
  constructor
  · have hupper : m * 5 ^ k < 10 ^ (16 + k) := by
      rw [pow_add]
      refine Nat.mul_lt_mul_of_lt_of_le (Nat.lt_trans hlt (by norm_num)) ?_ (Nat.pow_pos (by omega))
      exact Nat.pow_le_pow_left (by omega) k
    have := hleast (16 + k) (by omega) hupper
    omega
  · -- with fewer digits than that, the factors of five alone would be too many
    by_contra hshort
    obtain ⟨j, rfl⟩ : ∃ j, k = j + 330 := ⟨k - 330, by omega⟩
    have hj : j ≤ 744 := by omega
    have hpowers : 5 ^ j * 5 ^ 330 < 5 ^ j * 2 ^ j := by
      calc 5 ^ j * 5 ^ 330 = 5 ^ (j + 330) := (pow_add 5 j 330).symm
        _ ≤ m * 5 ^ (j + 330) := Nat.le_mul_of_pos_left _ hm
        _ < 10 ^ (Text.ofNat (m * 5 ^ (j + 330))).length := hbelow
        _ ≤ 10 ^ j := Nat.pow_le_pow_right (by omega) (by omega)
        _ = 5 ^ j * 2 ^ j := ten_pow j
    have htwos : 5 ^ 330 < 2 ^ j := Nat.lt_of_mul_lt_mul_left hpowers
    have hmore : 2 ^ j < 5 ^ 330 := by
      calc 2 ^ j ≤ 2 ^ 744 := pow_le_pow_right₀ (by omega) hj
        _ < 5 ^ 330 := by decide +kernel
    omega

/-- No number of the format is so large or so small that its digits alone settle it. -/
theorem magnitude_expansion (hm : 0 < m) (hr : Regular (finite false m p)) :
    (expansion m p).magnitude < Decimal.hugeMagnitude ∧
      Decimal.tinyMagnitude < (expansion m p).magnitude := by
  obtain ⟨hlt, hgreatest, hrange⟩ := hr
  have hleast : leastPower ≤ p := hrange.elim And.right fun h => h ▸ Int.le_refl _
  unfold greatestPower at hgreatest
  unfold leastPower at hleast
  unfold expansion Decimal.magnitude Decimal.hugeMagnitude Decimal.tinyMagnitude
  split
  · have hlength := length_twos (k := p.toNat) hlt (by omega)
    dsimp only
    omega
  · have hlength := length_fives (k := (-p).toNat) hm hlt (by omega)
    dsimp only
    omega

/-- **The nearest double of the expansion is the double itself.** -/
theorem nearest_expansion (negative : Bool) (hr : Regular (finite negative m p)) :
    (expansion m p).nearest negative = finite negative m p := by
  unfold Decimal.nearest
  by_cases hm : m = 0
  · subst hm
    obtain ⟨-, -, hrange⟩ := hr
    -- zero has no 53 binary digits, so it is at the least power
    have hleast : p = leastPower := hrange.elim (fun h => absurd h.1 (by norm_num)) id
    have hzero : (expansion 0 p).coefficient = 0 := by
      unfold expansion
      split <;> exact Nat.zero_mul _
    rw [if_pos hzero, hleast]
  · have hpos : 0 < m := Nat.pos_of_ne_zero hm
    obtain ⟨hequals, hden⟩ := equals_expansion m p
    obtain ⟨hhuge, htiny⟩ := magnitude_expansion hpos hr
    have hcoefficient : (expansion m p).coefficient ≠ 0 := by
      unfold expansion
      split <;> exact Nat.ne_of_gt (Nat.mul_pos hpos (Nat.pow_pos (by omega)))
    rw [if_neg hcoefficient, if_neg (Int.not_le.mpr hhuge), if_neg (Int.not_le.mpr htiny)]
    exact hequals.ofFraction_eq hden hpos negative hr

end Regular

/-- A double as a value of a document: its expansion, or null where there is none. -/
def toJson : Binary64 → Json
  | finite negative m p => .number ⟨negative, expansion m p, false⟩
  | _ => .null

/-- A finite double of the format is written by a number that is read as the double. -/
theorem Regular.toJson_number {x : Binary64} (h : x.Regular) :
    ∃ n : Json.Number, x.toJson = .number n ∧ n.toBinary64 = x := by
  cases x with
  | finite negative m p => exact ⟨_, rfl, nearest_expansion negative h⟩
  | nan | infinity negative => exact h.elim

end Binary64

end SqlPipeline
