import Calculator.Decimal.Basic
import Calculator.Proofs.Binary64.Bits
import Calculator.Proofs.Binary64.Nearest
import Mathlib.Algebra.Order.Field.Basic
import Mathlib.Algebra.Order.Field.Rat
import Mathlib.Tactic.Linarith

/-!
# Decimals are read to the nearest double

A finite double and a decimal are rational numbers.  A decimal is read as the double whose magnitude
is nearest to it (`Decimal.exists_isNearest_toFloat`), and that is the nearest among all finite
doubles, of either sign (`Binary64.isRounded_of_isNearest`).  The decimals that are too large or too
small to be rounded by division are no exception (`Decimal.toFloat_eq_nearest`).
-/

namespace Calculator

namespace Binary64

/-- The sign of a double as a factor. -/
def signFactor (x : Float) : ℚ :=
  if isNegative x then -1 else 1

/-- The number that a finite double is. -/
def toRat (x : Float) : ℚ :=
  signFactor x * (units x / one)

/-- The double is nearest to a number among all finite doubles, and if another one is as near then
its magnitude is even. -/
structure IsRounded (r : ℚ) (x : Float) : Prop where
  finite : x.isFinite = true
  le : ∀ y : Float, y.isFinite = true → |toRat x - r| ≤ |toRat y - r|
  even : ∀ y : Float, y.isFinite = true → toRat y ≠ toRat x → |toRat y - r| = |toRat x - r| →
    magnitude x % 2 = 0

theorem unitsAt_zero : unitsAt 0 = 0 :=
  unitsAt_of_lt (by decide)

/-! ## Distances -/

theorem cast_dist (a b : Nat) : ((a.dist b : Nat) : ℚ) = |(a : ℚ) - b| := by
  rcases Nat.le_total a b with h | h
  · rw [Nat.dist_eq_sub_of_le h, Nat.cast_sub h, abs_sub_comm, abs_of_nonneg]
    exact sub_nonneg.mpr (Nat.cast_le.mpr h)
  · rw [Nat.dist_eq_sub_of_le_right h, Nat.cast_sub h, abs_of_nonneg]
    exact sub_nonneg.mpr (Nat.cast_le.mpr h)

theorem abs_div_sub_div {a b c d : Nat} (hb : 0 < b) (hd : 0 < d) :
    |(a / b : ℚ) - c / d| = (a * d).dist (c * b) / (b * d) := by
  have hb' : (0 : ℚ) < b := Nat.cast_pos.mpr hb
  have hd' : (0 : ℚ) < d := Nat.cast_pos.mpr hd
  rw [cast_dist, div_sub_div _ _ hb'.ne' hd'.ne', abs_div, abs_of_pos (mul_pos hb' hd')]
  push_cast
  rw [mul_comm (b : ℚ) c]

theorem abs_signFactor (x : Float) : |signFactor x| = 1 := by
  unfold signFactor
  split <;> simp

theorem abs_toRat (x : Float) : |toRat x| = units x / one := by
  have hone : (0 : ℚ) < one := Nat.cast_pos.mpr one_pos
  rw [toRat, abs_mul, abs_signFactor, one_mul, abs_of_nonneg]
  exact div_nonneg (Nat.cast_nonneg _) hone.le

/-- Doubles are ordered by their magnitudes as their absolute values are. -/
theorem abs_toRat_lt_iff {x y : Float} : |toRat x| < |toRat y| ↔ magnitude x < magnitude y := by
  have hone : (0 : ℚ) < one := Nat.cast_pos.mpr Binary64.one_pos
  have hmono : StrictMono unitsAt := fun _ _ => unitsAt_lt_unitsAt
  rw [abs_toRat, abs_toRat, div_lt_div_iff_of_pos_right hone, Nat.cast_lt, units, units,
    hmono.lt_iff_lt]

theorem toRat_eq_zero_iff {x : Float} : toRat x = 0 ↔ magnitude x = 0 := by
  have hzero : magnitude (ofMagnitude 0) = 0 := magnitude_ofMagnitude (Nat.zero_le _)
  have habs : |toRat (ofMagnitude 0)| = 0 := by
    rw [abs_toRat, units, hzero, unitsAt_zero, Nat.cast_zero, zero_div]
  rw [← abs_nonpos_iff, ← habs, ← not_lt, abs_toRat_lt_iff, hzero, Nat.pos_iff_ne_zero, not_not]

variable {den : Nat}

/-- The distance of a double to a fraction of the same sign. -/
theorem abs_toRat_sub (num : Nat) (hden : 0 < den) (x : Float) :
    |toRat x - signFactor x * (num / den)| = (units x * den).dist (num * one) / (one * den) := by
  rw [toRat, ← mul_sub, abs_mul, abs_signFactor, one_mul, abs_div_sub_div one_pos hden]

/-- A double is no nearer to a fraction than it would be with the same sign. -/
theorem le_abs_toRat_sub (num : Nat) (hden : 0 < den) (x y : Float) :
    ((units y * den).dist (num * one) : ℚ) / (one * den) ≤
      |toRat y - signFactor x * (num / den)| := by
  have hfraction : |signFactor x * ((num : ℚ) / den)| = num / den := by
    rw [abs_mul, abs_signFactor, one_mul, abs_of_nonneg]
    exact div_nonneg (Nat.cast_nonneg _) (Nat.cast_nonneg _)
  calc
    ((units y * den).dist (num * one) : ℚ) / (one * den) = |(units y : ℚ) / one - num / den| :=
      (abs_div_sub_div one_pos hden).symm
    _ = |(|toRat y| - |signFactor x * (num / den)|)| := by rw [abs_toRat, hfraction]
    _ ≤ |toRat y - signFactor x * (num / den)| := abs_abs_sub_abs_le _ _

/-- Two different numbers of the same magnitude are not equally near to anything but zero. -/
theorem eq_zero_of_opposite
    {x y : Float} (hmagnitude : magnitude y = magnitude x) (hne : toRat y ≠ toRat x) {r : ℚ}
    (hr : 0 ≤ r)
    (hdist : |toRat y - signFactor x * r| = |toRat x - signFactor x * r|) : r = 0 := by
  have hunits : units y = units x := by rw [units, units, hmagnitude]
  have hopposite : signFactor y = -signFactor x := by
    have hsign : isNegative y ≠ isNegative x := by
      intro hsign
      exact hne (by rw [eq_of_magnitude_eq hsign hmagnitude])
    unfold signFactor
    cases hx : isNegative x <;> cases hy : isNegative y <;> simp_all
  have hpos : 0 < (units x : ℚ) / one := by
    refine lt_of_le_of_ne ?_ ?_
    · exact div_nonneg (Nat.cast_nonneg _) (Nat.cast_nonneg _)
    · intro hzero
      exact hne (by rw [toRat, toRat, hunits, ← hzero, mul_zero, mul_zero])
  have hy : |toRat y - signFactor x * r| = units x / one + r := by
    rw [toRat, hopposite, hunits, neg_mul, ← neg_add', ← mul_add, abs_neg, abs_mul, abs_signFactor,
      one_mul, abs_of_nonneg (add_nonneg hpos.le hr)]
  have hx : |toRat x - signFactor x * r| = |units x / one - r| := by
    rw [toRat, ← mul_sub, abs_mul, abs_signFactor, one_mul]
  rw [hx, hy] at hdist
  rcases abs_cases ((units x : ℚ) / one - r) with ⟨habs, -⟩ | ⟨habs, -⟩ <;> linarith

/-- What is nearest among the magnitudes is nearest among all doubles, with the sign of the
fraction. -/
theorem isRounded_of_isNearest
    {num : Nat} (hden : 0 < den) {x : Float} (hfinite : x.isFinite = true)
    (h : IsNearest (fun m => unitsAt m * den) (num * one) (magnitude x)) :
    IsRounded (signFactor x * (num / den)) x := by
  have hscale : (0 : ℚ) < one * den :=
    mul_pos (Nat.cast_pos.mpr one_pos) (Nat.cast_pos.mpr hden)
  have hle : ∀ y,
      |toRat x - signFactor x * (num / den)| ≤ |toRat y - signFactor x * (num / den)| := by
    intro y
    rw [abs_toRat_sub num hden]
    refine le_trans ?_ (le_abs_toRat_sub num hden x y)
    exact div_le_div_of_nonneg_right (Nat.cast_le.mpr (h.dist_le (magnitude y))) hscale.le
  refine ⟨hfinite, fun y _ => hle y, fun y _ hne hdist => ?_⟩
  by_cases hmagnitude : magnitude y = magnitude x
  · -- Then the fraction is zero, and so is the double nearest to it.
    have hzero : (num : ℚ) / den = 0 := by
      refine eq_zero_of_opposite hmagnitude hne ?_ hdist
      exact div_nonneg (Nat.cast_nonneg _) (Nat.cast_nonneg _)
    have hx := hle (ofMagnitude 0)
    have hofMagnitude : toRat (ofMagnitude 0) = 0 :=
      toRat_eq_zero_iff.mpr (magnitude_ofMagnitude (Nat.zero_le _))
    rw [hzero, mul_zero, sub_zero, hofMagnitude, sub_zero, abs_zero, abs_nonpos_iff] at hx
    have hy : toRat y = 0 :=
      toRat_eq_zero_iff.mpr (hmagnitude.trans (toRat_eq_zero_iff.mp hx))
    exact absurd (hy.trans hx.symm) hne
  · apply h.even (magnitude y) hmagnitude
    have hdists := le_abs_toRat_sub num hden x y
    rw [hdist, abs_toRat_sub num hden, div_le_div_iff_of_pos_right hscale, Nat.cast_le] at hdists
    exact Nat.le_antisymm hdists (h.dist_le (magnitude y))

end Binary64

namespace Decimal

open Binary64

/-! ## Decimals as fractions -/

/-- The number that a decimal is. -/
def toRat (d : Decimal) : ℚ :=
  d.coefficient * 10 ^ d.exponent

def numerator (d : Decimal) : Nat :=
  d.coefficient * tenPow d.exponent.toNat

def denominator (d : Decimal) : Nat :=
  tenPow (-d.exponent).toNat

theorem tenPow_eq (n : Nat) : tenPow n = 10 ^ n := rfl

theorem tenPow_pos (n : Nat) : 0 < tenPow n :=
  Nat.pow_pos (by decide)

theorem denominator_pos (d : Decimal) : 0 < d.denominator :=
  tenPow_pos _

theorem ten_zpow_neg (n : Nat) : (10 : ℚ) ^ (-(n : Int)) = (tenPow n : ℚ)⁻¹ := by
  rw [zpow_neg, zpow_natCast, tenPow_eq, Nat.cast_pow, Nat.cast_ofNat]

theorem toRat_eq (d : Decimal) : d.toRat = d.numerator / d.denominator := by
  obtain ⟨coefficient, exponent⟩ := d
  rcases exponent with n | n
  · simp [toRat, numerator, denominator, tenPow_eq]
  · simp [toRat, numerator, denominator, tenPow_eq, zpow_negSucc, div_eq_mul_inv]

/-! ## Reading -/

/-- The fraction is so large that it is read as infinity. -/
theorem nearestMagnitude_of_large
    {num : Nat} (h : unitsAt infinite ≤ num * one) : nearestMagnitude num 1 = infinite := by
  obtain ⟨m, hm, hnearest⟩ := exists_isNearest num Nat.one_pos
  have hle : infinite ≤ m := by
    refine hm.le_of_le (strictMono_unitsAt Nat.one_pos) ?_
    rwa [Nat.mul_one]
  rw [hnearest, Nat.min_eq_right hle]

/-- The fraction is less than half the least positive double. -/
theorem nearestMagnitude_of_small
    {num den : Nat} (h : 2 * (num * one) < den) : nearestMagnitude num den = 0 := by
  obtain ⟨m, hm, hnearest⟩ := exists_isNearest num (Nat.zero_lt_of_lt h)
  have hzero : m = 0 := by
    by_contra hpos
    have hfar := hm.dist_le 0
    have hunits : den ≤ unitsAt m * den :=
      Nat.le_mul_of_pos_left den (Nat.zero_lt_of_lt (unitsAt_lt_unitsAt (Nat.pos_of_ne_zero hpos)))
    rw [unitsAt_zero, Nat.zero_mul] at hfar
    unfold Nat.dist at hfar
    omega
  rw [hnearest, hzero, Nat.zero_min]

theorem two_mul_numerator_lt
    {d : Decimal} (h : d.exponent + d.coefficient.log2 < smallestExponent) :
    2 * (d.numerator * one) < d.denominator := by
  unfold smallestExponent at h
  have hnumerator : d.numerator = d.coefficient := by
    have hexponent : d.exponent.toNat = 0 := by omega
    rw [numerator, hexponent]
    exact Nat.mul_one _
  calc
    2 * (d.numerator * one) < 2 * (2 ^ (d.coefficient.log2 + 1) * one) := by
      rw [hnumerator]
      have hlt := Nat.mul_lt_mul_of_pos_right (@Nat.lt_log2_self d.coefficient) Binary64.one_pos
      exact Nat.mul_lt_mul_of_pos_left hlt (by decide)
    _ = 2 ^ (d.coefficient.log2 + 1 + 1074 + 1) := by
      have hscale : 2 ^ (d.coefficient.log2 + 1) * one = 2 ^ (d.coefficient.log2 + 1 + 1074) :=
        two_pow_mul_one _
      rw [hscale, Nat.mul_comm, ← Nat.pow_succ]
    _ ≤ 2 ^ (-d.exponent).toNat := Nat.pow_le_pow_right (by decide) (by omega)
    _ ≤ d.denominator := Nat.pow_le_pow_left (by decide) _

/-- No decimal is an exception to rounding: those far outside the range of the doubles are read as
the quotient would be rounded. -/
theorem toFloat_eq_nearest (d : Decimal) : d.toFloat = nearest d.numerator d.denominator := by
  unfold toFloat
  by_cases hzero : d.coefficient = 0
  · have hnum : d.numerator = 0 := by rw [numerator, hzero, Nat.zero_mul]
    rw [if_pos hzero, nearest, hnum, nearestMagnitude_of_small]
    simpa using d.denominator_pos
  · have hpos : 0 < d.coefficient := Nat.pos_of_ne_zero hzero
    rw [if_neg hzero]
    by_cases hlarge : largestExponent < d.exponent
    · have hden : d.denominator = 1 := by
        have hexponent : (-d.exponent).toNat = 0 := by
          unfold largestExponent at hlarge
          omega
        rw [denominator, hexponent]
        rfl
      rw [if_pos hlarge, nearest, hden, nearestMagnitude_of_large]
      · rfl
      · have hunits : unitsAt infinite ≤ tenPow d.exponent.toNat * one := by
          apply unitsAt_infinite_le
          unfold largestExponent at hlarge
          omega
        refine Nat.le_trans hunits (Nat.mul_le_mul_right one ?_)
        exact Nat.le_mul_of_pos_left _ hpos
    · rw [if_neg hlarge]
      by_cases hsmall : d.exponent + d.coefficient.log2 < smallestExponent
      · rw [if_pos hsmall, nearest, nearestMagnitude_of_small (two_mul_numerator_lt hsmall)]
      · rw [if_neg hsmall]
        rfl

/-- A decimal is read as the double whose magnitude is nearest to it, or as infinity if that is
nearer. -/
theorem exists_isNearest_toFloat
    {d : Decimal} {num den : Nat} (hden : 0 < den) (h : d.toRat = num / den) :
    ∃ m, IsNearest (fun k => unitsAt k * den) (num * one) m ∧
      d.toFloat = ofMagnitude (min m infinite) := by
  obtain ⟨m, hm, hnearest⟩ := exists_isNearest num hden
  have hcross : num * d.denominator = d.numerator * den := by
    rw [toRat_eq, div_eq_div_iff (Nat.cast_pos.mpr d.denominator_pos).ne'
      (Nat.cast_pos.mpr hden).ne'] at h
    exact_mod_cast h.symm
  refine ⟨m, hm, ?_⟩
  rw [toFloat_eq_nearest, nearest, ← nearestMagnitude_congr hden d.denominator_pos hcross, hnearest]

theorem isNegative_toFloat (d : Decimal) : isNegative d.toFloat = false := by
  rw [toFloat_eq_nearest]
  exact isNegative_ofMagnitude (Nat.min_le_right _ _)

end Decimal

end Calculator
