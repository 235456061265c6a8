import Calculator.Proofs.Binary64.Units
import Mathlib.Algebra.Order.Field.Power

/-!
# Unpacked doubles

Arithmetic on doubles and their order are computed from the parts into which a finite double is
unpacked: its sign, and a mantissa with an exponent (`Unpacks`).  A finite double stands for the
number that its parts give (`Unpacks.toRat_finite`), and doubles are ordered as the numbers are that
they stand for (`le_iff_toRat_le`).
-/

namespace Calculator.Binary64

open Float.Model Float.Model.UnpackedFloat

variable {x y : Float} {u v : UnpackedFloat} {sign : Sign}

/-- The parts of a finite double: its sign, and its magnitude as a mantissa and an exponent. -/
inductive Unpacks (x : Float) : UnpackedFloat → Prop where
  | zero (sign : Sign) (hsign : isNegative x = (sign == .negative)) (h : magnitude x = 0) :
      Unpacks x (.zero sign)
  | finite (sign : Sign) (mantissa count : Nat) (hpos : 0 < mantissa)
      (hsign : isNegative x = (sign == .negative)) (hlower : count = 0 ∨ binade ≤ mantissa)
      (hupper : mantissa < 2 * binade) (h : magnitude x = count * binade + mantissa) :
      Unpacks x (.finite sign mantissa (count - 1074) hpos)

theorem unpacks_of_isFinite (hx : x.isFinite = true) : Unpacks x x.toModel.unpack := by
  show Unpacks x (UnpackedFloat.unpack .binary64 x.toBits.toBitVec)
  obtain ⟨sign, exponent, mantissa, h⟩ := exists_hasParts x
  obtain ⟨hlower, hupper, hparts⟩ := fullMantissa_bounds exponent mantissa
  rw [h, unpack_parts sign mantissa (h.isFinite_iff.mp hx)]
  rw [← h.magnitude_eq] at hparts
  rcases Nat.eq_zero_or_pos (fullMantissa exponent mantissa) with hzero | hpos
  · rw [hzero] at hlower hparts ⊢
    rw [hlower.resolve_right (by decide)] at hparts
    exact .zero sign h.isNegative_eq hparts.symm
  · rw [unpacked_eq_finite hpos]
    exact .finite sign _ _ hpos h.isNegative_eq hlower hupper hparts.symm

/-- A sign as a factor. -/
def factor (sign : Sign) : ℚ :=
  (sign.apply 1 : Int)

theorem factor_mul_self (sign : Sign) : factor sign * factor sign = 1 := by
  cases sign <;> norm_num [factor, Sign.apply]

theorem signFactor_eq_factor (h : isNegative x = (sign == .negative)) :
    signFactor x = factor sign := by
  rw [signFactor, h]
  cases sign <;> rfl

theorem cast_apply (sign : Sign) (n : Int) : ((sign.apply n : Int) : ℚ) = factor sign * n := by
  cases sign <;> simp [factor, Sign.apply]

namespace Unpacks

theorem toRat_zero (h : Unpacks x (.zero sign)) : toRat x * one = 0 := by
  cases h with
  | zero _ _ hzero => rw [toRat_eq_zero_iff.mpr hzero, zero_mul]

theorem toRat_finite
    {mantissa : Nat} {e : Int} {hpos : 0 < mantissa}
    (h : Unpacks x (.finite sign mantissa e hpos)) :
    toRat x * one = factor sign * (mantissa * 2 ^ (e + 1074)) := by
  have hone : (one : ℚ) ≠ 0 := Nat.cast_ne_zero.mpr one_pos.ne'
  cases h with
  | finite _ _ count _ hsign hlower hupper hmagnitude =>
      have hunits : units x = mantissa * 2 ^ count := by
        rw [units, hmagnitude, unitsAt_doublings hlower hupper.le]
      rw [toRat, signFactor_eq_factor hsign, hunits, mul_assoc, div_mul_cancel₀ _ hone,
        sub_add_cancel, zpow_natCast]
      push_cast
      rfl

end Unpacks

/-! ## Order -/

/-- A mantissa and an exponent are ordered as the magnitude is. -/
theorem compare_magnitude
    {mantissa mantissa' count count' : Nat} (hlower : count = 0 ∨ binade ≤ mantissa)
    (hupper : mantissa < 2 * binade) (hlower' : count' = 0 ∨ binade ≤ mantissa')
    (hupper' : mantissa' < 2 * binade) :
    (compare (count - 1074 : Int) (count' - 1074)).then (compare mantissa mantissa') =
      compare (count * binade + mantissa) (count' * binade + mantissa') := by
  have hless : ∀ {mantissa mantissa' count count' : Nat}, (count' = 0 ∨ binade ≤ mantissa') →
      mantissa < 2 * binade → count < count' →
        count * binade + mantissa < count' * binade + mantissa' := by
    intro mantissa mantissa' count count' hlower' hupper hlt
    have hle : (count + 1) * binade ≤ count' * binade := Nat.mul_le_mul_right _ hlt
    rw [Nat.succ_mul] at hle
    omega
  rcases lt_trichotomy count count' with hlt | rfl | hlt
  · rw [Int.compare_eq_lt.mpr (by omega), Nat.compare_eq_lt.mpr (hless hlower' hupper hlt)]
    rfl
  · rw [Int.compare_eq_eq.mpr rfl]
    show compare mantissa mantissa' = _
    rcases lt_trichotomy mantissa mantissa' with hlt | rfl | hlt
    · rw [Nat.compare_eq_lt.mpr hlt, Nat.compare_eq_lt.mpr (Nat.add_lt_add_left hlt _)]
    · rw [Nat.compare_eq_eq.mpr rfl, Nat.compare_eq_eq.mpr rfl]
    · rw [Nat.compare_eq_gt.mpr hlt, Nat.compare_eq_gt.mpr (Nat.add_lt_add_left hlt _)]
  · rw [Int.compare_eq_gt.mpr (by omega), Nat.compare_eq_gt.mpr (hless hlower hupper' hlt)]
    rfl

theorem compare_magnitude_eq (x y : Float) :
    compare (magnitude x) (magnitude y) = compare |toRat x| |toRat y| := by
  rcases lt_trichotomy (magnitude x) (magnitude y) with hlt | heq | hlt
  · rw [Nat.compare_eq_lt.mpr hlt, compare_lt_iff_lt.mpr (abs_toRat_lt_iff.mpr hlt)]
  · have habs : |toRat x| = |toRat y| := by
      rw [abs_toRat, abs_toRat, units, units, heq]
    rw [Nat.compare_eq_eq.mpr heq, compare_eq_iff_eq.mpr habs]
  · rw [Nat.compare_eq_gt.mpr hlt, compare_gt_iff_gt.mpr (abs_toRat_lt_iff.mpr hlt)]

theorem swap_compare_neg (a b : ℚ) : (compare (-a) (-b)).swap = compare a b := by
  rcases lt_trichotomy a b with hlt | rfl | hlt
  · rw [compare_lt_iff_lt.mpr hlt, compare_gt_iff_gt.mpr (neg_lt_neg hlt)]
    rfl
  · rw [compare_eq_iff_eq.mpr rfl, compare_eq_iff_eq.mpr rfl]
    rfl
  · rw [compare_gt_iff_gt.mpr hlt, compare_lt_iff_lt.mpr (neg_lt_neg hlt)]
    rfl

namespace Unpacks

theorem toRat_eq_zero (h : Unpacks x (.zero sign)) : toRat x = 0 := by
  cases h with
  | zero _ _ hzero => exact toRat_eq_zero_iff.mpr hzero

variable {mantissa : Nat} {e : Int} {hpos : 0 < mantissa}

theorem toRat_pos (h : Unpacks x (.finite .positive mantissa e hpos)) : 0 < toRat x := by
  have hone : (0 : ℚ) < one := Nat.cast_pos.mpr one_pos
  have hvalue := h.toRat_finite
  have hpower : (0 : ℚ) < mantissa * 2 ^ (e + 1074) := by positivity
  refine pos_of_mul_pos_left ?_ hone.le
  rw [hvalue]
  simpa [factor, Sign.apply] using hpower

theorem toRat_neg (h : Unpacks x (.finite .negative mantissa e hpos)) : toRat x < 0 := by
  have hone : (0 : ℚ) < one := Nat.cast_pos.mpr one_pos
  have hvalue := h.toRat_finite
  have hpower : (0 : ℚ) < mantissa * 2 ^ (e + 1074) := by positivity
  refine neg_of_mul_neg_left ?_ hone.le
  rw [hvalue]
  simpa [factor, Sign.apply] using hpower

theorem compare_parts
    {sign' : Sign} {mantissa' : Nat} {e' : Int} {hpos' : 0 < mantissa'}
    (hx : Unpacks x (.finite sign mantissa e hpos))
    (hy : Unpacks y (.finite sign' mantissa' e' hpos')) :
    (compare e e').then (compare mantissa mantissa') = compare |toRat x| |toRat y| := by
  cases hx with
  | finite _ _ count _ _ hlower hupper hmagnitude =>
      cases hy with
      | finite _ _ count' _ _ hlower' hupper' hmagnitude' =>
          rw [compare_magnitude hlower hupper hlower' hupper', ← hmagnitude, ← hmagnitude',
            compare_magnitude_eq]

/-- The parts are compared as the numbers are that they stand for. -/
theorem compare_eq (hx : Unpacks x u) (hy : Unpacks y v) :
    u.compare v = some (compare (toRat x) (toRat y)) := by
  cases u with
  | notANumber | infinity => cases hx
  | zero sign =>
      rw [hx.toRat_eq_zero]
      cases v with
      | notANumber | infinity => cases hy
      | zero sign' =>
          rw [hy.toRat_eq_zero, compare_eq_iff_eq.mpr rfl]
          rfl
      | finite sign' mantissa' e' hpos' =>
          cases sign' with
          | positive =>
              rw [compare_lt_iff_lt.mpr hy.toRat_pos]
              rfl
          | negative =>
              rw [compare_gt_iff_gt.mpr hy.toRat_neg]
              rfl
  | finite sign mantissa e hpos =>
      cases v with
      | notANumber | infinity => cases hy
      | zero sign' =>
          rw [hy.toRat_eq_zero]
          cases sign with
          | positive =>
              rw [compare_gt_iff_gt.mpr hx.toRat_pos]
              rfl
          | negative =>
              rw [compare_lt_iff_lt.mpr hx.toRat_neg]
              rfl
      | finite sign' mantissa' e' hpos' =>
          have hparts := hx.compare_parts hy
          cases sign with
          | positive =>
              cases sign' with
              | positive =>
                  rw [abs_of_pos hx.toRat_pos, abs_of_pos hy.toRat_pos] at hparts
                  exact congrArg some hparts
              | negative =>
                  rw [compare_gt_iff_gt.mpr (hy.toRat_neg.trans hx.toRat_pos)]
                  rfl
          | negative =>
              cases sign' with
              | positive =>
                  rw [compare_lt_iff_lt.mpr (hx.toRat_neg.trans hy.toRat_pos)]
                  rfl
              | negative =>
                  rw [abs_of_neg hx.toRat_neg, abs_of_neg hy.toRat_neg] at hparts
                  rw [← swap_compare_neg, ← hparts]
                  rfl

end Unpacks

/-- Doubles are ordered as the numbers are that they stand for. -/
theorem le_iff_toRat_le (hx : x.isFinite = true) (hy : y.isFinite = true) :
    x ≤ y ↔ toRat x ≤ toRat y := by
  have hcompare := (unpacks_of_isFinite hx).compare_eq (unpacks_of_isFinite hy)
  have hle : x ≤ y ↔ (x.toModel.unpack.compare y.toModel.unpack).any (·.isLE) = true :=
    decide_eq_true_iff
  rw [hle, hcompare, Option.any_some, Ordering.isLE_iff_ne_gt]
  exact compare_le_iff_le

theorem beq_iff_toRat_eq (hx : x.isFinite = true) (hy : y.isFinite = true) :
    (x == y) = true ↔ toRat x = toRat y := by
  have hcompare := (unpacks_of_isFinite hx).compare_eq (unpacks_of_isFinite hy)
  have hbeq : (x == y) = (x.toModel.unpack.compare y.toModel.unpack == some .eq) := rfl
  rw [hbeq, hcompare, beq_iff_eq, Option.some.injEq, compare_eq_iff_eq]

end Calculator.Binary64
