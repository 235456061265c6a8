import Calculator.Decimal.Notation
import Calculator.Proofs.Decimal.Reading
import Mathlib.Tactic.FieldSimp

/-!
# Results are read back

The shortest decimal of a double is read as that double (`Decimal.magnitude_toFloat_shortest`).  The
decimal with a fixed number of places is read as a double that has the same places
(`Decimal.fixed_eq_of_isNearest`): this one is no farther from the decimal than the double that was
rounded to it.  It is also written without an exponent, unless the decimal is `10 ^ 15`
(`Decimal.isFixed_iff_of_isNearest`).
-/

namespace Calculator.Decimal

open Binary64

/-! ## The shortest decimal -/

theorem toRat_coarsest_zero (magnitude : Nat) :
    (coarsest magnitude 0).toRat = unitsAt magnitude / one := by
  obtain ⟨scale, hscale⟩ := one_dvd_tenPow
  have hcoefficient : (coarsest magnitude 0).coefficient = unitsAt magnitude * scale := by
    show unitsAt magnitude * tenPow 1074 / (one * tenPow 0) = _
    rw [hscale, Nat.mul_left_comm]
    exact Nat.mul_div_cancel_left _ Binary64.one_pos
  have hexponent : (coarsest magnitude 0).exponent = -(1074 : Nat) := rfl
  have hone : (one : ℚ) ≠ 0 := (Nat.cast_pos.mpr Binary64.one_pos).ne'
  have hne : (one : ℚ) * scale ≠ 0 := by
    rw [← Nat.cast_mul, ← hscale]
    exact (Nat.cast_pos.mpr (tenPow_pos 1074)).ne'
  rw [toRat, hcoefficient, hexponent, ten_zpow_neg, hscale]
  push_cast
  have hscaleNe := right_ne_zero_of_mul hne
  field_simp

/-- The shortest decimal of a finite double is read as its absolute value. -/
theorem magnitude_toFloat_shortest
    {x : Float} (hfinite : x.isFinite = true) : magnitude (shortest x).toFloat = magnitude x := by
  have hlt := isFinite_iff_magnitude_lt.mp hfinite
  unfold shortest
  by_cases hzero : magnitude x = 0
  · rw [if_pos hzero, hzero]
    decide +kernel
  · rw [if_neg hzero]
    rcases readsBack_coarsest (magnitude x) (ceilingExponent (units x) one + 1074).toNat with
      hreads | hexact
    · exact beq_iff_eq.mp hreads
    · obtain ⟨m, hm, htoFloat⟩ :=
        exists_isNearest_toFloat Binary64.one_pos (toRat_coarsest_zero (magnitude x))
      have hmono := strictMono_unitsAt Binary64.one_pos
      obtain rfl := hm.unique hmono (.of_eq hmono rfl)
      rw [hexact, htoFloat, Nat.min_eq_left hlt.le, magnitude_ofMagnitude hlt.le]

/-! ## The decimal with a fixed number of places -/

theorem toRat_ofFixed (coefficient places : Nat) :
    (ofFixed coefficient places).toRat = coefficient / tenPow places := by
  have hvalue := ofFixed_value coefficient places
  have hle := ofFixed_places_le coefficient places
  have hexponent : (ofFixed coefficient places).exponent =
      -((-(ofFixed coefficient places).exponent).toNat : Int) := by
    have := ofFixed_exponent_nonpos coefficient places
    omega
  generalize ofFixed coefficient places = d at hvalue hle hexponent ⊢
  generalize (-d.exponent).toNat = kept at hvalue hle hexponent
  have hplaces : tenPow places = tenPow (places - kept) * tenPow kept := by
    rw [tenPow_eq, tenPow_eq, tenPow_eq, ← Nat.pow_add, Nat.sub_add_cancel hle]
  have hkept : (tenPow kept : ℚ) ≠ 0 := (Nat.cast_pos.mpr (tenPow_pos _)).ne'
  have hrest : (tenPow (places - kept) : ℚ) ≠ 0 := (Nat.cast_pos.mpr (tenPow_pos _)).ne'
  rw [toRat, hexponent, ten_zpow_neg, hplaces, ← hvalue]
  push_cast
  field_simp

section

variable {places m : Nat} {x : Float}

/-- The decimal of a double is a multiple of the last place nearest to it. -/
theorem isNearest_fixed (places : Nat) (x : Float) :
    IsNearest (· * one) (units x * tenPow places) (fixed places x) :=
  isNearest_divNearest _ Binary64.one_pos

/-- What is nearest to the decimal of a double has the same decimal. -/
theorem divNearest_of_isNearest
    (h : IsNearest (fun k => unitsAt k * tenPow places) (fixed places x * one) m) :
    divNearest (unitsAt m * tenPow places) one = fixed places x := by
  have hnear : (unitsAt m * tenPow places).dist (fixed places x * one) ≤
      (units x * tenPow places).dist (fixed places x * one) := h.dist_le (magnitude x)
  rw [Nat.dist_comm, Nat.dist_comm (units x * tenPow places)] at hnear
  -- The multiple is even if the double is half-way; what is nearer to it is then half-way at most.
  obtain ⟨hhalf, htie⟩ := (isNearest_mul_iff Binary64.one_pos).mp (isNearest_fixed places x)
  have hfixed : IsNearest (· * one) (unitsAt m * tenPow places) (fixed places x) := by
    rw [isNearest_mul_iff Binary64.one_pos]
    exact ⟨by omega, fun heq => htie (by omega)⟩
  exact (isNearest_divNearest _ Binary64.one_pos).unique (strictMono_mul Binary64.one_pos) hfixed

theorem unitsAt_leastExponential : unitsAt (magnitude leastExponential) = tenPow 15 * one := by
  decide +kernel

theorem unitsAt_leastExponential_mul (places : Nat) :
    unitsAt (magnitude leastExponential) * tenPow places = tenPow 15 * tenPow places * one := by
  rw [unitsAt_leastExponential, Nat.mul_right_comm]

/-- Rounding a double below `10 ^ 15` does not lead beyond it. -/
theorem le_leastExponential
    (h : IsNearest (fun k => unitsAt k * tenPow places) (fixed places x * one) m)
    (hx : magnitude x ≤ magnitude leastExponential) : m ≤ magnitude leastExponential := by
  have hunits : units x * tenPow places ≤ tenPow 15 * tenPow places * one := by
    rw [← unitsAt_leastExponential_mul]
    exact (strictMono_unitsAt (tenPow_pos places)).monotone hx
  have hfixed : fixed places x ≤ tenPow 15 * tenPow places :=
    (isNearest_fixed places x).ge_of_ge (strictMono_mul Binary64.one_pos) hunits
  apply h.ge_of_ge (strictMono_unitsAt (tenPow_pos places))
  rw [unitsAt_leastExponential_mul]
  exact Nat.mul_le_mul_right one hfixed

theorem eq_leastExponential_iff
    (h : IsNearest (fun k => unitsAt k * tenPow places) (fixed places x * one) m) :
    m = magnitude leastExponential ↔ fixed places x = tenPow 15 * tenPow places := by
  constructor
  · intro hm
    have hfixed := divNearest_of_isNearest h
    rw [hm, unitsAt_leastExponential_mul, divNearest_mul_right Binary64.one_pos] at hfixed
    exact hfixed.symm
  · intro hfixed
    have hmono := strictMono_unitsAt (tenPow_pos places)
    apply h.unique hmono (.of_eq hmono _)
    rw [unitsAt_leastExponential_mul, hfixed]

/-- The middle between the least double without an exponent and the one before it is below
`10 ^ (-6)`. -/
theorem units_leastFixed_lt :
    (unitsAt (magnitude leastFixed) + unitsAt (magnitude leastFixed - 1)) * tenPow 6 < 2 * one := by
  decide +kernel

/-- The least double without an exponent is nearer to `10 ^ (-6)` than to the middle between it and
the one before it. -/
theorem lt_units_leastFixed :
    2 * one + unitsAt (magnitude leastFixed - 1) * tenPow 6 <
      3 * unitsAt (magnitude leastFixed) * tenPow 6 := by
  decide +kernel

/-- A decimal that is rounded to a double below `leastFixed` is below the middle between that and
the double before it. -/
theorem two_mul_fixed_le
    (h : IsNearest (fun k => unitsAt k * tenPow places) (fixed places x * one) m)
    (hlt : m < magnitude leastFixed) :
    2 * (fixed places x * one) ≤
      (unitsAt (magnitude leastFixed) + unitsAt (magnitude leastFixed - 1)) * tenPow places := by
  have hfar := h.dist_le (magnitude leastFixed)
  have hle : unitsAt m * tenPow places ≤ unitsAt (magnitude leastFixed - 1) * tenPow places :=
    (strictMono_unitsAt (tenPow_pos places)).monotone (Nat.le_sub_one_of_lt hlt)
  have hunits : unitsAt m * tenPow places < unitsAt (magnitude leastFixed) * tenPow places :=
    strictMono_unitsAt (tenPow_pos places) hlt
  rw [Nat.add_mul]
  unfold Nat.dist at hfar
  omega

/-- With six places or more `10 ^ (-6)` is among the decimals, so that a double from `leastFixed`
upwards is not rounded to a decimal below the middle between `leastFixed` and the one before it. -/
theorem lt_two_mul_fixed (hx : magnitude leastFixed ≤ magnitude x) (hplaces : 6 ≤ places) :
    (unitsAt (magnitude leastFixed) + unitsAt (magnitude leastFixed - 1)) * tenPow places <
      2 * (fixed places x * one) := by
  obtain ⟨more, rfl⟩ := Nat.exists_eq_add_of_le hplaces
  have hplace : tenPow (6 + more) = tenPow 6 * tenPow more := Nat.pow_add 10 6 more
  have hx' : unitsAt (magnitude leastFixed) * tenPow (6 + more) ≤ units x * tenPow (6 + more) :=
    (strictMono_unitsAt (tenPow_pos _)).monotone hx
  have hmiddle := Nat.mul_lt_mul_of_pos_right units_leastFixed_lt (tenPow_pos more)
  have hgap := Nat.mul_lt_mul_of_pos_right lt_units_leastFixed (tenPow_pos more)
  rw [Nat.mul_assoc, ← hplace] at hmiddle
  rw [Nat.add_mul, Nat.mul_assoc, Nat.mul_assoc, Nat.mul_assoc, Nat.mul_assoc, ← hplace] at hgap
  rw [Nat.mul_assoc, Nat.mul_comm one] at hmiddle
  rw [Nat.mul_comm one] at hgap
  -- The decimal is no farther from the double than `10 ^ (-6)` is, on whichever side that lies.
  have hnear := (isNearest_fixed (6 + more) x).dist_le (tenPow more)
  by_cases hlarge : tenPow more * one ≤ units x * tenPow (6 + more)
  · have hle : tenPow more ≤ fixed (6 + more) x :=
      (isNearest_fixed (6 + more) x).le_of_le (strictMono_mul Binary64.one_pos) hlarge
    have := Nat.mul_le_mul_right one hle
    omega
  · rw [Nat.add_mul]
    unfold Nat.dist at hnear
    omega

/-- Rounding does not lead below the least double without an exponent, except to zero. -/
theorem leastFixed_le
    (h : IsNearest (fun k => unitsAt k * tenPow places) (fixed places x * one) m)
    (hx : magnitude leastFixed ≤ magnitude x) (hfixed : fixed places x ≠ 0) :
    magnitude leastFixed ≤ m := by
  by_contra hlt
  have hbelow := two_mul_fixed_le h (Nat.lt_of_not_le hlt)
  by_cases hplaces : 6 ≤ places
  · have habove := lt_two_mul_fixed hx hplaces
    omega
  · have hmiddle : (unitsAt (magnitude leastFixed) + unitsAt (magnitude leastFixed - 1)) *
        tenPow places < 2 * one := by
      refine Nat.lt_of_le_of_lt (Nat.mul_le_mul_left _ (tenPow_le_tenPow ?_)) units_leastFixed_lt
      omega
    have hone : one ≤ fixed places x * one :=
      Nat.le_mul_of_pos_left one (Nat.pos_of_ne_zero hfixed)
    omega

/-! ## Doubles nearest to the decimal of a double -/

theorem isFixed_iff {x : Float} :
    isFixed x = true ↔ magnitude x = 0 ∨
      magnitude leastFixed ≤ magnitude x ∧ magnitude x < magnitude leastExponential := by
  simp [isFixed]

theorem abs_toRat_leastExponential : |Binary64.toRat leastExponential| = 10 ^ 15 := by
  have hone : (one : ℚ) ≠ 0 := (Nat.cast_pos.mpr Binary64.one_pos).ne'
  rw [abs_toRat, units, unitsAt_leastExponential, Nat.cast_mul, mul_div_cancel_right₀ _ hone,
    tenPow_eq, Nat.cast_pow, Nat.cast_ofNat]

theorem toRat_leastFixed : Binary64.toRat leastFixed = |Binary64.toRat leastFixed| := by
  rw [abs_toRat, Binary64.toRat, signFactor, leastFixed, isNegative_toFloat,
    if_neg Bool.false_ne_true, one_mul]

/-- Results are written without an exponent if they are zero, or neither less than `leastFixed` nor
as large as `10 ^ 15`. -/
theorem isFixed_iff_toRat {x : Float} :
    isFixed x = true ↔ Binary64.toRat x = 0 ∨
      Binary64.toRat leastFixed ≤ |Binary64.toRat x| ∧ |Binary64.toRat x| < 10 ^ 15 := by
  rw [isFixed_iff, toRat_eq_zero_iff, toRat_leastFixed, ← abs_toRat_leastExponential,
    abs_toRat_lt_iff, ← not_lt, ← not_lt, abs_toRat_lt_iff]

theorem fixed_of_magnitude_eq_zero (hx : magnitude x = 0) : fixed places x = 0 := by
  have hunits : units x * tenPow places = 0 * one := by
    rw [units, hx, unitsAt_zero, Nat.zero_mul, Nat.zero_mul]
  rw [fixed, hunits, divNearest_mul_right Binary64.one_pos]

theorem isNearest_le_leastExponential (hx : isFixed x = true)
    (h : IsNearest (fun k => unitsAt k * tenPow places) (fixed places x * one) m) :
    m ≤ magnitude leastExponential := by
  apply le_leastExponential h
  rcases isFixed_iff.mp hx with hzero | ⟨-, hlt⟩
  · rw [hzero]
    exact Nat.zero_le _
  · exact hlt.le

/-- A double nearest to the decimal of a double has the same decimal. -/
theorem fixed_eq_of_isNearest {y : Float}
    (h : IsNearest (fun k => unitsAt k * tenPow places) (fixed places x * one) (magnitude y)) :
    fixed places y = fixed places x :=
  divNearest_of_isNearest h

/-- A double nearest to the decimal of a double is written in the same form, unless rounding to the
decimal has led to `10 ^ 15`. -/
theorem isFixed_iff_of_isNearest {y : Float} (hx : isFixed x = true)
    (h : IsNearest (fun k => unitsAt k * tenPow places) (fixed places x * one) (magnitude y)) :
    isFixed y = true ↔ fixed places x ≠ tenPow 15 * tenPow places := by
  have hle := isNearest_le_leastExponential hx h
  rw [isFixed_iff, ne_eq, ← eq_leastExponential_iff h]
  by_cases hfixed : fixed places x = 0
  · have hmono := strictMono_unitsAt (tenPow_pos places)
    have hy : magnitude y = 0 := by
      apply h.unique hmono (.of_eq hmono _)
      rw [hfixed, unitsAt_zero, Nat.zero_mul, Nat.zero_mul]
    have hne : (0 : Nat) ≠ magnitude leastExponential := by decide +kernel
    simp [hy, hne]
  · have hleast : magnitude leastFixed ≤ magnitude y := by
      refine leastFixed_le h ?_ hfixed
      rcases isFixed_iff.mp hx with hzero | ⟨hleast, -⟩
      · exact absurd (fixed_of_magnitude_eq_zero hzero) hfixed
      · exact hleast
    have hpos : 0 < magnitude leastFixed := by decide +kernel
    omega

end

end Calculator.Decimal
