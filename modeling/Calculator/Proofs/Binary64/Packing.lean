import Calculator.Proofs.Binary64.Units

/-!
# Packing rounded numbers

The model of the arithmetic shifts a mantissa to its last place, keeps one bit for the half and one
for what is left below it, rounds, and packs what comes out.  Here a mantissa with these two bits is
that of a quotient (`quotientMantissa`), which shifting halves; so what is packed in the end is a
magnitude that no other one is nearer to (`packs_roundWithAccuracy`).
-/

namespace Calculator.Binary64

open Float.Model Float.Model.UnpackedFloat

/-! ## Mantissas of quotients -/

theorem divNearest_mul_mul {num den k : Nat} (hk : 0 < k) :
    divNearest (num * k) (den * k) = divNearest num den := by
  have hcompare : compare (2 * (num % den * k)) (den * k) = compare (2 * (num % den)) den := by
    rw [← Nat.mul_assoc]
    rcases Nat.lt_trichotomy (2 * (num % den)) den with h | h | h
    · rw [Nat.compare_eq_lt.mpr h, Nat.compare_eq_lt.mpr (Nat.mul_lt_mul_of_pos_right h hk)]
    · rw [h, Nat.compare_eq_eq.mpr rfl, Nat.compare_eq_eq.mpr rfl]
    · rw [Nat.compare_eq_gt.mpr h, Nat.compare_eq_gt.mpr (Nat.mul_lt_mul_of_pos_right h hk)]
  rw [divNearest, divNearest, Nat.mul_div_mul_right num den hk, Nat.mul_mod_mul_right, hcompare]

/-- The mantissa of a quotient, with what is left of it below the last bit. -/
def quotientMantissa (num den : Nat) : ExtendedMantissa :=
  .ofMantissaAndAccuracy (num / den) (accuracyOfFraction (num % den) den)

theorem mantissa_quotientMantissa (num den : Nat) :
    (quotientMantissa num den).mantissa = num / den := by
  unfold quotientMantissa ExtendedMantissa.ofMantissaAndAccuracy
  split <;> rfl

/-- Some bit below the last one is set unless the quotient is exact. -/
theorem bits_quotientMantissa (num den : Nat) :
    ((quotientMantissa num den).roundBit || (quotientMantissa num den).stickyBit) =
      (num % den != 0) := by
  unfold quotientMantissa accuracyOfFraction
  by_cases hrest : num % den = 0
  · rw [if_pos hrest, hrest]
    rfl
  · rw [if_neg hrest, bne_iff_ne.mpr hrest]
    cases compare (2 * (num % den)) den <;> rfl

/-- A bit less of a mantissa is the mantissa of half the quotient. -/
theorem shiftRightOne_quotientMantissa {num den : Nat} (hden : 0 < den) :
    (quotientMantissa num den).shiftRightOne = quotientMantissa num (2 * den) := by
  have hmod := Nat.mod_lt num hden
  have hdiv : num / (2 * den) = num / den / 2 := by
    rw [Nat.mul_comm, Nat.div_div_eq_div_mul]
  have hrest : num % (2 * den) = num % den + den * (num / den % 2) := by
    rw [Nat.mul_comm 2, Nat.mod_mul]
  rw [ExtendedMantissa.shiftRightOne, mantissa_quotientMantissa, bits_quotientMantissa,
    quotientMantissa, hdiv, hrest]
  rcases Nat.mod_two_eq_zero_or_one (num / den) with hbit | hbit <;> rw [hbit]
  · by_cases hzero : num % den = 0
    · simp [hzero, accuracyOfFraction, ExtendedMantissa.ofMantissaAndAccuracy]
    · have hless : compare (2 * (num % den)) (2 * den) = .lt :=
        Nat.compare_eq_lt.mpr (by omega)
      simp [hzero, accuracyOfFraction, ExtendedMantissa.ofMantissaAndAccuracy, hless]
  · by_cases hzero : num % den = 0
    · simp [hzero, accuracyOfFraction, ExtendedMantissa.ofMantissaAndAccuracy, hden.ne']
    · have hgreater : compare (2 * (num % den + den)) (2 * den) = .gt :=
        Nat.compare_eq_gt.mpr (by omega)
      simp [hzero, accuracyOfFraction, ExtendedMantissa.ofMantissaAndAccuracy, hgreater, hden.ne']

theorem quotientMantissa_shiftRight {num den : Nat} (hden : 0 < den) (count : Nat) :
    quotientMantissa num den >>> count = quotientMantissa num (den * 2 ^ count) := by
  show count.repeat ExtendedMantissa.shiftRightOne (quotientMantissa num den) = _
  induction count with
  | zero => rw [Nat.pow_zero, Nat.mul_one]; rfl
  | succ count ih =>
      have hpos : 0 < den * 2 ^ count := Nat.mul_pos hden (Nat.two_pow_pos count)
      rw [Nat.repeat, ih, shiftRightOne_quotientMantissa hpos, Nat.pow_succ]
      congr 1
      ring

theorem roundedMantissa_quotientMantissa (num den : Nat) (hden : 0 < den) :
    (quotientMantissa num den).roundedMantissa = divNearest num den := by
  unfold quotientMantissa accuracyOfFraction divNearest
  by_cases hzero : num % den = 0
  · have hless : compare (2 * 0) den = .lt := Nat.compare_eq_lt.mpr hden
    rw [if_pos hzero, hzero]
    simp only [hless]
    rfl
  · rw [if_neg hzero]
    cases compare (2 * (num % den)) den <;> rfl

/-! ## Exponents -/

variable {sign : Sign} {num den q count : Nat} {e : Int}

theorem targetExponent_eq (mantissa : Nat) (e : Int) :
    Format.targetExponent .binary64 (totalExponent mantissa e) =
      max (mantissa.log2 + e - 52) (-1074) := by
  have hbits : Format.mantissaBits .binary64 = 53 := rfl
  simp only [Format.targetExponent, totalExponent, hbits, Format.minExponent]
  norm_num
  omega

theorem shiftToTargetExponent_eq (hden : 0 < den) :
    shiftToTargetExponent .binary64 (num / den) e (accuracyOfFraction (num % den) den) =
      (quotientMantissa num (den * 2 ^ (max ((num / den).log2 + e - 52) (-1074) - e).toNat),
        e + (max ((num / den).log2 + e - 52) (-1074) - e).toNat) := by
  rw [shiftToTargetExponent, targetExponent_eq]
  show (quotientMantissa num den >>> _, _) = _
  rw [quotientMantissa_shiftRight hden]

/-! ## Rounding -/

theorem shiftToTargetExponent_exact (q : Nat) (e : Int) :
    shiftToTargetExponent .binary64 q e .exact =
      (quotientMantissa q (2 ^ (max (q.log2 + e - 52) (-1074) - e).toNat),
        e + (max (q.log2 + e - 52) (-1074) - e).toNat) := by
  have h := @shiftToTargetExponent_eq q 1 e Nat.one_pos
  rw [Nat.div_one, Nat.mod_one, Nat.one_mul] at h
  exact h

/-- A rounded mantissa may have become a power of two that is one too long. -/
theorem shiftToTargetExponent_rounded
    (hlower : count = 0 ∨ binade ≤ q) (hupper : q ≤ 2 * binade) :
    ∃ count' q' : Nat, (shiftToTargetExponent .binary64 q (count - 1074) .exact).1.mantissa = q' ∧
      (shiftToTargetExponent .binary64 q (count - 1074) .exact).2 = (count' : Int) - 1074 ∧
      (count' = 0 ∨ binade ≤ q') ∧ q' < 2 * binade ∧
      count' * binade + q' = count * binade + q := by
  rw [shiftToTargetExponent_exact, mantissa_quotientMantissa]
  rcases hupper.lt_or_eq with hlt | rfl
  · have hlog : q.log2 ≤ 52 := by
      rcases Nat.eq_zero_or_pos q with rfl | hpos
      · decide
      · exact Nat.le_of_lt_succ ((Nat.log2_lt hpos.ne').mpr hlt)
    have hshift : (max ((q.log2 : Int) + (count - 1074) - 52) (-1074) -
        (count - 1074)).toNat = 0 := by
      omega
    refine ⟨count, q, ?_, ?_, hlower, hlt, rfl⟩ <;> rw [hshift] <;> simp
  · have hlog : (2 * binade).log2 = 53 := by decide
    have hshift : (max (((2 * binade).log2 : Int) + (count - 1074) - 52) (-1074) -
        (count - 1074)).toNat = 1 := by
      rw [hlog]
      omega
    refine ⟨count + 1, binade, ?_, ?_, .inr le_rfl, by decide, by ring⟩ <;> rw [hshift]
    · simp
    · push_cast
      omega

/-- What a double is packed to that has a sign and a number of units: the sign and the nearest
magnitude, or that of infinity if the magnitude is too large. -/
def Packs (u : UnpackedFloat) (sign : Sign) (r : ℚ) : Prop :=
  ∃ (exponent : BitVec 11) (mantissa : BitVec 52) (m : Nat),
    UnpackedFloat.pack .binary64 u = packComponents .binary64 sign exponent mantissa ∧
    IsNearestUnits r m ∧ exponent.toNat * binade + mantissa.toNat = min m infinite

/-- The bounds of a quotient that a shift brings to the length of a mantissa. -/
theorem quotient_bounds
    {shift : Nat} (hden : 0 < den) (hcount : count = 0 ∨ shift + 52 = (num / den).log2)
    (hlog : (num / den).log2 ≤ shift + 52) :
    (count = 0 ∨ binade * (den * 2 ^ shift * 2 ^ count) ≤ num * 2 ^ count) ∧
      num * 2 ^ count ≤ 2 * binade * (den * 2 ^ shift * 2 ^ count) := by
  rw [← Nat.mul_assoc, ← Nat.mul_assoc (2 * binade)]
  exact ⟨hcount.imp_right fun h => Nat.mul_le_mul_right _ (binade_mul_le_of_log2 hden h),
    Nat.mul_le_mul_right _ (le_binade_mul_of_log2_le hden hlog)⟩

/-- The general step of all arithmetic: a quotient at an exponent that is not too high is rounded
to the nearest magnitude. -/
theorem packs_roundWithAccuracy
    {r : ℚ} (hden : 0 < den)
    (he : e ≤ Format.targetExponent .binary64 (totalExponent (num / den) e))
    (hr : r = num * 2 ^ (e + 1074) / den) :
    Packs (roundWithAccuracy .binary64 sign (num / den) e (accuracyOfFraction (num % den) den))
      sign r := by
  obtain ⟨count, hcount⟩ : ∃ count : Nat, max (((num / den).log2 : Int) + e - 52) (-1074) =
      count - 1074 := ⟨(max (((num / den).log2 : Int) + e - 52) (-1074) + 1074).toNat, by omega⟩
  rw [targetExponent_eq, hcount] at he
  obtain ⟨shift, hshift⟩ : ∃ shift : Nat, (count : Int) - 1074 - e = shift :=
    ⟨((count : Int) - 1074 - e).toNat, by omega⟩
  have hden' : 0 < den * 2 ^ shift := Nat.mul_pos hden (Nat.two_pow_pos shift)
  have hfirst : shiftToTargetExponent .binary64 (num / den) e
      (accuracyOfFraction (num % den) den) =
        (quotientMantissa num (den * 2 ^ shift), (count : Int) - 1074) := by
    rw [shiftToTargetExponent_eq hden, hcount, hshift, Int.toNat_natCast]
    congr 1
    omega
  obtain ⟨hlower, hupper⟩ :=
    @quotient_bounds num den count shift hden (by omega) (by omega)
  have hnearest := isNearest_of_bounds hden' hlower hupper
  have hbounds := divNearest_bounds hden' hlower hupper
  rw [divNearest_mul_mul (Nat.two_pow_pos count)] at hnearest hbounds
  have hvalue : r = ((num * 2 ^ count : Nat) : ℚ) / (den * 2 ^ shift : Nat) := by
    have hpower : (2 : ℚ) ^ (e + 1074) = 2 ^ count / 2 ^ shift := by
      have hsum : e + 1074 = (count : Int) - shift := by omega
      rw [hsum, zpow_sub₀ two_ne_zero, zpow_natCast, zpow_natCast]
    rw [hr, hpower]
    push_cast
    rw [mul_div_assoc', div_div, mul_comm (den : ℚ)]
  rw [← isNearestUnits_iff hden', ← hvalue] at hnearest
  obtain ⟨count', q', hmantissa, hexponent, hlower', hupper', hplace⟩ :=
    shiftToTargetExponent_rounded hbounds.1 hbounds.2
  obtain ⟨exponent, mantissa, hbits, hmagnitude⟩ :=
    exists_pack_unpacked sign hlower' hupper'
  rw [hplace] at hmagnitude
  refine ⟨exponent, mantissa, _, ?_, hnearest, hmagnitude⟩
  rw [← hbits, ← hmantissa, ← hexponent, ← roundedMantissa_quotientMantissa _ _ hden']
  unfold roundWithAccuracy
  rw [hfirst]
  rfl

end Calculator.Binary64
