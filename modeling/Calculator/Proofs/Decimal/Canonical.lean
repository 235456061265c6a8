import Calculator.Proofs.Decimal.Literal
import Calculator.Proofs.Decimal.RoundTrip

/-!
# Results without an exponent are canonical

A result that is neither very small nor very large is shown by a decimal without superfluous zeros
(`Numeral.IsCanonical`).  It denotes the multiple of the last place that is nearest to the result,
so that two such results look alike exactly if they are rounded to the same multiple
(`Decimal.result_canonical`).
-/

namespace Calculator

/-! ## The nearest integer -/

/-- No integer is nearer to a number, and if another one is as near then this one is even. -/
structure IsNearestInt (r : ℚ) (k : ℤ) : Prop where
  le : ∀ j : ℤ, |r - k| ≤ |r - j|
  even : ∀ j : ℤ, j ≠ k → |r - j| = |r - k| → Even k

namespace IsNearestInt

variable {r : ℚ} {j k : ℤ}

theorem one_le_abs_sub (h : j ≠ k) : (1 : ℚ) ≤ |(j : ℚ) - k| := by
  have habs : 1 ≤ |j - k| := Int.one_le_abs (sub_ne_zero.mpr h)
  exact_mod_cast habs

/-- An integer is nearest if it is less than one half away, or one half and even. -/
theorem of_half (hhalf : |r - k| ≤ 1 / 2) (htie : |r - k| = 1 / 2 → Even k) :
    IsNearestInt r k := by
  have hfar : ∀ j : ℤ, j ≠ k → 1 - |r - k| ≤ |r - j| := by
    intro j hj
    have htriangle : |(j : ℚ) - k| ≤ |r - k| + |r - j| := by
      have hsplit : (j : ℚ) - k = (r - k) - (r - j) := by ring
      rw [hsplit]
      exact abs_sub _ _
    linarith [one_le_abs_sub hj]
  refine ⟨fun j => ?_, fun j hj hdist => htie ?_⟩
  · by_cases hj : j = k
    · rw [hj]
    · linarith [hfar j hj]
  · linarith [hfar j hj]

/-- Only one integer is nearest. -/
theorem unique (hj : IsNearestInt r j) (hk : IsNearestInt r k) : j = k := by
  by_contra hne
  have hdist : |r - j| = |r - k| := le_antisymm (hj.le k) (hk.le j)
  obtain ⟨a, rfl⟩ := hj.even k (Ne.symm hne) hdist.symm
  obtain ⟨b, rfl⟩ := hk.even _ hne hdist
  -- The number is half-way between two even integers, and that is an integer.
  have hmiddle : r = a + b := by
    rcases abs_eq_abs.mp hdist with heq | heq
    · exact absurd (by exact_mod_cast sub_right_injective heq) hne
    · push_cast at heq
      linarith
  have hnear := hj.le (a + b)
  rw [hmiddle] at hnear
  push_cast at hnear
  rw [sub_self, abs_zero, abs_nonpos_iff] at hnear
  have hab : b = a := by
    have : (b : ℚ) = a := by linarith
    exact_mod_cast this
  exact hne (by rw [hab])

end IsNearestInt

/-! ## Superfluous zeros -/

/-- No exponent, no zero before the whole part, and not more than some number of digits after the
point, the last of which is not zero. -/
structure Numeral.IsCanonical (places : ℕ) (n : Numeral) : Prop where
  whole : IsDigits n.whole
  leading : n.whole.head? = some '0' → n.whole = ['0']
  fraction : ∀ digits ∈ n.fraction,
    IsDigits digits ∧ digits.length ≤ places ∧ digits.getLast? ≠ some '0'
  exponent : n.exponent = none

namespace Decimal

theorem digitChar_eq_zero_iff {n : ℕ} (h : n < 10) : n.digitChar = '0' ↔ n = 0 := by
  revert n
  decide

/-- Only zero begins with the digit zero. -/
theorem eq_zero_of_head?_digits {n : ℕ} (h : (digits n).head? = some '0') : n = 0 := by
  induction n using Nat.strongRecOn with
  | ind n ih =>
      rw [digits, Nat.toDigits_eq_if (by decide)] at h
      split at h
      · rename_i hlt
        exact (digitChar_eq_zero_iff hlt).mp (Option.some.inj h)
      · rename_i hlarge
        rw [List.head?_append_of_ne_nil _ Nat.toDigits_ne_nil] at h
        have hzero := ih (n / 10) (by omega) h
        omega

theorem getLast?_digits (n : ℕ) : (digits n).getLast? = some (n % 10).digitChar := by
  rw [digits, Nat.toDigits_eq_if (by decide)]
  split
  · rename_i hlt
    rw [Nat.mod_eq_of_lt hlt]
    rfl
  · rw [List.getLast?_concat]

theorem getLast?_leftpad_digits (n places : ℕ) :
    ((digits n).leftpad places '0').getLast? = some (n % 10).digitChar := by
  rw [List.leftpad, List.getLast?_append_of_ne_nil _ (digits_ne_nil n), getLast?_digits]

theorem exists_whole_positionalNumeral (d : Decimal) :
    ∃ n, d.positionalNumeral.whole = digits n := by
  unfold positionalNumeral
  split
  · exact ⟨_, rfl⟩
  · exact ⟨_, rfl⟩

/-- Rounded to a number of places and freed of the zeros at the end, a decimal is canonical. -/
theorem isCanonical_ofFixed (coefficient places : ℕ) :
    (ofFixed coefficient places).positionalNumeral.IsCanonical places := by
  have hspelt := wellSpelt_positionalNumeral (ofFixed coefficient places)
  refine ⟨hspelt.whole, ?_, ?_, ?_⟩
  · intro hzero
    obtain ⟨n, hn⟩ := exists_whole_positionalNumeral (ofFixed coefficient places)
    rw [hn] at hzero ⊢
    rw [eq_zero_of_head?_digits hzero]
    rfl
  · intro fraction hfraction
    refine ⟨hspelt.fraction fraction hfraction, ?_⟩
    have hplaces := ofFixed_places_le coefficient places
    have hlast := @ofFixed_coefficient_mod_ten coefficient places
    generalize ofFixed coefficient places = d at *
    obtain ⟨c, zeros | k⟩ := d
    · cases hfraction
    · cases hfraction
      have hlt : c % tenPow (k + 1) < tenPow (k + 1) := Nat.mod_lt _ (tenPow_pos _)
      have hmod : c % tenPow (k + 1) % 10 = c % 10 :=
        Nat.mod_mod_of_dvd c (Dvd.intro_left (tenPow k) rfl)
      refine ⟨?_, ?_⟩
      · rw [length_leftpad_digits (Nat.succ_pos k) hlt]
        exact hplaces
      · rw [getLast?_leftpad_digits, hmod, ne_eq, Option.some.injEq,
          digitChar_eq_zero_iff (Nat.mod_lt _ (by decide))]
        exact hlast (Int.negSucc_lt_zero k)
  · unfold positionalNumeral
    split
    · rfl
    · rfl

/-! ## The multiple of the last place -/

open Binary64

variable {places : ℕ} {v w : Float}

/-- The result in units of the last place, with its sign. -/
def signedFixed (places : ℕ) (v : Float) : ℤ :=
  if isNegative v then -(fixed places v : ℤ) else fixed places v

theorem cast_signedFixed (places : ℕ) (v : Float) :
    (signedFixed places v : ℚ) = signFactor v * fixed places v := by
  unfold signedFixed signFactor
  split
  · push_cast
    exact (neg_one_mul _).symm
  · exact (one_mul _).symm

theorem isNearestInt_signedFixed (places : ℕ) (v : Float) :
    IsNearestInt (Binary64.toRat v * 10 ^ places) (signedFixed places v) := by
  have hone : (0 : ℚ) < one := Nat.cast_pos.mpr Binary64.one_pos
  have hdist : |Binary64.toRat v * 10 ^ places - signedFixed places v| =
      (fixed places v * one).dist (units v * tenPow places) / one := by
    have hfactor : Binary64.toRat v * 10 ^ places - signedFixed places v =
        -(signFactor v * ((fixed places v * one - units v * 10 ^ places) / one)) := by
      rw [cast_signedFixed, Binary64.toRat]
      field_simp
      ring
    rw [hfactor, abs_neg, abs_mul, abs_signFactor, one_mul, abs_div, abs_of_pos hone, cast_dist,
      tenPow_eq]
    push_cast
    rfl
  obtain ⟨hhalf, htie⟩ := (isNearest_mul_iff Binary64.one_pos).mp (isNearest_fixed places v)
  apply IsNearestInt.of_half
  · rw [hdist, div_le_div_iff₀ hone two_pos, one_mul, mul_comm]
    exact_mod_cast hhalf
  · rw [hdist, div_eq_div_iff hone.ne' two_ne_zero, one_mul, mul_comm]
    intro heq
    have heven := htie (by exact_mod_cast heq)
    unfold signedFixed
    split
    · exact even_neg.mpr ((Int.even_coe_nat _).mpr (Nat.even_iff.mpr heven))
    · exact (Int.even_coe_nat _).mpr (Nat.even_iff.mpr heven)

theorem natAbs_signedFixed (places : ℕ) (v : Float) :
    (signedFixed places v).natAbs = fixed places v := by
  unfold signedFixed
  split
  · rw [Int.natAbs_neg, Int.natAbs_natCast]
  · rw [Int.natAbs_natCast]

theorem signedFixed_neg_iff :
    signedFixed places v < 0 ↔ fixed places v ≠ 0 ∧ isNegative v = true := by
  unfold signedFixed
  split
  · rename_i hnegative
    rw [Int.neg_neg_iff_pos, Int.natCast_pos, Nat.pos_iff_ne_zero, and_iff_left hnegative]
  · rename_i hnegative
    exact iff_of_false (Int.natCast_nonneg _).not_gt fun h => hnegative h.2

/-- What is shown depends on the multiple of the last place only. -/
theorem resultNumeral_of_signedFixed (hfixed : isFixed v = true) :
    resultNumeral places v =
      ⟨decide (signedFixed places v < 0),
        (ofFixed (signedFixed places v).natAbs places).positionalNumeral⟩ := by
  have hnegative :
      (fixed places v != 0 && isNegative v) = decide (signedFixed places v < 0) := by
    rw [Bool.eq_iff_iff, decide_eq_true_iff, Bool.and_eq_true_iff, bne_iff_ne, signedFixed_neg_iff]
  rw [resultNumeral, if_pos hfixed, hnegative, natAbs_signedFixed]

theorem toRat_resultNumeral (hfixed : isFixed v = true) :
    (resultNumeral places v).toRat = signedFixed places v / 10 ^ places := by
  rw [resultNumeral_of_signedFixed hfixed, SignedNumeral.toRat]
  dsimp only
  rw [toRat_value_positionalNumeral, toRat_ofFixed, tenPow_eq, Nat.cast_pow, Nat.cast_ofNat,
    Nat.cast_natAbs, Int.cast_abs]
  by_cases hnegative : signedFixed places v < 0
  · rw [decide_eq_true hnegative, if_pos rfl, abs_of_neg (Int.cast_lt_zero.mpr hnegative), neg_div,
      neg_neg]
  · rw [decide_eq_false hnegative, if_neg Bool.false_ne_true,
      abs_of_nonneg (Int.cast_nonneg (not_lt.mp hnegative))]

/-! ## Results of moderate size -/

/-- Zero, or neither smaller than the double of `1e-6` nor as large as that of `1e15`. -/
def IsModerate (v : Float) : Prop :=
  v.isFinite = true ∧ (Binary64.toRat v = 0 ∨
    Binary64.toRat (toFloat ⟨1, -6⟩) ≤ |Binary64.toRat v| ∧
      |Binary64.toRat v| < Binary64.toRat (toFloat ⟨1, 15⟩))

theorem toRat_leastExponential : Binary64.toRat leastExponential = 10 ^ 15 := by
  have hsign : signFactor leastExponential = 1 := by
    rw [signFactor, leastExponential, isNegative_toFloat, if_neg Bool.false_ne_true]
  rw [← abs_toRat_leastExponential, abs_toRat, Binary64.toRat, hsign, one_mul]

theorem isModerate_iff : IsModerate v ↔ v.isFinite = true ∧ isFixed v = true := by
  have hlarge := toRat_leastExponential
  unfold leastExponential at hlarge
  rw [IsModerate, isFixed_iff_toRat, hlarge, leastFixed]

/-- The text of a result is a decimal in canonical form, and denotes a multiple of the last place
that is nearest to the result. -/
structure ShownAs (places : ℕ) (v : Float) (n : SignedNumeral) (k : ℤ) : Prop where
  text : (result places v).toList = n.text
  canonical : n.numeral.IsCanonical places
  /-- A minus sign stands only before a number other than zero. -/
  sign : n.negative = true → n.toRat ≠ 0
  value : n.toRat = k / 10 ^ places
  nearest : IsNearestInt (Binary64.toRat v * 10 ^ places) k

theorem shownAs_resultNumeral (hv : IsModerate v) :
    ShownAs places v (resultNumeral places v) (signedFixed places v) := by
  obtain ⟨hfinite, hfixed⟩ := isModerate_iff.mp hv
  refine ⟨toList_result hfinite, ?_, ?_, toRat_resultNumeral hfixed,
    isNearestInt_signedFixed places v⟩
  · rw [resultNumeral_of_signedFixed hfixed]
    exact isCanonical_ofFixed _ _
  · intro hnegative
    rw [resultNumeral_of_signedFixed hfixed, decide_eq_true_iff] at hnegative
    rw [toRat_resultNumeral hfixed]
    exact div_ne_zero (Int.cast_ne_zero.mpr hnegative.ne) (pow_ne_zero _ (by norm_num))

theorem ShownAs.ne_minus_zero
    {n : SignedNumeral} {k : ℤ} (h : ShownAs places v n k) : result places v ≠ "-0" := by
  intro hminus
  have hspelt : n.numeral.WellSpelt :=
    ⟨h.canonical.whole, fun digits hdigits => (h.canonical.fraction digits hdigits).1,
      by simp [h.canonical.exponent]⟩
  have htext : n.text = (⟨true, ['0'], none, none⟩ : SignedNumeral).text := by
    rw [← h.text, hminus]
    rfl
  have hzero : (⟨['0'], none, none⟩ : Numeral).WellSpelt :=
    ⟨isDigits_digits 0, by simp, by simp⟩
  obtain rfl := SignedNumeral.eq_of_text_eq hspelt hzero htext
  apply h.sign rfl
  simp [SignedNumeral.toRat, Numeral.value, Decimal.toRat, Nat.ofDigitChars]

/-- A result of moderate size is shown in canonical form, by the nearest multiple of the last place,
and two such results look alike exactly if they have the same nearest multiple. -/
theorem result_canonical (places : ℕ) {v w : Float} (hv : IsModerate v) (hw : IsModerate w) :
    (∃ n k, ShownAs places v n k) ∧ result places v ≠ "-0" ∧
      (result places v = result places w ↔
        ∃ k, IsNearestInt (Binary64.toRat v * 10 ^ places) k ∧
          IsNearestInt (Binary64.toRat w * 10 ^ places) k) := by
  have hshown := @shownAs_resultNumeral places v hv
  have hshown' := @shownAs_resultNumeral places w hw
  refine ⟨⟨_, _, hshown⟩, hshown.ne_minus_zero, ?_⟩
  rw [result_eq_iff hv.1 hw.1]
  constructor
  · intro heq
    have hvalues :
        (signedFixed places v : ℚ) / 10 ^ places = signedFixed places w / 10 ^ places := by
      rw [← hshown.value, ← hshown'.value, heq]
    have hne : (10 : ℚ) ^ places ≠ 0 := pow_ne_zero _ (by norm_num)
    have hfixed : signedFixed places v = signedFixed places w := by
      exact_mod_cast (div_left_inj' hne).mp hvalues
    exact ⟨_, hshown.nearest, hfixed ▸ hshown'.nearest⟩
  · rintro ⟨k, hk, hk'⟩
    have hfixed : signedFixed places v = signedFixed places w :=
      (hshown.nearest.unique hk).trans (hk'.unique hshown'.nearest)
    rw [resultNumeral_of_signedFixed (isModerate_iff.mp hv).2,
      resultNumeral_of_signedFixed (isModerate_iff.mp hw).2, hfixed]

/-- Without places `-0.5`, which is half-way, and `0.25` are both shown as zero. -/
theorem result_canonical_of_half :
    IsModerate (-0.5) ∧ IsModerate 0.25 ∧ result 0 (-0.5) = "0" ∧ result 0 0.25 = "0" ∧
      (∃ n k, ShownAs 0 (-0.5) n k) ∧
      ∃ k, IsNearestInt (Binary64.toRat (-0.5) * 10 ^ 0) k ∧
        IsNearestInt (Binary64.toRat 0.25 * 10 ^ 0) k := by
  have hv : IsModerate (-0.5) := isModerate_iff.mpr (by decide +kernel)
  have hw : IsModerate 0.25 := isModerate_iff.mpr (by decide +kernel)
  have htext : result 0 (-0.5) = "0" := by decide +kernel
  have htext' : result 0 0.25 = "0" := by decide +kernel
  obtain ⟨hshown, -, hiff⟩ := result_canonical 0 hv hw
  exact ⟨hv, hw, htext, htext', hshown, hiff.mp (htext.trans htext'.symm)⟩

end Decimal

end Calculator
