import Calculator.Proofs.Binary64.Arithmetic
import Calculator.Proofs.Memory.Evaluation
import Calculator.Proofs.Memory.Strict

/-!
# Natural numbers and their factorials

A double is taken for a natural number exactly if it is one, up to a limit below which every natural
number is a double (`Binary64.toNat?_eq_some_iff`).  As long as the function accepts such a number,
its factorial has few significant bits, so that it is exact as a product of machine words and as a
double (`isNatural_ofNat_factorial`).
-/

namespace Calculator

/-! ## Doubles that are natural numbers -/

namespace Binary64

variable {x : Float} {n : ℕ}

/-- The units of a natural number, which is not negative. -/
theorem toRat_eq_natCast_iff :
    toRat x = n ↔ units x = n * one ∧ (isNegative x = true → units x = 0) := by
  have hone : (one : ℚ) ≠ 0 := Nat.cast_ne_zero.mpr one_pos.ne'
  constructor
  · intro h
    have habs : (units x : ℚ) / one = n := by rw [← abs_toRat, h, Nat.abs_cast]
    rw [div_eq_iff hone] at habs
    refine ⟨by exact_mod_cast habs, fun hnegative => ?_⟩
    rw [toRat, signFactor, if_pos hnegative, habs, mul_div_cancel_right₀ _ hone] at h
    have hzero : (n : ℚ) = 0 := by
      have hnonneg : (0 : ℚ) ≤ n := Nat.cast_nonneg n
      linarith
    rw [hzero, zero_mul] at habs
    exact_mod_cast habs
  · rintro ⟨hunits, hnegative⟩
    rw [toRat, signFactor]
    split
    · rename_i hsign
      have hzero : n * one = 0 := by rw [← hunits, hnegative hsign]
      have hn : n = 0 := (Nat.mul_eq_zero.mp hzero).resolve_right one_pos.ne'
      rw [hnegative hsign, hn, Nat.cast_zero, zero_div, mul_zero]
    · rw [hunits, one_mul, Nat.cast_mul, mul_div_cancel_right₀ _ hone]

theorem isNatural_iff :
    IsNatural x n ↔
      magnitude x < infinite ∧ units x = n * one ∧ (isNegative x = true → units x = 0) := by
  rw [← toRat_eq_natCast_iff, ← isFinite_iff_magnitude_lt]
  exact ⟨fun h => ⟨h.finite, h.toRat_eq⟩, fun h => ⟨h.1, h.2⟩⟩

/-- A double is taken for a natural number if it is that number and within the limit. -/
theorem toNat?_eq_some_iff : toNat? x = some n ↔ IsNatural x n ∧ n ≤ maxSafe := by
  have hexact : units x = n * one ↔ units x % one = 0 ∧ units x / one = n := by
    rw [← Nat.dvd_iff_mod_eq_zero]
    constructor
    · intro h
      rw [h, Nat.mul_div_cancel _ one_pos]
      exact ⟨Dvd.intro_left n rfl, rfl⟩
    · rintro ⟨hdvd, rfl⟩
      exact (Nat.div_mul_cancel hdvd).symm
  rw [isNatural_iff, hexact, toNat?]
  constructor
  · intro h
    split at h
    · rename_i hall
      cases h
      exact ⟨⟨hall.1, ⟨hall.2.1, rfl⟩, hall.2.2.1⟩, hall.2.2.2⟩
    · cases h
  · rintro ⟨⟨hfinite, ⟨hwhole, rfl⟩, hsign⟩, hle⟩
    rw [if_pos ⟨hfinite, hwhole, hsign, hle⟩]

theorem toNat?_ofNat (h : n ≤ maxSafe) : toNat? (ofNat n) = some n := by
  refine toNat?_eq_some_iff.mpr ⟨isNatural_ofNat (Nat.lt_of_le_of_lt h ?_), h⟩
  decide

end Binary64

/-! ## Factorials -/

open Binary64

theorem factorial_eq (n : ℕ) : factorial n = n.factorial := by
  induction n with
  | zero => rfl
  | succ n ih => rw [factorial, ih, Nat.factorial_succ]

/-- Up to eighteen the factorials are below the limit, and the next two have many factors two. -/
theorem exists_factorial_eq {n : ℕ} (h : n ≤ largestFactorial) :
    ∃ q k, factorial n = q * 2 ^ k ∧ q < 2 * binade ∧ k ≤ 900 := by
  by_cases hsmall : n ≤ 18
  · refine ⟨factorial n, 0, (Nat.mul_one _).symm, ?_, Nat.zero_le _⟩
    exact Nat.lt_of_le_of_lt (factorial_le_factorial hsmall) (by decide)
  · have hlast : n = 19 ∨ n = 20 := by
      unfold largestFactorial at h
      omega
    rcases hlast with rfl | rfl
    · exact ⟨factorial 19 / 2 ^ 16, 16, by decide, by decide, by decide⟩
    · exact ⟨factorial 20 / 2 ^ 18, 18, by decide, by decide, by decide⟩

theorem isNatural_ofNat_factorial {n : ℕ} (h : n ≤ largestFactorial) :
    IsNatural (ofNat (factorial n)) (factorial n) := by
  obtain ⟨q, k, heq, hq, hk⟩ := exists_factorial_eq h
  rw [heq]
  exact isNatural_ofNat_mul_two_pow hq hk

variable {v : Float} {n : ℕ}

theorem Binary64.IsNatural.isNaN_eq_false (h : IsNatural v n) : v.isNaN = false :=
  (isFinite_iff.mp h.finite).1

theorem toNat?_of_isNatural (hv : IsNatural v n) (hn : n ≤ largestFactorial) :
    toNat? v = some n :=
  toNat?_eq_some_iff.mpr ⟨hv, Nat.le_trans hn (by decide)⟩

/-- The function accepts the natural numbers up to the largest argument. -/
theorem ofFactorial_eq_none_iff :
    DomainFault.ofFactorial v = none ↔ ∃ n ≤ largestFactorial, IsNatural v n := by
  constructor
  · intro h
    unfold DomainFault.ofFactorial at h
    split at h
    · cases h
    · rename_i n hn
      split at h
      · cases h
      · rename_i hlarge
        exact ⟨n, Nat.le_of_not_lt hlarge, (toNat?_eq_some_iff.mp hn).1⟩
  · rintro ⟨n, hn, hv⟩
    rw [DomainFault.ofFactorial, toNat?_of_isNatural hv hn]
    exact if_neg (Nat.not_lt_of_le hn)

theorem factorialRule_of_isNatural (hv : IsNatural v n) (hn : n ≤ largestFactorial) :
    Primitive.factorialRule v = ofNat (factorial n) := by
  rw [Primitive.factorialRule, toNat?_of_isNatural hv hn]
  exact if_pos hn

theorem apply_factorial (v : Float) (position : ℕ) :
    Primitive.factorial.apply [v] position =
      if v.isNaN then .ok nan
      else match DomainFault.ofFactorial v with
        | some fault => .error (.invalid fault.message none)
        | none => .ok (Primitive.factorialRule v) :=
  rfl

/-- A double is taken for a natural number exactly if it is one below `2 ^ 53`, and nothing is lost
on the way to natural numbers and back.  The factorial is exact for the natural numbers up to
twenty, multiplied in machine words and turned into a double; it is not a number where its argument
is not a number, and all other doubles are refused. -/
theorem exact_conversion_and_factorial (v : Float) (position : ℕ) :
    (∀ n, toNat? v = some n ↔ IsNatural v n ∧ n ≤ 2 ^ 53 - 1) ∧
    (∀ n, toNat? v = some n → IsNatural (ofNat n) n ∧ toRat (ofNat n) = toRat v) ∧
    (∀ n ≤ 2 ^ 53 - 1, toNat? (ofNat n) = some n) ∧
    Primitive.find? "factorial" = some .factorial ∧
    (∀ n ≤ 20, IsNatural v n → wordFactorial? n = some n.factorial ∧
      ∃ w, Primitive.factorial.applyStrict [v] position = some (.ok w) ∧
        Primitive.factorial.apply [v] position = .ok w ∧ IsNatural w n.factorial) ∧
    (v.isNaN = true → Primitive.factorial.apply [v] position = .ok nan) ∧
    (v.isNaN = false → (∀ n ≤ 20, ¬IsNatural v n) → ∃ fault : DomainFault,
      Primitive.factorial.apply [v] position = .error (.invalid fault.message none)) := by
  have hsafe : maxSafe = 2 ^ 53 - 1 := by decide
  refine ⟨fun n => ?_, fun n hn => ?_, fun n hn => ?_, by decide, fun n hn hv => ?_,
    fun hnan => ?_, fun hnan hnone => ?_⟩
  · rw [← hsafe]
    exact toNat?_eq_some_iff
  · obtain ⟨hv, hle⟩ := toNat?_eq_some_iff.mp hn
    have hw : IsNatural (ofNat n) n := isNatural_ofNat (Nat.lt_of_le_of_lt hle (by decide))
    exact ⟨hw, hw.toRat_eq.trans hv.toRat_eq.symm⟩
  · exact toNat?_ofNat (hsafe ▸ hn)
  · have happly : Primitive.factorial.apply [v] position = .ok (ofNat (factorial n)) := by
      rw [apply_factorial, hv.isNaN_eq_false, if_neg Bool.false_ne_true,
        ofFactorial_eq_none_iff.mpr ⟨n, hn, hv⟩, factorialRule_of_isNatural hv hn]
    rw [Primitive.applyStrict_eq, happly, wordFactorial?_eq hn, ← factorial_eq]
    exact ⟨rfl, _, rfl, rfl, isNatural_ofNat_factorial hn⟩
  · rw [apply_factorial, if_pos hnan]
  · rw [apply_factorial, hnan, if_neg Bool.false_ne_true]
    cases hfault : DomainFault.ofFactorial v with
    | some fault => exact ⟨fault, rfl⟩
    | none =>
        obtain ⟨n, hn, hv⟩ := ofFactorial_eq_none_iff.mp hfault
        exact absurd hv (hnone n hn)

end Calculator
