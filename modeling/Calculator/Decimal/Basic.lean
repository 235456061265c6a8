import Calculator.Binary64.Basic

/-!
# Decimal numbers

A decimal is a coefficient and a power of ten. It is rounded to the nearest double, and written in
two ways: positional, with as many zeros as the power needs, and scientific, with one digit before
the point.
-/

namespace Calculator

/-- The number `coefficient * 10 ^ exponent`. -/
structure Decimal where
  coefficient : Nat
  exponent : Int
  deriving DecidableEq, Repr

namespace Decimal

def tenPow (n : Nat) : Nat :=
  Nat.pow 10 n

/-- Above this exponent every decimal but zero is beyond the doubles. -/
def largestExponent : Int := 400

/-- A decimal this many powers of ten below one is nearer to zero than to any other double. -/
def smallestExponent : Int := -1200

/-- The double nearest to a decimal. Exponents far outside the range of the doubles are decided
without computing their power of ten. -/
def toFloat (d : Decimal) : Float :=
  if d.coefficient = 0 then
    Binary64.ofMagnitude 0
  else if largestExponent < d.exponent then
    Binary64.infinity
  else if d.exponent + d.coefficient.log2 < smallestExponent then
    Binary64.ofMagnitude 0
  else
    Binary64.nearest (d.coefficient * tenPow d.exponent.toNat) (tenPow (-d.exponent).toNat)

def digits (n : Nat) : List Char :=
  Nat.toDigits 10 n

/-- The decimal without an exponent: `1200`, `12`, `0.0012`. -/
def positional (d : Decimal) : List Char :=
  match d.exponent with
  | .ofNat zeros => digits (d.coefficient * tenPow zeros)
  | .negSucc k =>
    let places := k + 1
    digits (d.coefficient / tenPow places) ++ '.' ::
      (digits (d.coefficient % tenPow places)).leftpad places '0'

/-- The decimal with one digit before the point and an exponent: `1.2e3`, `5e-7`. -/
def scientific (d : Decimal) : List Char :=
  let ds := digits d.coefficient
  let fraction := ds.drop 1
  let exponent := d.exponent + fraction.length
  ds.take 1 ++ (if fraction = [] then [] else '.' :: fraction) ++
    'e' :: (if exponent < 0 then ['-'] else []) ++ digits exponent.natAbs

/-- The number `coefficient / 10 ^ places`, with no zero at the end of its fraction. -/
def ofFixed (coefficient : Nat) : Nat → Decimal
  | 0 => ⟨coefficient, 0⟩
  | places + 1 =>
    if coefficient % 10 = 0 then
      ofFixed (coefficient / 10) places
    else
      ⟨coefficient, -(places + 1 : Nat)⟩

theorem digits_ne_nil (n : Nat) : digits n ≠ [] :=
  Nat.toDigits_ne_nil

theorem isDigit_of_mem_digits {c : Char} {n : Nat} (h : c ∈ digits n) : c.isDigit = true :=
  Nat.isDigit_of_mem_toDigits (by decide) (by decide) h

theorem ofDigitChars_digits (n : Nat) : Nat.ofDigitChars 10 (digits n) 0 = n :=
  Nat.ofDigitChars_ten_toDigits

theorem tenPow_succ (n : Nat) : tenPow (n + 1) = tenPow n * 10 := rfl

theorem tenPow_le_tenPow {m n : Nat} (h : m ≤ n) : tenPow m ≤ tenPow n :=
  Nat.pow_le_pow_right (by decide) h

/-- The last grid of decimals holds every finite double. -/
theorem one_dvd_tenPow : Binary64.one ∣ tenPow 1074 :=
  ⟨Nat.pow 5 1074, by decide +kernel⟩

/-- The powers of ten above `largestExponent` are beyond the doubles. -/
theorem unitsAt_infinite_le {n : Nat} (h : 401 ≤ n) :
    Binary64.unitsAt Binary64.infinite ≤ tenPow n * Binary64.one := by
  have hleast : Binary64.unitsAt Binary64.infinite ≤ tenPow 401 * Binary64.one := by
    decide +kernel
  exact Nat.le_trans hleast (Nat.mul_le_mul_right Binary64.one (tenPow_le_tenPow h))

theorem ofFixed_exponent_nonpos (coefficient places : Nat) :
    (ofFixed coefficient places).exponent ≤ 0 := by
  induction places generalizing coefficient with
  | zero => exact Int.le_refl 0
  | succ places ih =>
    rw [ofFixed]
    split
    · exact ih (coefficient / 10)
    · exact Int.neg_nonpos_of_nonneg (Int.natCast_nonneg _)

theorem ofFixed_places_le (coefficient places : Nat) :
    (-(ofFixed coefficient places).exponent).toNat ≤ places := by
  induction places generalizing coefficient with
  | zero => exact Nat.le_refl 0
  | succ places ih =>
    rw [ofFixed]
    split
    · exact Nat.le_succ_of_le (ih (coefficient / 10))
    · have hplaces : (- -((places + 1 : Nat) : Int)).toNat = places + 1 := by
        rw [Int.neg_neg, Int.toNat_natCast]
      exact Nat.le_of_eq hplaces

/-- Dropping the zeros at the end keeps the number. -/
theorem ofFixed_value (coefficient places : Nat) :
    (ofFixed coefficient places).coefficient *
      tenPow (places - (-(ofFixed coefficient places).exponent).toNat) = coefficient := by
  induction places generalizing coefficient with
  | zero => exact Nat.mul_one coefficient
  | succ places ih =>
    rw [ofFixed]
    split
    · rename_i hzero
      have hle := ofFixed_places_le (coefficient / 10) places
      rw [Nat.succ_sub hle, Nat.succ_eq_add_one, tenPow_succ, ← Nat.mul_assoc, ih]
      omega
    · rw [Int.neg_neg, Int.toNat_natCast, Nat.sub_self]
      exact Nat.mul_one coefficient

/-- A fraction that is left ends in a digit other than zero. -/
theorem ofFixed_coefficient_mod_ten {coefficient places : Nat}
    (h : (ofFixed coefficient places).exponent < 0) :
    (ofFixed coefficient places).coefficient % 10 ≠ 0 := by
  induction places generalizing coefficient with
  | zero => simp [ofFixed] at h
  | succ places ih =>
    unfold ofFixed at h ⊢
    split <;> rename_i hzero
    · rw [if_pos hzero] at h
      exact ih h
    · exact hzero

end Decimal

end Calculator
