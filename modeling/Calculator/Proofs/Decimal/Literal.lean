import Calculator.Decimal.Notation
import Calculator.Proofs.Decimal.Reading
import Calculator.Proofs.Scanning.Spelling

/-!
# Decimals are written as literals

Both notations of a decimal are texts of literals, and the literals denote the decimal
(`Decimal.toRat_value_positionalNumeral`, `Decimal.value_scientificNumeral`).  A literal with a
minus sign before it denotes the negative number, and is read as the double nearest to that number
(`SignedNumeral.isRounded_toFloat`).
-/

namespace Calculator

namespace Decimal

theorem isDigits_digits (n : Nat) : Numeral.IsDigits (digits n) :=
  ⟨digits_ne_nil n, fun _ => isDigit_of_mem_digits⟩

/-! ## Positional notation -/

/-- The literal that the positional notation of a decimal is. -/
def positionalNumeral (d : Decimal) : Numeral :=
  match d.exponent with
  | .ofNat zeros => ⟨digits (d.coefficient * tenPow zeros), none, none⟩
  | .negSucc k =>
    ⟨digits (d.coefficient / tenPow (k + 1)),
      some ((digits (d.coefficient % tenPow (k + 1))).leftpad (k + 1) '0'), none⟩

theorem text_positionalNumeral (d : Decimal) : d.positionalNumeral.text = d.positional := by
  obtain ⟨coefficient, exponent⟩ := d
  rcases exponent with zeros | k <;>
    simp only [positionalNumeral, positional, Numeral.text, Numeral.fractionText,
      Numeral.exponentText, List.append_nil]

theorem isDigits_leftpad (n places : Nat) :
    Numeral.IsDigits ((digits n).leftpad places '0') := by
  refine ⟨?_, fun c hc => ?_⟩
  · simp [List.leftpad, digits_ne_nil]
  · rcases List.mem_append.mp hc with hzero | hdigit
    · rw [List.eq_of_mem_replicate hzero]
      decide
    · exact isDigit_of_mem_digits hdigit

theorem wellSpelt_positionalNumeral (d : Decimal) : d.positionalNumeral.WellSpelt := by
  unfold positionalNumeral
  split
  · exact ⟨isDigits_digits _, by simp, by simp⟩
  · refine ⟨isDigits_digits _, ?_, by simp⟩
    intro fraction hfraction
    rw [← Option.some.inj hfraction]
    exact isDigits_leftpad _ _

theorem length_leftpad_digits {n places : Nat} (hplaces : 0 < places) (h : n < tenPow places) :
    ((digits n).leftpad places '0').length = places := by
  have hlength := (Nat.length_toDigits_le_iff (by decide) hplaces).mpr h
  rw [List.length_leftpad, digits, Nat.max_eq_left hlength]

theorem ofDigitChars_leftpad_digits (n places : Nat) :
    Nat.ofDigitChars 10 ((digits n).leftpad places '0') 0 = n := by
  rw [List.leftpad, Nat.ofDigitChars_append, Nat.ofDigitChars_replicate_zero, Nat.mul_zero,
    ofDigitChars_digits]

theorem toRat_value_positionalNumeral (d : Decimal) :
    d.positionalNumeral.value.toRat = d.toRat := by
  obtain ⟨coefficient, exponent⟩ := d
  rcases exponent with zeros | k
  · simp [positionalNumeral, Numeral.value, toRat, ofDigitChars_digits, tenPow_eq]
  · have hlength := length_leftpad_digits (Nat.succ_pos k)
      (Nat.mod_lt coefficient (tenPow_pos (k + 1)))
    have hcoefficient : Nat.ofDigitChars 10
        (digits (coefficient / tenPow (k + 1)) ++
          (digits (coefficient % tenPow (k + 1))).leftpad (k + 1) '0') 0 = coefficient := by
      rw [Nat.ofDigitChars_append, ofDigitChars_digits, Nat.ofDigitChars_eq_ofDigitChars_zero,
        ofDigitChars_leftpad_digits, hlength]
      exact Nat.div_add_mod coefficient (tenPow (k + 1))
    simp only [positionalNumeral, Numeral.value, toRat, Option.getD_some, Option.map_none,
      Option.getD_none, hcoefficient, hlength, zero_sub, Int.negSucc_eq, Nat.cast_succ]

/-! ## Scientific notation -/

/-- The literal that the scientific notation of a decimal is. -/
def scientificNumeral (d : Decimal) : Numeral :=
  let ds := digits d.coefficient
  let fraction := ds.drop 1
  let exponent := d.exponent + fraction.length
  ⟨ds.take 1, if fraction = [] then none else some fraction,
    some ⟨'e', if exponent < 0 then some '-' else none, digits exponent.natAbs⟩⟩

theorem text_scientificNumeral (d : Decimal) : d.scientificNumeral.text = d.scientific := by
  unfold scientificNumeral scientific
  dsimp only
  split <;> split <;>
    simp_all [Numeral.text, Numeral.fractionText, Numeral.exponentText, Numeral.Exponent.text]

theorem wellSpelt_scientificNumeral (d : Decimal) : d.scientificNumeral.WellSpelt := by
  have hsub : ∀ c ∈ digits d.coefficient, c.isDigit = true := fun _ => isDigit_of_mem_digits
  refine ⟨⟨?_, fun c hc => hsub c (List.mem_of_mem_take hc)⟩, ?_, ?_⟩
  · simp [scientificNumeral, digits_ne_nil]
  · intro fraction hfraction
    simp only [scientificNumeral, Option.mem_def] at hfraction
    split at hfraction
    · cases hfraction
    · rename_i hne
      cases hfraction
      exact ⟨hne, fun c hc => hsub c (List.mem_of_mem_drop hc)⟩
  · intro e he
    simp only [scientificNumeral, Option.mem_def, Option.some.injEq] at he
    subst he
    refine ⟨rfl, ?_, isDigits_digits _⟩
    intro c hc
    simp only [Option.mem_def] at hc
    split at hc
    · cases hc
      rfl
    · cases hc

theorem value_scientificNumeral (d : Decimal) : d.scientificNumeral.value = d := by
  have hfraction : d.scientificNumeral.fraction.getD [] = (digits d.coefficient).drop 1 := by
    unfold scientificNumeral
    dsimp only
    split
    · rename_i hnil
      exact hnil.symm
    · rfl
  have hexponent : (d.scientificNumeral.exponent.map Numeral.Exponent.value).getD 0 =
      d.exponent + ((digits d.coefficient).drop 1).length := by
    simp only [scientificNumeral, Option.map_some, Option.getD_some, Numeral.Exponent.value,
      ofDigitChars_digits]
    by_cases hneg : d.exponent + ((digits d.coefficient).drop 1).length < 0
    · rw [if_pos hneg, if_pos rfl, Int.ofNat_natAbs_of_nonpos hneg.le, Int.neg_neg]
    · rw [if_neg hneg, if_neg (by decide), Int.natAbs_of_nonneg (Int.not_lt.mp hneg)]
  have hwhole : d.scientificNumeral.whole = (digits d.coefficient).take 1 := rfl
  obtain ⟨coefficient, exponent⟩ := d
  rw [Numeral.value, hfraction, hexponent, hwhole, List.take_append_drop, ofDigitChars_digits,
    Int.add_sub_cancel]

end Decimal

/-! ## Literals with a sign -/

namespace Numeral

variable {n n' : Numeral}

theorem text_ne_cons_minus (hn : n.WellSpelt) (rest : List Char) : n.text ≠ '-' :: rest := by
  obtain ⟨c, after, htext, hdigit⟩ := Token.exists_text_eq_cons hn
  rw [htext]
  rintro ⟨⟩
  revert hdigit
  decide

theorem eq_of_text_eq (hn : n.WellSpelt) (hn' : n'.WellSpelt) (h : n.text = n'.text) : n = n' := by
  have hread := read?_text hn
  rw [h, read?_text hn'] at hread
  exact (congrArg Prod.fst (Option.some.inj hread)).symm

end Numeral

/-- A literal, perhaps with a minus sign before it. -/
structure SignedNumeral where
  negative : Bool
  numeral : Numeral

namespace SignedNumeral

open Binary64

variable {n n' : SignedNumeral}

def text (n : SignedNumeral) : List Char :=
  if n.negative then '-' :: n.numeral.text else n.numeral.text

/-- The number that a literal with a sign denotes. -/
def toRat (n : SignedNumeral) : ℚ :=
  if n.negative then -n.numeral.value.toRat else n.numeral.value.toRat

def toFloat (n : SignedNumeral) : Float :=
  if n.negative then -n.numeral.value.toFloat else n.numeral.value.toFloat

/-- Different literals have different texts. -/
theorem eq_of_text_eq
    (hn : n.numeral.WellSpelt) (hn' : n'.numeral.WellSpelt) (h : n.text = n'.text) : n = n' := by
  obtain ⟨negative, numeral⟩ := n
  obtain ⟨negative', numeral'⟩ := n'
  rcases negative with _ | _ <;> rcases negative' with _ | _
  · obtain rfl : numeral = numeral' := Numeral.eq_of_text_eq hn hn' h
    rfl
  · exact absurd h (Numeral.text_ne_cons_minus hn _)
  · exact absurd h.symm (Numeral.text_ne_cons_minus hn' _)
  · obtain rfl : numeral = numeral' := Numeral.eq_of_text_eq hn hn' (List.cons.inj h).2
    rfl

section

variable (hfinite : n.numeral.value.toFloat.isFinite = true)

include hfinite

theorem isFinite_toFloat : n.toFloat.isFinite = true := by
  unfold toFloat
  split
  · exact isFinite_neg hfinite
  · exact hfinite

theorem magnitude_toFloat : magnitude n.toFloat = magnitude n.numeral.value.toFloat := by
  unfold toFloat
  split
  · exact magnitude_neg hfinite
  · rfl

theorem isNegative_toFloat : isNegative n.toFloat = n.negative := by
  unfold toFloat
  split
  · rename_i hnegative
    rw [isNegative_neg hfinite, Decimal.isNegative_toFloat, hnegative]
    rfl
  · rename_i hnegative
    rw [Decimal.isNegative_toFloat, Bool.eq_false_iff.mpr hnegative]

theorem toRat_eq_signFactor_mul : n.toRat = signFactor n.toFloat * n.numeral.value.toRat := by
  unfold toRat signFactor
  rw [isNegative_toFloat hfinite]
  split
  · exact (neg_one_mul _).symm
  · exact (one_mul _).symm

/-- A literal with a sign is read as the double nearest to the number that it denotes. -/
theorem isRounded_toFloat : IsRounded n.toRat n.toFloat := by
  obtain ⟨m, hm, htoFloat⟩ := Decimal.exists_isNearest_toFloat n.numeral.value.denominator_pos
    (Decimal.toRat_eq n.numeral.value)
  have hmagnitude : magnitude n.toFloat = min m infinite := by
    rw [magnitude_toFloat hfinite, htoFloat, magnitude_ofMagnitude (Nat.min_le_right _ _)]
  have hlt : min m infinite < infinite := by
    rw [← hmagnitude]
    exact isFinite_iff_magnitude_lt.mp (isFinite_toFloat hfinite)
  have hm' : magnitude n.toFloat = m := by omega
  rw [toRat_eq_signFactor_mul hfinite, Decimal.toRat_eq]
  apply isRounded_of_isNearest n.numeral.value.denominator_pos (isFinite_toFloat hfinite)
  rwa [hm']

end

theorem abs_toRat (n : SignedNumeral) : |n.toRat| = n.numeral.value.toRat := by
  have hnonneg : 0 ≤ n.numeral.value.toRat := by
    rw [Decimal.toRat_eq]
    exact div_nonneg (Nat.cast_nonneg _) (Nat.cast_nonneg _)
  unfold toRat
  split
  · rw [abs_neg, abs_of_nonneg hnonneg]
  · exact abs_of_nonneg hnonneg

end SignedNumeral

/-! ## Results -/

namespace Decimal

open Binary64

/-- The literal that the text of a finite result is. -/
def resultNumeral (places : Nat) (x : Float) : SignedNumeral :=
  if isFixed x then
    ⟨fixed places x != 0 && isNegative x, (ofFixed (fixed places x) places).positionalNumeral⟩
  else
    ⟨isNegative x, (shortest x).scientificNumeral⟩

theorem wellSpelt_resultNumeral (places : Nat) (x : Float) :
    (resultNumeral places x).numeral.WellSpelt := by
  unfold resultNumeral
  split
  · exact wellSpelt_positionalNumeral _
  · exact wellSpelt_scientificNumeral _

theorem toList_result {places : Nat} {x : Float} (hfinite : x.isFinite = true) :
    (result places x).toList = (resultNumeral places x).text := by
  have hlt := isFinite_iff_magnitude_lt.mp hfinite
  unfold result resultNumeral
  split
  · by_cases hzero : fixed places x = 0 <;>
      simp [hzero, SignedNumeral.text, signed, text_positionalNumeral]
  · rw [exponential, write, if_neg (Nat.lt_asymm hlt), if_neg (Nat.ne_of_lt hlt),
      String.toList_ofList, signed, SignedNumeral.text, text_scientificNumeral]

/-- Results have the same text only if they are the same literal. -/
theorem result_eq_iff
    {places : Nat} {x y : Float} (hx : x.isFinite = true) (hy : y.isFinite = true) :
    result places x = result places y ↔ resultNumeral places x = resultNumeral places y := by
  rw [← String.toList_inj, toList_result hx, toList_result hy]
  constructor
  · exact SignedNumeral.eq_of_text_eq (wellSpelt_resultNumeral _ _) (wellSpelt_resultNumeral _ _)
  · exact fun h => by rw [h]

end Decimal

end Calculator
