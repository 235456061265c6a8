import Calculator.Proofs.Decimal.Literal
import Calculator.Proofs.Decimal.RoundTrip
import Calculator.Proofs.Grammar.Parse
import Calculator.Proofs.Memory.Evaluation

/-!
# Results are expressions

The text of a result is a literal, perhaps with a minus sign before it, and such a line is an
expression in every memory (`SignedNumeral.evaluate_text`).  So the text of a result can be entered
again (`Decimal.ReadBack`), and gives the double nearest to the decimal that was shown; it gives the
result itself if that was shown with all its digits.
-/

namespace Calculator

namespace SignedNumeral

open Decimal

/-! ## Literals are expressions -/

/-- A literal as an operand. -/
def number (numeral : Numeral) (position : Nat) : Derivation .primary :=
  .number numeral.value.toFloat ⟨⟨_, String.ofList numeral.text, position⟩, rfl⟩

/-- A literal with a sign as an expression. -/
def derivation (n : SignedNumeral) : Derivation .expr :=
  let operand : Derivation .unary :=
    if n.negative then
      .negative ⟨⟨_, "-", 0⟩, rfl⟩ (number n.numeral 1)
    else
      .positive (number n.numeral 0)
  .expr (.term (.power operand .powerEnd) .termEnd) .exprEnd

theorem scanFrom_text {numeral : Numeral} (hn : numeral.WellSpelt) (position : Nat) :
    scanFrom position numeral.text = .ok (number numeral position).yield := by
  have hspells := Token.Spells.number hn
  have hread := Token.read?_of_spells hspells
  obtain ⟨c, rest, htext, -⟩ := Token.exists_text_eq_cons hn
  rw [htext] at hspells hread
  rw [htext, scanFrom_token (Token.isSkipped_eq_false_of_spells hspells) hread, scanFrom, ← htext]
  rfl

variable {n : SignedNumeral}

theorem scan_text (hn : n.numeral.WellSpelt) :
    scan (String.ofList n.text) = .ok n.derivation.yield := by
  have hscan : scanFrom 0 n.text = .ok n.derivation.yield := by
    unfold text derivation
    dsimp only
    split
    · have hread : Token.read? ('-' :: n.numeral.text) =
          some (.operator .sub, ['-'], n.numeral.text) := rfl
      rw [scanFrom_token rfl hread, scanFrom_text hn]
      rfl
    · rw [scanFrom_text hn]
      rfl
  rw [scan_eq_ok_iff, ← String.length_toList, ← scanFrom_eq_ok_iff, String.toList_ofList]
  refine ⟨?_, hscan⟩
  unfold derivation
  split <;> simp [number]

theorem admissible_derivation (n : SignedNumeral) (m : Memory) : n.derivation.Admissible m 0 := by
  unfold derivation
  dsimp only
  split <;> simp [number]

theorem eval_derivation (n : SignedNumeral) (m : Memory) :
    m.eval n.derivation.tree = .ok n.toFloat := by
  unfold derivation toFloat
  dsimp only
  split <;> simp [number, Memory.eval]

/-- A literal with a sign is an expression in every memory, and its value becomes the answer. -/
theorem evaluate_text
    (hn : n.numeral.WellSpelt) (hfinite : n.toFloat.isFinite = true) (m : Memory) :
    (∃ e, m.parse (String.ofList n.text) = .ok (.expression e)) ∧
      m.evaluate (String.ofList n.text) = (.ok n.toFloat, { m with answer := some n.toFloat }) := by
  have hparse := Memory.parse_eq_expression_iff.mpr
    ⟨n.derivation, scan_text hn, n.admissible_derivation m, rfl⟩
  exact ⟨⟨_, hparse⟩, Memory.evaluate_eq_ok_iff.mpr
    ⟨_, hparse, n.eval_derivation m, hfinite, rfl⟩⟩

end SignedNumeral

/-! ## Results are read back -/

namespace Decimal

open Binary64

variable {places : Nat} {v : Float}

theorem resultNumeral_of_isFixed (hfixed : isFixed v = true) :
    resultNumeral places v =
      ⟨fixed places v != 0 && isNegative v,
        (ofFixed (fixed places v) places).positionalNumeral⟩ := by
  rw [resultNumeral, if_pos hfixed]

theorem resultNumeral_of_not_isFixed (hfixed : isFixed v ≠ true) :
    resultNumeral places v = ⟨isNegative v, (shortest v).scientificNumeral⟩ := by
  rw [resultNumeral, if_neg hfixed]

/-- The form of a result shows in its text. -/
theorem exponent_resultNumeral_eq_none_iff (places : Nat) (v : Float) :
    (resultNumeral places v).numeral.exponent = none ↔ isFixed v = true := by
  by_cases hfixed : isFixed v = true
  · have hexponent : ∀ d : Decimal, d.positionalNumeral.exponent = none := by
      rintro ⟨coefficient, _ | _⟩ <;> rfl
    simp [resultNumeral_of_isFixed hfixed, hexponent, hfixed]
  · simp [resultNumeral_of_not_isFixed hfixed, scientificNumeral, hfixed]

/-- A result with an exponent is read as the double that it was written from. -/
theorem toFloat_resultNumeral_of_not_isFixed
    (hv : v.isFinite = true) (hfixed : isFixed v ≠ true) :
    (resultNumeral places v).numeral.value.toFloat.isFinite = true ∧
      (resultNumeral places v).toFloat = v := by
  have hmagnitude : magnitude (resultNumeral places v).numeral.value.toFloat = magnitude v := by
    rw [resultNumeral_of_not_isFixed hfixed, value_scientificNumeral, magnitude_toFloat_shortest hv]
  have hfinite : (resultNumeral places v).numeral.value.toFloat.isFinite = true := by
    rw [isFinite_iff_magnitude_lt, hmagnitude]
    exact isFinite_iff_magnitude_lt.mp hv
  refine ⟨hfinite, eq_of_magnitude_eq ?_ ?_⟩
  · rw [SignedNumeral.isNegative_toFloat hfinite, resultNumeral_of_not_isFixed hfixed]
  · rw [SignedNumeral.magnitude_toFloat hfinite, hmagnitude]

theorem abs_toRat_resultNumeral (hfixed : isFixed v = true) :
    |(resultNumeral places v).toRat| = fixed places v / tenPow places := by
  rw [SignedNumeral.abs_toRat, resultNumeral_of_isFixed hfixed, toRat_value_positionalNumeral,
    toRat_ofFixed]

/-- A result without an exponent is read as a double nearest to its decimal. -/
theorem isNearest_resultNumeral (places : Nat) (hfixed : isFixed v = true) :
    (resultNumeral places v).numeral.value.toFloat.isFinite = true ∧
      IsNearest (fun k => unitsAt k * tenPow places) (fixed places v * one)
        (magnitude (resultNumeral places v).toFloat) := by
  have hrat : (resultNumeral places v).numeral.value.toRat = fixed places v / tenPow places := by
    rw [← SignedNumeral.abs_toRat, abs_toRat_resultNumeral hfixed]
  obtain ⟨m, hm, htoFloat⟩ := exists_isNearest_toFloat (tenPow_pos places) hrat
  have hlt : m < infinite :=
    Nat.lt_of_le_of_lt (isNearest_le_leastExponential hfixed hm) (by decide +kernel)
  have hmagnitude : magnitude (resultNumeral places v).numeral.value.toFloat = m := by
    rw [htoFloat, Nat.min_eq_left hlt.le, magnitude_ofMagnitude hlt.le]
  have hfinite : (resultNumeral places v).numeral.value.toFloat.isFinite = true := by
    rwa [isFinite_iff_magnitude_lt, hmagnitude]
  refine ⟨hfinite, ?_⟩
  rwa [SignedNumeral.magnitude_toFloat hfinite, hmagnitude]

/-- The double that a result without an exponent is read as is written alike, unless rounding has
led to `10 ^ 15`. -/
theorem resultNumeral_toFloat_eq_iff (hfixed : isFixed v = true) :
    resultNumeral places (resultNumeral places v).toFloat = resultNumeral places v ↔
      ¬|(resultNumeral places v).toRat| = 10 ^ 15 := by
  obtain ⟨hfinite, hnearest⟩ := isNearest_resultNumeral places hfixed
  have hcarried : |(resultNumeral places v).toRat| = 10 ^ 15 ↔
      fixed places v = tenPow 15 * tenPow places := by
    have hplaces : (tenPow places : ℚ) ≠ 0 := (Nat.cast_pos.mpr (tenPow_pos places)).ne'
    rw [abs_toRat_resultNumeral hfixed, div_eq_iff hplaces, tenPow_eq 15]
    norm_cast
  have hfixed' := isFixed_iff_of_isNearest hfixed hnearest
  rw [hcarried, ← ne_eq, ← hfixed']
  constructor
  · intro h
    rwa [← exponent_resultNumeral_eq_none_iff places, h, exponent_resultNumeral_eq_none_iff]
  · intro hform
    rw [resultNumeral_of_isFixed hform, fixed_eq_of_isNearest hnearest,
      SignedNumeral.isNegative_toFloat hfinite, resultNumeral_of_isFixed hfixed, ← Bool.and_assoc,
      Bool.and_self]

/-- A result is shown by a literal, perhaps with a minus sign, that denotes a number and has the
value `w` when it is entered again. -/
structure ReadBack (places : Nat) (v : Float) (n : SignedNumeral) (w : Float) : Prop where
  wellSpelt : n.numeral.WellSpelt
  text : (result places v).toList = n.text
  parse : ∀ m : Memory, ∃ e, m.parse (result places v) = .ok (.expression e)
  evaluate : ∀ m : Memory,
    m.evaluate (result places v) = (.ok w, { m with answer := some w })
  /-- The value is the double nearest to the number that was shown. -/
  rounded : IsRounded n.toRat w
  /-- Very small and very large results lose nothing. -/
  exact : Binary64.toRat v ≠ 0 →
    |Binary64.toRat v| < Binary64.toRat leastFixed ∨ 10 ^ 15 ≤ |Binary64.toRat v| → w = v
  /-- The value is shown alike, unless rounding has led to `10 ^ 15` without an exponent. -/
  again : result places w = result places v ↔
    ¬(n.numeral.exponent = none ∧ |n.toRat| = 10 ^ 15)

/-- What is shown can be entered again, in every memory and with any number of places. -/
theorem exists_readBack (places : Nat) {v : Float} (hv : v.isFinite = true) :
    ∃ n w, ReadBack places v n w := by
  have hspelt := wellSpelt_resultNumeral places v
  have htext : result places v = String.ofList (resultNumeral places v).text := by
    rw [← toList_result hv, String.ofList_toList]
  have hfinite : (resultNumeral places v).numeral.value.toFloat.isFinite = true := by
    by_cases hfixed : isFixed v = true
    · exact (isNearest_resultNumeral places hfixed).1
    · exact (toFloat_resultNumeral_of_not_isFixed hv hfixed).1
  have hw := SignedNumeral.isFinite_toFloat hfinite
  refine ⟨resultNumeral places v, (resultNumeral places v).toFloat, hspelt, toList_result hv, ?_,
    ?_, SignedNumeral.isRounded_toFloat hfinite, ?_, ?_⟩
  · intro m
    rw [htext]
    exact (SignedNumeral.evaluate_text hspelt hw m).1
  · intro m
    rw [htext]
    exact (SignedNumeral.evaluate_text hspelt hw m).2
  · intro hne hfar
    refine (toFloat_resultNumeral_of_not_isFixed hv fun hfixed => ?_).2
    rcases isFixed_iff_toRat.mp hfixed with hzero | ⟨hleast, hlt⟩
    · exact hne hzero
    · rcases hfar with hsmall | hlarge
      · exact hsmall.not_ge hleast
      · exact hlt.not_ge hlarge
  · rw [result_eq_iff hw hv, exponent_resultNumeral_eq_none_iff]
    by_cases hfixed : isFixed v = true
    · rw [resultNumeral_toFloat_eq_iff hfixed, and_iff_right hfixed]
    · rw [(toFloat_resultNumeral_of_not_isFixed hv hfixed).2]
      exact iff_of_true rfl fun h => hfixed h.1

/-- The largest double below `10 ^ 15`, made negative, is shown without an exponent, but is read
back as `-10 ^ 15`, which is shown with one. -/
theorem exists_readBack_carried :
    let v := -ofMagnitude (magnitude leastExponential - 1)
    v.isFinite = true ∧ result 0 v = "-1000000000000000" ∧
      ∃ n w, ReadBack 0 v n w ∧ w = -leastExponential ∧ result 0 w = "-1e15" := by
  intro v
  have hfinite : v.isFinite = true := by decide +kernel
  have htext : result 0 v = "-1000000000000000" := by decide +kernel
  obtain ⟨n, w, h⟩ := exists_readBack 0 hfinite
  have hw : w = -leastExponential := by
    have hvalue : (Memory.fresh.evaluate (result 0 v)).1.toOption.map Float.toBits =
        some (-leastExponential).toBits := by decide +kernel
    rw [h.evaluate, Except.toOption, Option.map_some, Option.some.injEq] at hvalue
    exact eq_of_toBits_eq hvalue
  refine ⟨hfinite, htext, n, w, h, hw, ?_⟩
  rw [hw]
  decide +kernel

end Decimal

end Calculator
