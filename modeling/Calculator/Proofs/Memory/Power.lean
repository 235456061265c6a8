import Calculator.Memory.Evaluate

/-!
# The two spellings of a power

A power is written with the operator or with the function.  Both fail alike and give the same
double, except where a value that is not a number leaves no trace in the power
(`PowerIgnoresNaN`): the operator then gives one, and the function, as every function, gives what is
not a number.
-/

namespace Calculator

/-- One of the two is not a number, and yet their power is one. -/
def PowerIgnoresNaN (base exponent : Float) : Prop :=
  base.isNaN = true ∧ (exponent == 0) = true ∨ (base == 1) = true ∧ exponent.isNaN = true

variable {x y : Float}

theorem beq_eq_false_of_isNaN (h : x.isNaN = true) (y : Float) : (x == y) = false := by
  have hkinds : ∀ u v : Float.Model.UnpackedFloat, u.isNaN = true → u.beq v = false := by
    intro u v hu
    cases u with
    | notANumber => cases v <;> rfl
    | infinity sign => cases hu
    | zero sign => cases hu
    | finite sign mantissa exponent hpos => cases hu
  exact hkinds x.toModel.unpack y.toModel.unpack h

theorem power_of_ignoresNaN (h : PowerIgnoresNaN x y) : power x y = 1 := by
  unfold power
  rcases h with ⟨-, hzero⟩ | ⟨hone, -⟩
  · rw [hzero, Bool.true_or, if_pos rfl]
  · rw [hone, Bool.or_true, if_pos rfl]

theorem power_of_isNaN
    (hnan : (x.isNaN || y.isNaN) = true) (h : ¬PowerIgnoresNaN x y) :
    power x y = Binary64.nan := by
  have hone : (y == 0 || x == 1) = false := by
    rw [PowerIgnoresNaN, not_or, not_and, not_and] at h
    rcases Bool.or_eq_true_iff.mp hnan with hx | hy
    · rw [beq_eq_false_of_isNaN hx, Bool.or_false]
      exact Bool.eq_false_iff.mpr (h.1 hx)
    · rw [beq_eq_false_of_isNaN hy, Bool.false_or]
      exact Bool.eq_false_iff.mpr fun hone => h.2 hone hy
  rw [power, hone, if_neg (by decide), if_pos hnan]

theorem isNaN_of_ignoresNaN (h : PowerIgnoresNaN x y) : (x.isNaN || y.isNaN) = true := by
  rcases h with ⟨hx, -⟩ | ⟨-, hy⟩
  · rw [hx, Bool.true_or]
  · rw [hy, Bool.or_true]

namespace Memory

variable {m : Memory} {base exponent : Expr}

theorem eval_call_pow
    (position : Nat) (hbase : m.eval base = .ok x) (hexponent : m.eval exponent = .ok y) :
    m.eval (.call position "pow" [base, exponent]) =
      .ok (if x.isNaN || y.isNaN then Binary64.nan else power x y) := by
  have hfind : Primitive.find? "pow" = some .pow := by decide
  simp only [eval, evalAll, hfind, hbase, hexponent]
  rfl

theorem eval_binary_pow
    (position : Nat) (hbase : m.eval base = .ok x) (hexponent : m.eval exponent = .ok y) :
    m.eval (.binary position .pow base exponent) = .ok (power x y) := by
  simp only [eval, hbase, hexponent, Operator.apply]

/-- A fault of the base or of the exponent is the fault of both spellings. -/
theorem eval_call_pow_of_error
    (position position' : Nat)
    (h : ¬∃ x y, m.eval base = .ok x ∧ m.eval exponent = .ok y) :
    m.eval (.call position "pow" [base, exponent]) =
      m.eval (.binary position' .pow base exponent) := by
  have hfind : Primitive.find? "pow" = some .pow := by decide
  cases hbase : m.eval base with
  | error fault => simp only [eval, evalAll, hfind, hbase]
  | ok x =>
      cases hexponent : m.eval exponent with
      | error fault => simp only [eval, evalAll, hfind, hbase, hexponent]
      | ok y => exact absurd ⟨x, y, hbase, hexponent⟩ h

/-- The function and the operator give the same result for all trees, unless the values of the trees
are among those whose power is one although one of them is not a number; then the function gives
what is not a number. -/
theorem eval_call_pow_eq_iff (m : Memory) (base exponent : Expr) (position position' : Nat) :
    (m.eval (.call position "pow" [base, exponent]) =
        m.eval (.binary position' .pow base exponent) ↔
      ∀ x y, m.eval base = .ok x → m.eval exponent = .ok y → ¬PowerIgnoresNaN x y) ∧
    ∀ x y, m.eval base = .ok x → m.eval exponent = .ok y → PowerIgnoresNaN x y →
      m.eval (.call position "pow" [base, exponent]) = .ok Binary64.nan ∧
        m.eval (.binary position' .pow base exponent) = .ok 1 := by
  have hignored : ∀ x y, m.eval base = .ok x → m.eval exponent = .ok y → PowerIgnoresNaN x y →
      m.eval (.call position "pow" [base, exponent]) = .ok Binary64.nan ∧
        m.eval (.binary position' .pow base exponent) = .ok 1 := by
    intro x y hbase hexponent h
    rw [eval_call_pow position hbase hexponent, eval_binary_pow position' hbase hexponent,
      isNaN_of_ignoresNaN h, if_pos rfl, power_of_ignoresNaN h]
    exact ⟨rfl, rfl⟩
  refine ⟨⟨?_, ?_⟩, hignored⟩
  · intro heq x y hbase hexponent h
    obtain ⟨hcall, hoperator⟩ := hignored x y hbase hexponent h
    have hne : (Binary64.nan == 1) = true := by
      rw [hcall, hoperator, Except.ok.injEq] at heq
      rw [heq]
      decide
    exact absurd hne (by decide +kernel)
  · intro h
    by_cases hvalues : ∃ x y, m.eval base = .ok x ∧ m.eval exponent = .ok y
    · obtain ⟨x, y, hbase, hexponent⟩ := hvalues
      rw [eval_call_pow position hbase hexponent, eval_binary_pow position' hbase hexponent]
      split
      · rename_i hnan
        rw [power_of_isNaN hnan (h x y hbase hexponent)]
      · rfl
    · exact eval_call_pow_of_error position position' hvalues

/-- With `0 / 0` to the power zero the two spellings differ. -/
theorem not_forall_eval_call_pow_eq :
    ¬∀ (m : Memory) (base exponent : Expr) (position position' : Nat),
      m.eval (.call position "pow" [base, exponent]) =
        m.eval (.binary position' .pow base exponent) := by
  let zero : Expr := .number 0 0
  let base : Expr := .binary 0 .div zero zero
  have hbase : fresh.eval base = .ok (0 / 0) := by simp only [base, zero, eval, Operator.apply]
  have hexponent : fresh.eval zero = .ok 0 := by simp only [zero, eval]
  intro h
  have hcall := eval_call_pow 0 hbase hexponent
  rw [h fresh base zero 0 0, eval_binary_pow 0 hbase hexponent, Except.ok.injEq] at hcall
  have hone : (power (0 / 0) 0 == 1) = true := by decide +kernel
  rw [hcall] at hone
  exact absurd hone (by decide +kernel)

end Memory

end Calculator
