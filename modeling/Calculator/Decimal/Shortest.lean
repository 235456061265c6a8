import Calculator.Decimal.Basic

/-!
# The shortest decimal of a double

The shortest decimal of a finite double is the one on the coarsest decimal grid that reads back as
that double. On each grid only the two neighbours of the exact value can be nearest to it; if both
read back, the nearer one is taken, and of two equally near the larger.
-/

namespace Calculator.Decimal

open Binary64

/-- The largest multiple of `10 ^ exponent` that is at most `num / den`. -/
def lowerNeighbour (num den : Nat) (exponent : Int) : Decimal :=
  ⟨num * tenPow (-exponent).toNat / (den * tenPow exponent.toNat), exponent⟩

/-- The next multiple of `10 ^ exponent` after a given one. -/
def next (d : Decimal) : Decimal :=
  ⟨d.coefficient + 1, d.exponent⟩

/-- The fraction `num / den` is strictly nearer to its lower neighbour than to the next one. -/
def isNearerToLower (num den : Nat) (exponent : Int) : Bool :=
  let unit := den * tenPow exponent.toNat
  2 * (num * tenPow (-exponent).toNat % unit) < unit

/-- The decimal reads back as the double of the given magnitude. -/
def readsBack (magnitude : Nat) (d : Decimal) : Bool :=
  Binary64.magnitude d.toFloat == magnitude

/-- The best multiple of `10 ^ exponent` that reads back as the given magnitude. -/
def onGrid? (magnitude : Nat) (exponent : Int) : Option Decimal :=
  let lower := lowerNeighbour (unitsAt magnitude) one exponent
  if readsBack magnitude (next lower) &&
      !(readsBack magnitude lower && isNearerToLower (unitsAt magnitude) one exponent) then
    some (next lower)
  else if readsBack magnitude lower then
    some lower
  else
    none

/-- The best decimal on the coarsest grid from `10 ^ (grids - 1074)` downwards. On the last grid
every finite double has an exact decimal. -/
def coarsest (magnitude : Nat) : Nat → Decimal
  | 0 => lowerNeighbour (unitsAt magnitude) one (-1074)
  | grids + 1 => (onGrid? magnitude (grids + 1 - 1074)).getD (coarsest magnitude grids)

/-- An exponent whose power of ten is at least the fraction `num / den`. -/
def ceilingExponent (num den : Nat) : Int :=
  if den ≤ num then
    (digits (num / den)).length
  else
    1 - ((digits (den / num)).length : Int)

/-- The shortest decimal that reads back as the absolute value of a finite double. -/
def shortest (x : Float) : Decimal :=
  if magnitude x = 0 then
    ⟨0, 0⟩
  else
    coarsest (magnitude x) (ceilingExponent (units x) one + 1074).toNat

theorem readsBack_of_onGrid? {magnitude : Nat} {exponent : Int} {d : Decimal}
    (h : onGrid? magnitude exponent = some d) : readsBack magnitude d = true := by
  unfold onGrid? at h
  dsimp only at h
  generalize lowerNeighbour (unitsAt magnitude) one exponent = lower at h
  split at h
  · rename_i hupper
    cases h
    exact (Bool.and_eq_true_iff.mp hupper).1
  · split at h
    · rename_i hlower
      cases h
      exact hlower
    · cases h

/-- A decimal found on a grid reads back; the only other one is the exact decimal. -/
theorem readsBack_coarsest (magnitude grids : Nat) :
    readsBack magnitude (coarsest magnitude grids) = true ∨
      coarsest magnitude grids = coarsest magnitude 0 := by
  induction grids with
  | zero => exact .inr rfl
  | succ grids ih =>
    have hstep : coarsest magnitude (grids + 1) =
        (onGrid? magnitude (grids + 1 - 1074)).getD (coarsest magnitude grids) := rfl
    rw [hstep]
    cases h : onGrid? magnitude (grids + 1 - 1074) with
    | none => exact ih
    | some d => exact .inl (readsBack_of_onGrid? h)

end Calculator.Decimal
