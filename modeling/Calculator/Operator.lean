import Calculator.Binary64.Basic

/-!
# Binary operators

The five binary operators, their symbols and what they compute. Nothing is refused here: a division
by zero is infinite or not a number.
-/

namespace Calculator

inductive Operator where
  | add
  | sub
  | mul
  | div
  | pow
  deriving DecidableEq, Repr

/-- A power. Anything to the power zero is one, and so is any power of one, also where the other
number is not a number. In all other cases the power is not a number if one of the two is not. -/
def power (base exponent : Float) : Float :=
  if exponent == 0 || base == 1 then
    1
  else if base.isNaN || exponent.isNaN then
    Binary64.nan
  else
    base.pow exponent

namespace Operator

def symbol : Operator → Char
  | .add => '+'
  | .sub => '-'
  | .mul => '*'
  | .div => '/'
  | .pow => '^'

def ofSymbol? : Char → Option Operator
  | '+' => some .add
  | '-' => some .sub
  | '*' => some .mul
  | '/' => some .div
  | '^' => some .pow
  | _ => none

def apply : Operator → Float → Float → Float
  | .add, left, right => left + right
  | .sub, left, right => left - right
  | .mul, left, right => left * right
  | .div, left, right => left / right
  | .pow, left, right => power left right

theorem ofSymbol?_eq_some_iff {c : Char} {op : Operator} :
    ofSymbol? c = some op ↔ c = op.symbol := by
  constructor
  · intro h
    unfold ofSymbol? at h
    split at h <;> cases h <;> rfl
  · rintro rfl
    cases op <;> rfl

end Operator

end Calculator
