import Calculator.Bindings
import Calculator.Expr.Basic
import Calculator.Name

/-!
# The memory of a calculator

What outlasts a line: the variables and the previous answer. A name in operand position means the
previous answer, a constant or a variable, in this order.
-/

namespace Calculator

structure Memory where
  bindings : Bindings
  answer : Option Float

namespace Memory

def fresh : Memory :=
  ⟨.empty, none⟩

instance : Inhabited Memory :=
  ⟨fresh⟩

/-- Unbinds all variables and keeps the previous answer. -/
def clearBindings (m : Memory) : Memory :=
  { m with bindings := .empty }

/-- What a name in operand position stands for. -/
def resolve? (m : Memory) (name : String) (position : Nat) : Option Expr :=
  if name = Name.answer then
    if m.answer.isSome then some (.answer position) else none
  else
    match NamedConstant.find? name with
    | some constant => some (.constant position name constant.value)
    | none => if m.bindings.contains name then some (.reference position name) else none

end Memory

end Calculator
