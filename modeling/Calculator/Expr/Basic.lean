import Calculator.Operator

/-!
# Expressions and statements

Names are sorted out when a line is read: in a tree each is a constant with its value, a variable,
the previous answer or a function. Every node keeps the position of the lexeme it came from.
-/

namespace Calculator

inductive Expr where
  | number (position : Nat) (value : Float)
  | constant (position : Nat) (name : String) (value : Float)
  | reference (position : Nat) (name : String)
  | answer (position : Nat)
  | negate (position : Nat) (operand : Expr)
  | binary (position : Nat) (op : Operator) (left right : Expr)
  | call (position : Nat) (name : String) (arguments : List Expr)

/-- A line: an expression, or `let` with the variable to be set. -/
inductive Statement where
  | expression (expr : Expr)
  | assignment (name : String) (value : Expr)

end Calculator
