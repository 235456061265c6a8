import Calculator.Decimal.Notation
import Calculator.LineError
import Calculator.Operator

/-!
# Built-in functions

Each built-in takes one or two arguments. Some refuse arguments outside their domain. An argument
that is not a number is never refused: the result is then not a number either.
-/

namespace Calculator

inductive Primitive where
  | sqrt
  | abs
  | pow
  | log
  | log10
  | sin
  | cos
  | tan
  | round
  | ceil
  | floor
  | factorial
  deriving DecidableEq, Repr

/-- Why an argument is outside the domain of a function. -/
inductive DomainFault where
  | negativeRoot (x : Float)
  | nonPositiveLogarithm (x : Float)
  | notNatural (x : Float)
  | factorialTooLarge (n : Nat)
  deriving DecidableEq

/-- What a function computes, and which arguments it refuses. -/
inductive Operation where
  | unary (domainFault? : Float → Option DomainFault) (rule : Float → Float)
  | binary (rule : Float → Float → Float)

/-- The largest argument of the factorial; the factorials up to there are doubles. -/
def largestFactorial : Nat := 20

def factorial : Nat → Nat
  | 0 => 1
  | n + 1 => (n + 1) * factorial n

namespace DomainFault

def message : DomainFault → String
  | .negativeRoot x => s!"square root of a negative number ({Decimal.plain x}) is undefined"
  | .nonPositiveLogarithm x =>
    s!"logarithm of a non-positive number ({Decimal.plain x}) is undefined"
  | .notNatural x => s!"factorial requires a non-negative integer, found {Decimal.plain x}"
  | .factorialTooLarge n =>
    s!"factorial is limited to arguments of at most {largestFactorial}, found {n}"

def ofRoot (x : Float) : Option DomainFault :=
  if x < 0 then some (.negativeRoot x) else none

def ofLogarithm (x : Float) : Option DomainFault :=
  if x ≤ 0 then some (.nonPositiveLogarithm x) else none

def ofFactorial (x : Float) : Option DomainFault :=
  match Binary64.toNat? x with
  | none => some (.notNatural x)
  | some n => if largestFactorial < n then some (.factorialTooLarge n) else none

end DomainFault

namespace Operation

def total (rule : Float → Float) : Operation :=
  .unary (fun _ => none) rule

def arity : Operation → Nat
  | .unary _ _ => 1
  | .binary _ => 2

end Operation

namespace Primitive

def all : List Primitive :=
  [.sqrt, .abs, .pow, .log, .log10, .sin, .cos, .tan, .round, .ceil, .floor, .factorial]

def name : Primitive → String
  | .sqrt => "sqrt"
  | .abs => "abs"
  | .pow => "pow"
  | .log => "log"
  | .log10 => "log10"
  | .sin => "sin"
  | .cos => "cos"
  | .tan => "tan"
  | .round => "round"
  | .ceil => "ceil"
  | .floor => "floor"
  | .factorial => "factorial"

def find? (name : String) : Option Primitive :=
  all.find? fun function => function.name == name

/-- The factorial of a double that is a natural number in the domain, else not a number. -/
def factorialRule (x : Float) : Float :=
  match Binary64.toNat? x with
  | some n =>
    if n ≤ largestFactorial then Binary64.ofNat (Calculator.factorial n) else Binary64.nan
  | none => Binary64.nan

def operation : Primitive → Operation
  | .sqrt => .unary DomainFault.ofRoot Float.sqrt
  | .abs => .total Float.abs
  | .pow => .binary power
  | .log => .unary DomainFault.ofLogarithm Float.log
  | .log10 => .unary DomainFault.ofLogarithm Float.log10
  | .sin => .total Float.sin
  | .cos => .total Float.cos
  | .tan => .total Float.tan
  | .round => .total Float.round
  | .ceil => .total Float.ceil
  | .floor => .total Float.floor
  | .factorial => .unary DomainFault.ofFactorial factorialRule

def arity (function : Primitive) : Nat :=
  function.operation.arity

def apply (function : Primitive) (arguments : List Float) (position : Nat) :
    Except LineError Float :=
  match function.operation, arguments with
  | .unary domainFault? rule, [x] =>
    if x.isNaN then
      .ok Binary64.nan
    else
      match domainFault? x with
      | some fault => .error (.invalid fault.message none)
      | none => .ok (rule x)
  | .binary rule, [x, y] =>
    .ok (if x.isNaN || y.isNaN then Binary64.nan else rule x y)
  | operation, arguments =>
    .error (.badCall position function.name
      s!"expects {operation.arity} arguments, found {arguments.length}")

theorem mem_all (function : Primitive) : function ∈ all := by
  cases function <;> decide

theorem name_of_find? {name : String} {function : Primitive} (h : find? name = some function) :
    function.name = name := by
  simpa using List.find?_some h

end Primitive

end Calculator
