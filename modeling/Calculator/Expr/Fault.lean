import Calculator.Lexeme.Basic
import Calculator.LineError
import Calculator.Name

/-!
# Faults of syntax

A fault names the lexemes at which the reading of a line broke off. Its line error says the same in
positions and texts of the line.
-/

namespace Calculator

/-- How deep groups, calls and exponents may be nested. -/
def maxDepth : Nat := 128

inductive SyntaxFault where
  /-- The line ends outside all parentheses where an operand should stand. -/
  | endOfInput
  | unclosed (paren : Lexeme)
  | unopened (paren : Lexeme)
  /-- Operators follow each other from `first` to `last` with no operand between them. -/
  | operatorRun (first last : Lexeme)
  | unexpected (lexeme : Lexeme)
  | tooDeep (lexeme : Lexeme)
  | unknownFunction (name : Lexeme)
  | wrongCount (name : Lexeme) (function : Primitive) (count : Nat)
  | unknownName (name : Lexeme)
  | letWithoutValue (letWord : Lexeme)
  | badName (name : String) (fault : Name.Fault)

/-- The characters of a line from `start` up to `stop`. -/
def slice (line : String) (start stop : Nat) : String :=
  String.ofList ((line.toList.drop start).take (stop - start))

def Lexeme.span (l : Lexeme) : Span :=
  .ofText l.position l.text

namespace SyntaxFault

/-- How many arguments a function takes, and how many a call has. -/
def countDetails (arity count : Nat) : String :=
  let noun := if arity = 1 then "argument" else "arguments"
  s!"expects {arity} {noun}, found {count}"

def lineError (line : String) : SyntaxFault → LineError
  | .endOfInput =>
    .invalid "input ends where an operand is expected" (some ⟨line.length, 1⟩)
  | .unclosed paren => .unpairedParen paren.position .opening
  | .unopened paren => .unpairedParen paren.position .closing
  | .operatorRun first last =>
    .adjacentOperators first.position (slice line first.position last.stop)
  | .unexpected lexeme =>
    .invalid s!"unexpected '{lexeme.text}' at position {lexeme.position}" (some lexeme.span)
  | .tooDeep lexeme => .invalid s!"nesting deeper than {maxDepth} levels" (some lexeme.span)
  | .unknownFunction name => .badCall name.position name.text "unknown function"
  | .wrongCount name function count =>
    .badCall name.position name.text (countDetails function.arity count)
  | .unknownName name => .unknownName name.position name.text
  | .letWithoutValue letWord => .invalid "'let' needs '=' and a value" (some letWord.span)
  | .badName name fault => .badName name fault.reason

end SyntaxFault

end Calculator
