/-!
# Errors of lines

Why a line was refused: a message for the user, and a span if the error is at one place of the line.
-/

namespace Calculator

/-- A stretch of the line, in characters. -/
structure Span where
  position : Nat
  length : Nat
  deriving DecidableEq, Repr

/-- The half of a pair of parentheses that lacks the other one. -/
inductive Side where
  | opening
  | closing
  deriving DecidableEq, Repr

inductive LineError where
  | empty
  | badCharacter (position : Nat) (character : Char)
  | unpairedParen (position : Nat) (side : Side)
  | adjacentOperators (position : Nat) (text : String)
  | badCall (position : Nat) (name details : String)
  | badName (name reason : String)
  | unknownName (position : Nat) (name : String)
  /-- The value of the line is infinite. -/
  | infinite
  | invalid (reason : String) (span : Option Span)
  deriving DecidableEq, Repr

def Side.description : Side → String
  | .opening => "unclosed '('"
  | .closing => "unmatched ')'"

/-- The span of a text at a position; an empty text is shown as one character. -/
def Span.ofText (position : Nat) (text : String) : Span :=
  ⟨position, max text.length 1⟩

namespace LineError

def message : LineError → String
  | .empty => "Expression is empty."
  | .badCharacter position character =>
    s!"Invalid character '{character}' at position {position}."
  | .unpairedParen position side =>
    s!"Unbalanced parenthesis at position {position}: {side.description}."
  | .adjacentOperators position text =>
    s!"Invalid operator sequence '{text}' at position {position}."
  | .badCall position name details =>
    s!"Invalid function '{name}' at position {position}: {details}."
  | .badName name reason => s!"Invalid variable name '{name}': {reason}."
  | .unknownName position name => s!"Undefined variable '{name}' at position {position}."
  | .infinite => "Division by zero."
  | .invalid reason _ => s!"Invalid expression: {reason}."

def span : LineError → Option Span
  | .badCharacter position _ => some ⟨position, 1⟩
  | .unpairedParen position _ => some ⟨position, 1⟩
  | .adjacentOperators position text => some (.ofText position text)
  | .badCall position name _ => some (.ofText position name)
  | .unknownName position name => some (.ofText position name)
  | .invalid _ span => span
  | .empty => none
  | .badName _ _ => none
  | .infinite => none

end LineError

end Calculator
