import Calculator.Operator

/-!
# Tokens and lexemes

A token is what a word of the language means, a lexeme is a token with its text and its place in the
line.
-/

namespace Calculator

inductive Token where
  | number (value : Float)
  | letWord
  | identifier (name : String)
  | operator (op : Operator)
  | openParen
  | closeParen
  | comma
  | equals
  | endOfInput
  deriving DecidableEq

/-- A token at a place of the line; positions count characters. -/
structure Lexeme where
  token : Token
  text : String
  position : Nat
  deriving DecidableEq

namespace Token

def operator? : Token → Option Operator
  | .operator op => some op
  | _ => none

def isOperator (t : Token) : Bool :=
  t.operator?.isSome

end Token

namespace Lexeme

def length (l : Lexeme) : Nat :=
  l.text.length

/-- The position just after the lexeme. -/
def stop (l : Lexeme) : Nat :=
  l.position + l.length

def isOperator (l : Lexeme) : Bool :=
  l.token.isOperator

end Lexeme

end Calculator
