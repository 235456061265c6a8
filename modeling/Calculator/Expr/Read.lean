import Calculator.Memory.Basic
import Calculator.Expr.Unfinished

/-!
# Reading an expression

An expression is read one lexeme at a time, and a lexeme that cannot stand at its place is refused
at once. For an operator this takes a look at the operators right after it, for a name at whether a
parenthesis follows. Only the number of arguments of a call is left to the end of the call.
-/

namespace Calculator

/-- The operators at the front of some lexemes. -/
def operatorsAhead (ahead : List Lexeme) : List Lexeme :=
  ahead.takeWhile Lexeme.isOperator

/-- The fault of an operator that other operators follow. -/
def runFault? (operator : Lexeme) (ahead : List Lexeme) : Option SyntaxFault :=
  (operatorsAhead ahead).getLast?.map (.operatorRun operator)

/-- A lone minus sign comes next, which can only be a negation. -/
def isNegationAhead (ahead : List Lexeme) : Bool :=
  (operatorsAhead ahead).map Lexeme.token = [.operator .sub]

/-- A parenthesis comes next, so that the name before it is called. -/
def isCallAhead (ahead : List Lexeme) : Bool :=
  ahead.head?.any fun lexeme => lexeme.token = .openParen

namespace Unfinished

/-- Reads a lexeme where an operand should begin. -/
def readOperand (m : Memory) (u : Unfinished) (lexeme : Lexeme) (ahead : List Lexeme) :
    Except SyntaxFault Unfinished :=
  match lexeme.token with
  | .number value => .ok (u.complete (.number lexeme.position value))
  | .identifier name =>
    if isCallAhead ahead then
      match Primitive.find? name with
      | some function => .ok { u with focus := .callee lexeme function }
      | none => .error (.unknownFunction lexeme)
    else
      match m.resolve? name lexeme.position with
      | some expr => .ok (u.complete expr)
      | none => .error (.unknownName lexeme)
  | .openParen => u.enclose lexeme .group .operand
  | .closeParen =>
    match u.enclosures with
    | [] => .error (.unopened lexeme)
    | _ => .error (.unexpected lexeme)
  | .operator op =>
    match runFault? lexeme ahead with
    | some fault => .error fault
    | none =>
      if op = .sub && u.pending.negation.isNone then
        .ok { u with
          pending := { u.pending with negation := some lexeme.position }, focus := .operand }
      else
        .error (.unexpected lexeme)
  | _ => .error (.unexpected lexeme)

/-- Reads a lexeme after a complete operand. -/
def readOperator (u : Unfinished) (value : Expr) (lexeme : Lexeme) (ahead : List Lexeme) :
    Except SyntaxFault Unfinished :=
  match lexeme.token with
  | .operator op =>
    match if isNegationAhead ahead then none else runFault? lexeme ahead with
    | some fault => .error fault
    | none =>
      if op = .pow && maxDepth ≤ u.depth then
        .error (.tooDeep lexeme)
      else
        .ok { u with pending := u.pending.push op lexeme.position value, focus := .operand }
  | .closeParen =>
    match u.enclosures with
    | [] => .error (.unopened lexeme)
    | ⟨_, .group, outside⟩ :: outer =>
      .ok (complete ⟨outside, outer, .operand⟩ (u.pending.completeSum value))
    | ⟨_, .call name function arguments, outside⟩ :: outer =>
      closeCall outside outer name function (arguments ++ [u.pending.completeSum value])
  | .comma =>
    match u.enclosures with
    | ⟨paren, .call name function arguments, outside⟩ :: outer =>
      let arguments := arguments ++ [u.pending.completeSum value]
      .ok ⟨.empty, ⟨paren, .call name function arguments, outside⟩ :: outer, .operand⟩
    | _ => .error (.unexpected lexeme)
  | _ => .error (.unexpected lexeme)

/-- Reads the next lexeme, with a look at those after it. -/
def step (m : Memory) (u : Unfinished) (lexeme : Lexeme) (ahead : List Lexeme) :
    Except SyntaxFault Unfinished :=
  match u.focus with
  | .operand => u.readOperand m lexeme ahead
  | .firstArgument =>
    match lexeme.token, u.enclosures with
    | .closeParen, ⟨_, .call name function arguments, outside⟩ :: outer =>
      closeCall outside outer name function arguments
    | _, _ => u.readOperand m lexeme ahead
  | .callee name function => u.enclose lexeme (.call name function []) .firstArgument
  | .value expr => u.readOperator expr lexeme ahead

/-- Reads the rest of the lexemes of an expression. -/
def read (m : Memory) (u : Unfinished) : List Lexeme → Except SyntaxFault Expr
  | [] => u.finish
  | lexeme :: ahead =>
    match u.step m lexeme ahead with
    | .ok next => next.read m ahead
    | .error fault => .error fault

end Unfinished

/-- The expression that some lexemes make up. -/
def Expr.read (m : Memory) (lexemes : List Lexeme) : Except SyntaxFault Expr :=
  Unfinished.start.read m lexemes

end Calculator
