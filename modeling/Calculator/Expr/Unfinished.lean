import Calculator.Expr.Fault
import Calculator.Expr.Basic

/-!
# Expressions read up to some lexeme

An unfinished expression is what is known after some lexemes of an expression: the groups and calls
that are still open, and in each the operators that wait for their right operand. A group never
holds more than one waiting sum and one waiting product, since an operator of the same level or a
lower one completes them; powers wait until their exponent is complete, so there can be many.
-/

namespace Calculator

/-- A binary operator with its left operand, waiting for the right one. -/
structure Half where
  position : Nat
  op : Operator
  left : Expr

def Half.complete (half : Half) (right : Expr) : Expr :=
  .binary half.position half.op half.left right

/-- The operators of one group that wait for an operand. -/
structure Pending where
  sum : Option Half
  product : Option Half
  /-- The innermost power comes first. -/
  powers : List Half
  /-- The position of a minus sign whose operand comes next. -/
  negation : Option Nat

/-- What a parenthesis belongs to: a group, or the arguments of a call as far as they are read. -/
inductive Opening where
  | group
  | call (name : Lexeme) (function : Primitive) (arguments : List Expr)

/-- A parenthesis that is still open, with the operators that wait outside it. -/
structure Enclosure where
  paren : Lexeme
  opening : Opening
  outside : Pending

/-- What was read last, which decides what may come next. -/
inductive Focus where
  /-- An operand must come next. -/
  | operand
  /-- A call has just been opened: an argument or the closing parenthesis must come next. -/
  | firstArgument
  /-- The name of a function has been read: its opening parenthesis comes next. -/
  | callee (name : Lexeme) (function : Primitive)
  /-- An operand is complete. -/
  | value (expr : Expr)

/-- An expression read up to some lexeme; the innermost enclosure comes first. -/
structure Unfinished where
  pending : Pending
  enclosures : List Enclosure
  focus : Focus

namespace Pending

def empty : Pending :=
  ⟨none, none, [], none⟩

/-- Gives the right operand to an operator that may be waiting. -/
def completeHalf (half : Option Half) (right : Expr) : Expr :=
  match half with
  | some half => half.complete right
  | none => right

def completePowers (p : Pending) (right : Expr) : Expr :=
  p.powers.foldl (fun exponent half => half.complete exponent) right

def completeProduct (p : Pending) (right : Expr) : Expr :=
  completeHalf p.product (p.completePowers right)

/-- The expression of the whole group, if `right` ends it. -/
def completeSum (p : Pending) (right : Expr) : Expr :=
  completeHalf p.sum (p.completeProduct right)

/-- Reads an operator after an operand: what binds at least as tightly is completed first. -/
def push (p : Pending) (op : Operator) (position : Nat) (left : Expr) : Pending :=
  match op with
  | .pow => { p with powers := ⟨position, op, left⟩ :: p.powers }
  | .mul | .div => { p with product := some ⟨position, op, p.completeProduct left⟩, powers := [] }
  | .add | .sub =>
    { p with sum := some ⟨position, op, p.completeSum left⟩, product := none, powers := [] }

end Pending

namespace Unfinished

/-- Nothing is read yet. -/
def start : Unfinished :=
  ⟨.empty, [], .operand⟩

/-- How many groups, calls and exponents are around the next lexeme. -/
def depth (u : Unfinished) : Nat :=
  u.enclosures.foldr (fun e depth => depth + 1 + e.outside.powers.length) u.pending.powers.length

/-- The fault of a line that ends here. -/
def endFault (u : Unfinished) : SyntaxFault :=
  match u.enclosures with
  | [] => .endOfInput
  | enclosure :: _ => .unclosed enclosure.paren

/-- Takes an operand without its sign, which completes a waiting negation. -/
def complete (u : Unfinished) (operand : Expr) : Unfinished :=
  let value :=
    match u.pending.negation with
    | some position => .negate position operand
    | none => operand
  { u with pending := { u.pending with negation := none }, focus := .value value }

/-- Opens a parenthesis, unless it is nested too deeply. -/
def enclose (u : Unfinished) (paren : Lexeme) (opening : Opening) (focus : Focus) :
    Except SyntaxFault Unfinished :=
  if maxDepth ≤ u.depth then
    .error (.tooDeep paren)
  else
    .ok ⟨.empty, ⟨paren, opening, u.pending⟩ :: u.enclosures, focus⟩

/-- Closes a call, whose arguments are all read. -/
def closeCall (outside : Pending) (outer : List Enclosure) (name : Lexeme) (function : Primitive)
    (arguments : List Expr) : Except SyntaxFault Unfinished :=
  if arguments.length = function.arity then
    .ok (complete ⟨outside, outer, .operand⟩ (.call name.position name.text arguments))
  else
    .error (.wrongCount name function arguments.length)

/-- The expression that is read, if the line ends here. -/
def finish (u : Unfinished) : Except SyntaxFault Expr :=
  match u.focus, u.enclosures with
  | .value expr, [] => .ok (u.pending.completeSum expr)
  | _, _ => .error u.endFault

end Unfinished

end Calculator
