import Calculator.Expr.Fault
import Calculator.Memory.Basic

/-!
# The grammar of statements

A derivation is the tree by which the grammar makes a list of lexemes:

    statement  := ["let" name "="] expr
    expr       := term (("+" | "-") term)*
    term       := power (("*" | "/") power)*
    power      := unary ["^" power]
    unary      := ["-"] primary
    primary    := number | name | name "(" expr ("," expr)* ")" | "(" expr ")"

What may follow the first part of a rule has a category of its own, `exprRest` and so on, so that
each rule reads from the left to the right.  Nothing here mentions how a line is read.  A derivation
yields its lexemes, stands for an expression, and has the side conditions that the grammar alone
does not express: names are known, calls fit, and nothing is nested too deeply.
-/

namespace Calculator

/-- A lexeme of a given token. -/
abbrev Terminal (token : Token) :=
  {lexeme : Lexeme // lexeme.token = token}

inductive Category where
  | expr
  | exprRest
  | term
  | termRest
  | power
  | powerRest
  | unary
  | primary
  | arguments
  | argumentsRest

inductive Derivation : Category → Type where
  | expr (first : Derivation .term) (rest : Derivation .exprRest) : Derivation .expr
  | exprEnd : Derivation .exprRest
  | exprMore (op : Operator) (hop : op = .add ∨ op = .sub) (sign : Terminal (.operator op))
      (next : Derivation .term) (rest : Derivation .exprRest) : Derivation .exprRest
  | term (first : Derivation .power) (rest : Derivation .termRest) : Derivation .term
  | termEnd : Derivation .termRest
  | termMore (op : Operator) (hop : op = .mul ∨ op = .div) (sign : Terminal (.operator op))
      (next : Derivation .power) (rest : Derivation .termRest) : Derivation .termRest
  | power (base : Derivation .unary) (rest : Derivation .powerRest) : Derivation .power
  | powerEnd : Derivation .powerRest
  | powerMore (caret : Terminal (.operator .pow)) (exponent : Derivation .power) :
      Derivation .powerRest
  | positive (operand : Derivation .primary) : Derivation .unary
  | negative (minus : Terminal (.operator .sub)) (operand : Derivation .primary) :
      Derivation .unary
  | number (value : Float) (literal : Terminal (.number value)) : Derivation .primary
  | name (name : String) (word : Terminal (.identifier name)) : Derivation .primary
  | call (name : String) (word : Terminal (.identifier name)) (opening : Terminal .openParen)
      (arguments : Derivation .arguments) (closing : Terminal .closeParen) : Derivation .primary
  | group (opening : Terminal .openParen) (inner : Derivation .expr)
      (closing : Terminal .closeParen) : Derivation .primary
  | arguments (first : Derivation .expr) (rest : Derivation .argumentsRest) :
      Derivation .arguments
  | argumentsEnd : Derivation .argumentsRest
  | argumentsMore (comma : Terminal .comma) (next : Derivation .expr)
      (rest : Derivation .argumentsRest) : Derivation .argumentsRest

/-- What a derivation stands for.  The rest of a chain still lacks the operand before it. -/
abbrev Category.Meaning : Category → Type
  | .expr | .term | .power | .unary | .primary => Expr
  | .exprRest | .termRest | .powerRest => Expr → Expr
  | .arguments | .argumentsRest => List Expr

/-- What a name without a parenthesis after it stands for, if it is known. -/
def Expr.ofName (position : Nat) (name : String) : Expr :=
  if name = Name.answer then
    .answer position
  else
    match NamedConstant.find? name with
    | some found => .constant position name found.value
    | none => .reference position name

/-- A name that may be used as an operand.  It is classified in this order: as the previous answer,
which must be present, as a constant, or as a variable, which must be bound. -/
def Memory.Knows (m : Memory) (name : String) : Prop :=
  if name = Name.answer then
    m.answer.isSome = true
  else
    Name.isConstant name = true ∨ m.bindings.contains name = true

namespace Derivation

/-- The lexemes of a derivation, from the left to the right. -/
@[simp]
def yield : {c : Category} → Derivation c → List Lexeme
  | _, .expr first rest => first.yield ++ rest.yield
  | _, .exprEnd => []
  | _, .exprMore _ _ sign next rest => sign.1 :: (next.yield ++ rest.yield)
  | _, .term first rest => first.yield ++ rest.yield
  | _, .termEnd => []
  | _, .termMore _ _ sign next rest => sign.1 :: (next.yield ++ rest.yield)
  | _, .power base rest => base.yield ++ rest.yield
  | _, .powerEnd => []
  | _, .powerMore caret exponent => caret.1 :: exponent.yield
  | _, .positive operand => operand.yield
  | _, .negative minus operand => minus.1 :: operand.yield
  | _, .number _ literal => [literal.1]
  | _, .name _ word => [word.1]
  | _, .call _ word opening args closing =>
    word.1 :: opening.1 :: (args.yield ++ [closing.1])
  | _, .group opening inner closing => opening.1 :: (inner.yield ++ [closing.1])
  | _, .arguments first rest => first.yield ++ rest.yield
  | _, .argumentsEnd => []
  | _, .argumentsMore comma next rest => comma.1 :: (next.yield ++ rest.yield)

/-- The tree of a derivation.  Sums and products associate to the left, since each operator takes
all that stands before it in its chain as its left operand; powers associate to the right. -/
@[simp]
def tree : {c : Category} → Derivation c → c.Meaning
  | _, .expr first rest => rest.tree first.tree
  | _, .exprEnd => fun left => left
  | _, .exprMore op _ sign next rest =>
    fun left => rest.tree (.binary sign.1.position op left next.tree)
  | _, .term first rest => rest.tree first.tree
  | _, .termEnd => fun left => left
  | _, .termMore op _ sign next rest =>
    fun left => rest.tree (.binary sign.1.position op left next.tree)
  | _, .power base rest => rest.tree base.tree
  | _, .powerEnd => fun base => base
  | _, .powerMore caret exponent => fun base => .binary caret.1.position .pow base exponent.tree
  | _, .positive operand => operand.tree
  | _, .negative minus operand => Expr.negate minus.1.position operand.tree
  | _, .number value literal => Expr.number literal.1.position value
  | _, .name spelling word => Expr.ofName word.1.position spelling
  | _, .call _ word _ args _ => Expr.call word.1.position word.1.text args.tree
  | _, .group _ inner _ => inner.tree
  | _, .arguments first rest => first.tree :: rest.tree
  | _, .argumentsEnd => []
  | _, .argumentsMore _ next rest => next.tree :: rest.tree

/-- All names are known, and every call is of a built-in function with as many arguments as that
takes. -/
@[simp]
def Resolves (m : Memory) : {c : Category} → Derivation c → Prop
  | _, .expr first rest => first.Resolves m ∧ rest.Resolves m
  | _, .exprEnd => True
  | _, .exprMore _ _ _ next rest => next.Resolves m ∧ rest.Resolves m
  | _, .term first rest => first.Resolves m ∧ rest.Resolves m
  | _, .termEnd => True
  | _, .termMore _ _ _ next rest => next.Resolves m ∧ rest.Resolves m
  | _, .power base rest => base.Resolves m ∧ rest.Resolves m
  | _, .powerEnd => True
  | _, .powerMore _ exponent => exponent.Resolves m
  | _, .positive operand => operand.Resolves m
  | _, .negative _ operand => operand.Resolves m
  | _, .number _ _ => True
  | _, .name spelling _ => m.Knows spelling
  | _, .call spelling _ _ args _ =>
    (∃ function, Primitive.find? spelling = some function ∧
      args.tree.length = function.arity) ∧ args.Resolves m
  | _, .group _ inner _ => inner.Resolves m
  | _, .arguments first rest => first.Resolves m ∧ rest.Resolves m
  | _, .argumentsEnd => True
  | _, .argumentsMore _ next rest => next.Resolves m ∧ rest.Resolves m

/-- The lexemes that open a level of nesting, parentheses and `^`, each with the number of groups,
argument lists and exponents around it.  There are `around` of them around the derivation. -/
@[simp]
def nesting (around : Nat) : {c : Category} → Derivation c → List (Lexeme × Nat)
  | _, .expr first rest => first.nesting around ++ rest.nesting around
  | _, .exprEnd => []
  | _, .exprMore _ _ _ next rest => next.nesting around ++ rest.nesting around
  | _, .term first rest => first.nesting around ++ rest.nesting around
  | _, .termEnd => []
  | _, .termMore _ _ _ next rest => next.nesting around ++ rest.nesting around
  | _, .power base rest => base.nesting around ++ rest.nesting around
  | _, .powerEnd => []
  | _, .powerMore caret exponent => (caret.1, around) :: exponent.nesting (around + 1)
  | _, .positive operand => operand.nesting around
  | _, .negative _ operand => operand.nesting around
  | _, .number _ _ => []
  | _, .name _ _ => []
  | _, .call _ _ opening args _ => (opening.1, around) :: args.nesting (around + 1)
  | _, .group opening inner _ => (opening.1, around) :: inner.nesting (around + 1)
  | _, .arguments first rest => first.nesting around ++ rest.nesting around
  | _, .argumentsEnd => []
  | _, .argumentsMore _ next rest => next.nesting around ++ rest.nesting around

/-- The side conditions of a derivation with `around` levels of nesting around it. -/
structure Admissible (m : Memory) (around : Nat) {c : Category} (d : Derivation c) : Prop where
  resolves : d.Resolves m
  shallow : ∀ entry ∈ d.nesting around, entry.2 < maxDepth

section Admissible

variable {m : Memory} {around : Nat}

theorem admissible_iff
    {c : Category} {d : Derivation c} :
    d.Admissible m around ↔ d.Resolves m ∧ ∀ entry ∈ d.nesting around, entry.2 < maxDepth :=
  ⟨fun h => ⟨h.resolves, h.shallow⟩, fun h => ⟨h.1, h.2⟩⟩

/-- A derivation of two parts at one level is admissible if both parts are. -/
theorem admissible_of_parts
    {c c₁ c₂ : Category} {d : Derivation c} {d₁ : Derivation c₁} {d₂ : Derivation c₂}
    (hresolves : d.Resolves m ↔ d₁.Resolves m ∧ d₂.Resolves m)
    (hnesting : d.nesting around = d₁.nesting around ++ d₂.nesting around) :
    d.Admissible m around ↔ d₁.Admissible m around ∧ d₂.Admissible m around := by
  simp only [admissible_iff, hresolves, hnesting, List.forall_mem_append]
  exact and_and_and_comm

/-- What stands inside a level of nesting is admissible one level deeper. -/
theorem admissible_of_inner
    {c c₁ : Category} {d : Derivation c} {inner : Derivation c₁} {opening : Lexeme}
    (hresolves : d.Resolves m ↔ inner.Resolves m)
    (hnesting : d.nesting around = (opening, around) :: inner.nesting (around + 1)) :
    d.Admissible m around ↔ around < maxDepth ∧ inner.Admissible m (around + 1) := by
  simp only [admissible_iff, hresolves, hnesting, List.forall_mem_cons]
  exact and_left_comm

@[simp]
theorem admissible_expr
    {first : Derivation .term} {rest : Derivation .exprRest} :
    (expr first rest).Admissible m around ↔
      first.Admissible m around ∧ rest.Admissible m around :=
  admissible_of_parts Iff.rfl rfl

@[simp]
theorem admissible_exprEnd : exprEnd.Admissible m around := by
  simp [admissible_iff]

@[simp]
theorem admissible_exprMore
    {op : Operator} {hop : op = .add ∨ op = .sub} {sign : Terminal (.operator op)}
    {next : Derivation .term} {rest : Derivation .exprRest} :
    (exprMore op hop sign next rest).Admissible m around ↔
      next.Admissible m around ∧ rest.Admissible m around :=
  admissible_of_parts Iff.rfl rfl

@[simp]
theorem admissible_term
    {first : Derivation .power} {rest : Derivation .termRest} :
    (term first rest).Admissible m around ↔
      first.Admissible m around ∧ rest.Admissible m around :=
  admissible_of_parts Iff.rfl rfl

@[simp]
theorem admissible_termEnd : termEnd.Admissible m around := by
  simp [admissible_iff]

@[simp]
theorem admissible_termMore
    {op : Operator} {hop : op = .mul ∨ op = .div} {sign : Terminal (.operator op)}
    {next : Derivation .power} {rest : Derivation .termRest} :
    (termMore op hop sign next rest).Admissible m around ↔
      next.Admissible m around ∧ rest.Admissible m around :=
  admissible_of_parts Iff.rfl rfl

@[simp]
theorem admissible_power
    {base : Derivation .unary} {rest : Derivation .powerRest} :
    (power base rest).Admissible m around ↔
      base.Admissible m around ∧ rest.Admissible m around :=
  admissible_of_parts Iff.rfl rfl

@[simp]
theorem admissible_powerEnd : powerEnd.Admissible m around := by
  simp [admissible_iff]

@[simp]
theorem admissible_powerMore
    {caret : Terminal (.operator .pow)} {exponent : Derivation .power} :
    (powerMore caret exponent).Admissible m around ↔
      around < maxDepth ∧ exponent.Admissible m (around + 1) :=
  admissible_of_inner Iff.rfl rfl

@[simp]
theorem admissible_positive
    {operand : Derivation .primary} :
    (positive operand).Admissible m around ↔ operand.Admissible m around := by
  simp [admissible_iff]

@[simp]
theorem admissible_negative
    {minus : Terminal (.operator .sub)} {operand : Derivation .primary} :
    (negative minus operand).Admissible m around ↔ operand.Admissible m around := by
  simp [admissible_iff]

@[simp]
theorem admissible_number
    {value : Float} {literal : Terminal (.number value)} :
    (number value literal).Admissible m around := by
  simp [admissible_iff]

@[simp]
theorem admissible_name
    {spelling : String} {word : Terminal (.identifier spelling)} :
    (name spelling word).Admissible m around ↔ m.Knows spelling := by
  simp [admissible_iff]

@[simp]
theorem admissible_call
    {spelling : String} {word : Terminal (.identifier spelling)} {opening : Terminal .openParen}
    {args : Derivation .arguments} {closing : Terminal .closeParen} :
    (call spelling word opening args closing).Admissible m around ↔
      (∃ function, Primitive.find? spelling = some function ∧
        args.tree.length = function.arity) ∧
      around < maxDepth ∧ args.Admissible m (around + 1) := by
  simp only [admissible_iff, Resolves, nesting, List.forall_mem_cons, and_assoc]
  exact and_congr_right fun _ => and_left_comm

@[simp]
theorem admissible_group
    {opening : Terminal .openParen} {inner : Derivation .expr} {closing : Terminal .closeParen} :
    (group opening inner closing).Admissible m around ↔
      around < maxDepth ∧ inner.Admissible m (around + 1) :=
  admissible_of_inner Iff.rfl rfl

@[simp]
theorem admissible_arguments
    {first : Derivation .expr} {rest : Derivation .argumentsRest} :
    (Derivation.arguments first rest).Admissible m around ↔
      first.Admissible m around ∧ rest.Admissible m around :=
  admissible_of_parts Iff.rfl rfl

@[simp]
theorem admissible_argumentsEnd : argumentsEnd.Admissible m around := by
  simp [admissible_iff]

@[simp]
theorem admissible_argumentsMore
    {comma : Terminal .comma} {next : Derivation .expr} {rest : Derivation .argumentsRest} :
    (argumentsMore comma next rest).Admissible m around ↔
      next.Admissible m around ∧ rest.Admissible m around :=
  admissible_of_parts Iff.rfl rfl

end Admissible

/-- Each level of nesting takes a lexeme, so that short derivations are not nested deeply. -/
theorem lt_of_mem_nesting
    {c : Category} (d : Derivation c) {around : Nat} {entry : Lexeme × Nat}
    (h : entry ∈ d.nesting around) : entry.2 < around + d.yield.length := by
  induction d generalizing around with
  | expr first rest ihFirst ihRest | term first rest ihFirst ihRest
  | power first rest ihFirst ihRest | arguments first rest ihFirst ihRest
  | exprMore op hop sign first rest ihFirst ihRest
  | termMore op hop sign first rest ihFirst ihRest
  | argumentsMore sign first rest ihFirst ihRest =>
      simp only [yield, List.length_cons, List.length_append]
      rcases List.mem_append.mp h with hfirst | hrest
      · have := ihFirst hfirst
        omega
      · have := ihRest hrest
        omega
  | exprEnd | termEnd | powerEnd | argumentsEnd | number | name => cases h
  | positive operand ihOperand => exact ihOperand h
  | negative minus operand ihOperand =>
      have := ihOperand h
      simp only [yield, List.length_cons]
      omega
  | powerMore opening inner ihInner | call spelling word opening inner closing ihInner
  | group opening inner closing ihInner =>
      simp only [yield, List.length_cons, List.length_append]
      rcases List.mem_cons.mp h with rfl | hinner
      · omega
      · have := ihInner hinner
        omega

end Derivation

/-- A derivation of a whole line: an expression, or an assignment whose target is one name. -/
inductive LineDerivation where
  | expression (value : Derivation .expr)
  | assignment (letWord : Terminal .letWord) (name : String) (target : Terminal (.identifier name))
      (equals : Terminal .equals) (value : Derivation .expr)

namespace LineDerivation

def yield : LineDerivation → List Lexeme
  | .expression value => value.yield
  | .assignment letWord _ target equals value =>
    letWord.1 :: target.1 :: equals.1 :: value.yield

def tree : LineDerivation → Statement
  | .expression value => .expression value.tree
  | .assignment _ name _ _ value => .assignment name value.tree

/-- The target of an assignment may name a variable, and the expression is admissible. -/
def Admissible (m : Memory) : LineDerivation → Prop
  | .expression value => value.Admissible m 0
  | .assignment _ name _ _ value => Name.check name = .ok () ∧ value.Admissible m 0

end LineDerivation

end Calculator
