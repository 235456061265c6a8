import Calculator.Expr.Read

/-!
# Reading does not look at positions

Where lexemes stand makes no difference to how they are read.  If they are moved, what is read is
the same expression with its nodes moved along, or the same fault at the moved lexemes
(`Expr.read_relocate`).  An unfinished expression moves with the lexemes that it was read from, and
one step of reading commutes with the move.
-/

namespace Calculator

/-! ## Moving whatever has a position -/

def Lexeme.relocate (f : Nat → Nat) (l : Lexeme) : Lexeme :=
  { l with position := f l.position }

namespace Expr

mutual

/-- The tree with the positions of its nodes changed. -/
@[simp]
def relocate (f : Nat → Nat) : Expr → Expr
  | .number position value => .number (f position) value
  | .constant position name value => .constant (f position) name value
  | .reference position name => .reference (f position) name
  | .answer position => .answer (f position)
  | .negate position operand => .negate (f position) (operand.relocate f)
  | .binary position op left right =>
    .binary (f position) op (left.relocate f) (right.relocate f)
  | .call position name arguments => .call (f position) name (relocateAll f arguments)

@[simp]
def relocateAll (f : Nat → Nat) : List Expr → List Expr
  | [] => []
  | first :: rest => first.relocate f :: relocateAll f rest

end

@[simp]
theorem relocateAll_eq_map (f : Nat → Nat) (es : List Expr) :
    relocateAll f es = es.map (relocate f) := by
  induction es with
  | nil => rfl
  | cons first rest ih => rw [relocateAll, ih, List.map_cons]

end Expr

@[simp]
def SyntaxFault.relocate (f : Nat → Nat) : SyntaxFault → SyntaxFault
  | .endOfInput => .endOfInput
  | .unclosed paren => .unclosed (paren.relocate f)
  | .unopened paren => .unopened (paren.relocate f)
  | .operatorRun first last => .operatorRun (first.relocate f) (last.relocate f)
  | .unexpected lexeme => .unexpected (lexeme.relocate f)
  | .tooDeep lexeme => .tooDeep (lexeme.relocate f)
  | .unknownFunction name => .unknownFunction (name.relocate f)
  | .wrongCount name function count => .wrongCount (name.relocate f) function count
  | .unknownName name => .unknownName (name.relocate f)
  | .letWithoutValue letWord => .letWithoutValue (letWord.relocate f)
  | .badName name fault => .badName name fault

/-- Moves what is read, or the fault that is found instead. -/
@[simp]
def SyntaxFault.relocateResult {α : Type} (f : Nat → Nat) (move : α → α) :
    Except SyntaxFault α → Except SyntaxFault α
  | .ok a => .ok (move a)
  | .error fault => .error (fault.relocate f)

def Half.relocate (f : Nat → Nat) (half : Half) : Half :=
  ⟨f half.position, half.op, half.left.relocate f⟩

def Pending.relocate (f : Nat → Nat) (p : Pending) : Pending :=
  ⟨p.sum.map (·.relocate f), p.product.map (·.relocate f), p.powers.map (·.relocate f),
    p.negation.map f⟩

@[simp]
def Opening.relocate (f : Nat → Nat) : Opening → Opening
  | .group => .group
  | .call name function arguments =>
    .call (name.relocate f) function (arguments.map (·.relocate f))

def Enclosure.relocate (f : Nat → Nat) (e : Enclosure) : Enclosure :=
  ⟨e.paren.relocate f, e.opening.relocate f, e.outside.relocate f⟩

@[simp]
def Focus.relocate (f : Nat → Nat) : Focus → Focus
  | .operand => .operand
  | .firstArgument => .firstArgument
  | .callee name function => .callee (name.relocate f) function
  | .value expr => .value (expr.relocate f)

def Unfinished.relocate (f : Nat → Nat) (u : Unfinished) : Unfinished :=
  ⟨u.pending.relocate f, u.enclosures.map (·.relocate f), u.focus.relocate f⟩

variable {m : Memory} {f : Nat → Nat}

/-! ## Looking ahead -/

@[simp]
theorem Lexeme.token_relocate (l : Lexeme) : (l.relocate f).token = l.token := rfl

@[simp]
theorem Lexeme.text_relocate (l : Lexeme) : (l.relocate f).text = l.text := rfl

@[simp]
theorem Lexeme.position_relocate (l : Lexeme) : (l.relocate f).position = f l.position := rfl

@[simp]
theorem operatorsAhead_relocate (ahead : List Lexeme) :
    operatorsAhead (ahead.map (·.relocate f)) = (operatorsAhead ahead).map (·.relocate f) := by
  rw [operatorsAhead, operatorsAhead, List.takeWhile_map]
  rfl

@[simp]
theorem runFault?_relocate (operator : Lexeme) (ahead : List Lexeme) :
    runFault? (operator.relocate f) (ahead.map (·.relocate f)) =
      (runFault? operator ahead).map (·.relocate f) := by
  rw [runFault?, runFault?, operatorsAhead_relocate, List.getLast?_map, Option.map_map,
    Option.map_map]
  rfl

@[simp]
theorem isNegationAhead_relocate (ahead : List Lexeme) :
    isNegationAhead (ahead.map (·.relocate f)) = isNegationAhead ahead := by
  rw [isNegationAhead, isNegationAhead, operatorsAhead_relocate, List.map_map]
  rfl

@[simp]
theorem isCallAhead_relocate (ahead : List Lexeme) :
    isCallAhead (ahead.map (·.relocate f)) = isCallAhead ahead := by
  cases ahead <;> rfl

@[simp]
theorem Memory.resolve?_relocate (m : Memory) (name : String) (position : Nat) :
    m.resolve? name (f position) = (m.resolve? name position).map (·.relocate f) := by
  unfold resolve?
  by_cases hanswer : name = Name.answer
  · rw [if_pos hanswer, if_pos hanswer]
    split <;> rfl
  · rw [if_neg hanswer, if_neg hanswer]
    split
    · rfl
    · split <;> rfl

/-! ## Completing what waits -/

@[simp]
theorem Half.complete_relocate (half : Half) (right : Expr) :
    (half.relocate f).complete (right.relocate f) = (half.complete right).relocate f := rfl

namespace Pending

@[simp]
theorem relocate_empty : empty.relocate f = empty := rfl

@[simp]
theorem length_powers_relocate (p : Pending) :
    (p.relocate f).powers.length = p.powers.length :=
  List.length_map _

theorem completeHalf_relocate (half : Option Half) (right : Expr) :
    completeHalf (half.map (·.relocate f)) (right.relocate f) =
      (completeHalf half right).relocate f := by
  cases half <;> rfl

theorem completePowers_relocate (p : Pending) (right : Expr) :
    (p.relocate f).completePowers (right.relocate f) = (p.completePowers right).relocate f := by
  unfold completePowers relocate
  induction p.powers generalizing right with
  | nil => rfl
  | cons half powers ih => exact ih (half.complete right)

theorem completeProduct_relocate (p : Pending) (right : Expr) :
    (p.relocate f).completeProduct (right.relocate f) = (p.completeProduct right).relocate f := by
  unfold completeProduct
  rw [completePowers_relocate]
  exact completeHalf_relocate _ _

@[simp]
theorem completeSum_relocate (p : Pending) (right : Expr) :
    (p.relocate f).completeSum (right.relocate f) = (p.completeSum right).relocate f := by
  unfold completeSum
  rw [completeProduct_relocate]
  exact completeHalf_relocate _ _

@[simp]
theorem push_relocate (p : Pending) (op : Operator) (position : Nat) (left : Expr) :
    (p.relocate f).push op (f position) (left.relocate f) =
      (p.push op position left).relocate f := by
  have hproduct := completeProduct_relocate (f := f) p left
  have hsum := completeSum_relocate (f := f) p left
  cases op with
  | pow => rfl
  | mul | div =>
      unfold push
      rw [hproduct]
      rfl
  | add | sub =>
      unfold push
      rw [hsum]
      rfl

end Pending

namespace Unfinished

@[simp]
theorem depth_relocate (u : Unfinished) : (u.relocate f).depth = u.depth := by
  have hpowers : ∀ p : Pending, (p.relocate f).powers.length = p.powers.length :=
    Pending.length_powers_relocate
  simp only [depth, relocate, List.foldr_map, Enclosure.relocate, hpowers]

@[simp]
theorem endFault_relocate (u : Unfinished) : (u.relocate f).endFault = u.endFault.relocate f := by
  obtain ⟨pending, enclosures, focus⟩ := u
  cases enclosures <;> rfl

@[simp]
theorem complete_relocate (u : Unfinished) (operand : Expr) :
    (u.relocate f).complete (operand.relocate f) = (u.complete operand).relocate f := by
  obtain ⟨⟨sum, product, powers, negation⟩, enclosures, focus⟩ := u
  cases negation <;> rfl

@[simp]
theorem enclose_relocate (u : Unfinished) (paren : Lexeme) (opening : Opening) (focus : Focus) :
    (u.relocate f).enclose (paren.relocate f) (opening.relocate f) (focus.relocate f) =
      SyntaxFault.relocateResult f (relocate f) (u.enclose paren opening focus) := by
  unfold enclose
  rw [depth_relocate]
  split <;> rfl

@[simp]
theorem closeCall_relocate
    (outside : Pending) (outer : List Enclosure) (name : Lexeme) (function : Primitive)
    (arguments : List Expr) :
    closeCall (outside.relocate f) (outer.map (·.relocate f)) (name.relocate f) function
        (arguments.map (·.relocate f)) =
      SyntaxFault.relocateResult f (relocate f)
        (closeCall outside outer name function arguments) := by
  unfold closeCall
  rw [List.length_map]
  split
  · have hcall : (Expr.call name.position name.text arguments).relocate f =
        .call (f name.position) name.text (arguments.map (·.relocate f)) := by
      simp
    simp only [SyntaxFault.relocateResult, ← complete_relocate, hcall]
    rfl
  · rfl

theorem finish_relocate (u : Unfinished) :
    (u.relocate f).finish = SyntaxFault.relocateResult f (Expr.relocate f) u.finish := by
  have hend := endFault_relocate (f := f) u
  obtain ⟨pending, enclosures, focus⟩ := u
  cases focus with
  | value expr =>
      cases enclosures with
      | nil => exact congrArg Except.ok (pending.completeSum_relocate expr)
      | cons enclosure outer => exact congrArg Except.error hend
  | operand | firstArgument | callee => exact congrArg Except.error hend

/-! ## Steps -/

theorem readOperand_relocate (u : Unfinished) (l : Lexeme) (ahead : List Lexeme) :
    (u.relocate f).readOperand m (l.relocate f) (ahead.map (·.relocate f)) =
      SyntaxFault.relocateResult f (relocate f) (u.readOperand m l ahead) := by
  unfold readOperand
  cases htoken : l.token with
  | number value =>
      simp only [Lexeme.token_relocate, htoken]
      exact congrArg Except.ok (complete_relocate u (.number l.position value))
  | identifier name =>
      simp only [Lexeme.token_relocate, htoken, isCallAhead_relocate, Lexeme.position_relocate,
        Memory.resolve?_relocate]
      split
      · cases Primitive.find? name <;> rfl
      · cases m.resolve? name l.position with
        | none => rfl
        | some expr => exact congrArg Except.ok (complete_relocate u expr)
  | openParen =>
      simp only [Lexeme.token_relocate, htoken]
      exact enclose_relocate u l .group .operand
  | closeParen =>
      obtain ⟨pending, enclosures, focus⟩ := u
      cases enclosures <;> simp [htoken, relocate]
  | operator op =>
      simp only [Lexeme.token_relocate, htoken, runFault?_relocate]
      cases runFault? l ahead with
      | some fault => rfl
      | none =>
          simp only [Option.map_none]
          have hnegation : (u.relocate f).pending.negation.isNone = u.pending.negation.isNone :=
            Option.isNone_map
          rw [hnegation]
          split <;> rfl
  | letWord | comma | equals | endOfInput => simp [htoken]

theorem readOperator_relocate (u : Unfinished) (value : Expr) (l : Lexeme) (ahead : List Lexeme) :
    (u.relocate f).readOperator (value.relocate f) (l.relocate f) (ahead.map (·.relocate f)) =
      SyntaxFault.relocateResult f (relocate f) (u.readOperator value l ahead) := by
  unfold readOperator
  cases htoken : l.token with
  | operator op =>
      have hrun : (if isNegationAhead ahead then none
            else runFault? (l.relocate f) (ahead.map (·.relocate f))) =
          (if isNegationAhead ahead then none else runFault? l ahead).map (·.relocate f) := by
        split
        · rfl
        · exact runFault?_relocate l ahead
      simp only [Lexeme.token_relocate, htoken, isNegationAhead_relocate, hrun, depth_relocate]
      cases (if isNegationAhead ahead then none else runFault? l ahead) with
      | some fault => rfl
      | none =>
          simp only [Option.map_none]
          split
          · rfl
          · have hpush := u.pending.push_relocate (f := f) op l.position value
            simp only [relocate, Lexeme.position_relocate, hpush, SyntaxFault.relocateResult,
              Focus.relocate]
  | closeParen =>
      obtain ⟨pending, enclosures, focus⟩ := u
      have hsum := pending.completeSum_relocate (f := f) value
      cases enclosures with
      | nil => simp [htoken, relocate]
      | cons enclosure outer =>
          obtain ⟨paren, opening, outside⟩ := enclosure
          cases opening with
          | group =>
              simp only [Lexeme.token_relocate, htoken, relocate, List.map_cons,
                Enclosure.relocate, Opening.relocate, hsum, SyntaxFault.relocateResult]
              exact congrArg Except.ok
                (complete_relocate ⟨outside, outer, .operand⟩ (pending.completeSum value))
          | call name function arguments =>
              simp only [Lexeme.token_relocate, htoken, relocate, List.map_cons,
                Enclosure.relocate, Opening.relocate, hsum]
              rw [← closeCall_relocate, List.map_append]
              rfl
  | comma =>
      obtain ⟨pending, enclosures, focus⟩ := u
      have hsum := pending.completeSum_relocate (f := f) value
      cases enclosures with
      | nil => simp [htoken, relocate]
      | cons enclosure outer =>
          obtain ⟨paren, opening, outside⟩ := enclosure
          cases opening with
          | group => simp [htoken, relocate, Enclosure.relocate]
          | call name function arguments =>
              simp only [Lexeme.token_relocate, htoken, relocate, List.map_cons,
                Enclosure.relocate, Opening.relocate, hsum, SyntaxFault.relocateResult,
                List.map_append, List.map_nil, Pending.relocate_empty, Focus.relocate]
  | number | letWord | identifier | openParen | equals | endOfInput => simp [htoken]

theorem step_relocate (u : Unfinished) (l : Lexeme) (ahead : List Lexeme) :
    (u.relocate f).step m (l.relocate f) (ahead.map (·.relocate f)) =
      SyntaxFault.relocateResult f (relocate f) (u.step m l ahead) := by
  have hoperand := readOperand_relocate (m := m) (f := f) u l ahead
  obtain ⟨pending, enclosures, focus⟩ := u
  cases focus with
  | operand => exact hoperand
  | callee name function =>
      exact enclose_relocate ⟨pending, enclosures, .callee name function⟩ l
        (.call name function []) .firstArgument
  | value expr => exact readOperator_relocate ⟨pending, enclosures, .value expr⟩ expr l ahead
  | firstArgument =>
      by_cases hclose : l.token = .closeParen
      · cases enclosures with
        | nil => simpa [step, relocate, hclose] using hoperand
        | cons enclosure outer =>
            obtain ⟨paren, opening, outside⟩ := enclosure
            cases opening with
            | group => simpa [step, relocate, hclose, Enclosure.relocate] using hoperand
            | call name function arguments =>
                simpa [step, relocate, hclose, Enclosure.relocate] using
                  closeCall_relocate outside outer name function arguments
      · simpa [step, relocate, hclose] using hoperand

theorem read_relocate (u : Unfinished) (ls : List Lexeme) :
    (u.relocate f).read m (ls.map (·.relocate f)) =
      SyntaxFault.relocateResult f (Expr.relocate f) (u.read m ls) := by
  induction ls generalizing u with
  | nil => exact finish_relocate u
  | cons l ahead ih =>
      rw [List.map_cons, read, read, step_relocate]
      cases u.step m l ahead with
      | ok next => exact ih next
      | error fault => rfl

end Unfinished

/-- Lexemes that are moved are read as the same expression, moved along, or with the same fault. -/
theorem Expr.read_relocate (m : Memory) (f : Nat → Nat) (ls : List Lexeme) :
    Expr.read m (ls.map (·.relocate f)) =
      SyntaxFault.relocateResult f (relocate f) (Expr.read m ls) :=
  Unfinished.read_relocate .start ls

end Calculator
