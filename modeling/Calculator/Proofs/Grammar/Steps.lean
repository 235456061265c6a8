import Calculator.Expr.Read
import Calculator.Proofs.Grammar.Unambiguous
import Mathlib.Tactic.ByContra

/-!
# Single steps of reading an expression

Between two lexemes an expression is either before an operand or after one.  This module says, for
each lexeme that may come next, which of these states follows, and that no other lexeme may come.
After an operand not all that waits for it matters: what the next lexeme completes anyway may as
well be complete already (`read_after_congr`).
-/

namespace Calculator

namespace Operation

theorem arity_pos (operation : Operation) : 0 < operation.arity := by
  cases operation <;> simp [arity]

end Operation

theorem Primitive.arity_pos (function : Primitive) : 0 < function.arity :=
  function.operation.arity_pos

theorem Operator.ne_pow_of_product {op : Operator} (hop : op = .mul ∨ op = .div) : op ≠ .pow := by
  rcases hop with rfl | rfl <;> decide

theorem Operator.ne_pow_of_sum {op : Operator} (hop : op = .add ∨ op = .sub) : op ≠ .pow := by
  rcases hop with rfl | rfl <;> decide

/-- A name without a parenthesis after it is read exactly if it is known. -/
theorem Memory.resolve?_eq_some_iff
    {m : Memory} {name : String} {position : Nat} {e : Expr} :
    m.resolve? name position = some e ↔ m.Knows name ∧ Expr.ofName position name = e := by
  unfold resolve? Knows Expr.ofName Name.isConstant
  by_cases hanswer : name = Name.answer
  · simp [hanswer]
  · cases hconstant : NamedConstant.find? name with
    | some constant => simp [hanswer]
    | none => simp [hanswer]

namespace Unfinished

variable {m : Memory} {p : Pending} {es : List Enclosure} {value : Expr} {rest : List Lexeme}

/-- An operand must come next. -/
def before (p : Pending) (es : List Enclosure) : Unfinished :=
  ⟨p, es, .operand⟩

/-- An operand, without anything that waits for it, has just been read. -/
def after (p : Pending) (es : List Enclosure) (value : Expr) : Unfinished :=
  ⟨p, es, .value value⟩

/-! ## The number of levels -/

theorem foldr_enclosures (es : List Enclosure) (n : Nat) :
    es.foldr (fun e depth => depth + 1 + e.outside.powers.length) n =
      es.foldr (fun e depth => depth + 1 + e.outside.powers.length) 0 + n := by
  induction es with
  | nil => simp
  | cons e es ih =>
      rw [List.foldr_cons, List.foldr_cons, ih]
      omega

/-- What is inside a parenthesis has one more level around it. -/
theorem depth_enclosed (paren : Lexeme) (opening : Opening) :
    (before .empty (⟨paren, opening, p⟩ :: es)).depth = (before p es).depth + 1 := by
  have hinner := foldr_enclosures es p.powers.length
  simp only [depth, before, Pending.empty, List.foldr_cons, List.length_nil]
  omega

/-- An exponent has one more level around it. -/
theorem depth_push_pow (position : Nat) (left : Expr) :
    (before (p.push .pow position left) es).depth = (before p es).depth + 1 := by
  have hinner := foldr_enclosures es p.powers.length
  have houter := foldr_enclosures es (p.powers.length + 1)
  simp only [depth, before, Pending.push, List.length_cons]
  omega

/-- The right operand of a sum or a product is on the level of the left one. -/
theorem depth_push
    {op : Operator} (hop : op ≠ .pow) (hpowers : p.powers = []) (position : Nat) (left : Expr) :
    (before (p.push op position left) es).depth = (before p es).depth := by
  cases op with
  | pow => contradiction
  | add | sub | mul | div => simp [depth, before, Pending.push, hpowers]

@[simp]
theorem negation_push
    (op : Operator) (position : Nat) : (p.push op position value).negation = p.negation := by
  cases op <;> rfl

/-! ## Operands -/

theorem complete_before
    (hsign : p.negation = none) : (before p es).complete value = after p es value := by
  obtain ⟨sum, product, powers, negation⟩ := p
  subst hsign
  rfl

/-- A minus sign negates the operand after it, and only that. -/
theorem complete_negated
    (hsign : p.negation = none) (position : Nat) :
    (before { p with negation := some position } es).complete value =
      after p es (.negate position value) := by
  obtain ⟨sum, product, powers, negation⟩ := p
  subst hsign
  rfl

theorem read_number
    {v : Float} (literal : Terminal (.number v)) :
    (before p es).read m (literal.1 :: rest) =
      ((before p es).complete (.number literal.1.position v)).read m rest := by
  simp [read, step, before, readOperand, literal.2]

theorem read_name
    {name : String} (word : Terminal (.identifier name)) (hknown : m.Knows name)
    (hcall : isCallAhead rest = false) :
    (before p es).read m (word.1 :: rest) =
      ((before p es).complete (.ofName word.1.position name)).read m rest := by
  have hresolve : m.resolve? name word.1.position = some (.ofName word.1.position name) :=
    Memory.resolve?_eq_some_iff.mpr ⟨hknown, rfl⟩
  simp [read, step, before, readOperand, word.2, hcall, hresolve]

theorem read_call
    {name : String} (word : Terminal (.identifier name)) (opening : Terminal .openParen)
    {function : Primitive} (hfunction : Primitive.find? name = some function)
    (hdepth : (before p es).depth < maxDepth) :
    (before p es).read m (word.1 :: opening.1 :: rest) =
      read m ⟨.empty, ⟨opening.1, .call word.1 function [], p⟩ :: es, .firstArgument⟩ rest := by
  have hcall : isCallAhead (opening.1 :: rest) = true := by simp [isCallAhead, opening.2]
  have hshallow : ¬maxDepth ≤ depth ⟨p, es, .callee word.1 function⟩ := Nat.not_le_of_lt hdepth
  simp [read, step, before, readOperand, word.2, hcall, hfunction, enclose, hshallow]

/-- A group begins like an expression, inside one more parenthesis. -/
theorem read_group
    (opening : Terminal .openParen) (hdepth : (before p es).depth < maxDepth) :
    (before p es).read m (opening.1 :: rest) =
      (before .empty (⟨opening.1, .group, p⟩ :: es)).read m rest := by
  have hshallow : ¬maxDepth ≤ (before p es).depth := Nat.not_le_of_lt hdepth
  simp only [before] at hshallow
  simp [read, step, before, readOperand, opening.2, enclose, hshallow]

/-- A minus sign before an operand waits for that operand alone. -/
theorem read_minus
    (minus : Terminal (.operator .sub)) (hsign : p.negation = none)
    (hrun : operatorsAhead rest = []) :
    (before p es).read m (minus.1 :: rest) =
      (before { p with negation := some minus.1.position } es).read m rest := by
  simp [read, step, before, readOperand, minus.2, runFault?, hrun, hsign]

/-- How an operand without its sign may begin. -/
inductive PrimaryAhead (m : Memory) (p : Pending) (es : List Enclosure) : List Lexeme → Prop where
  | number (v : Float) (literal : Terminal (.number v)) (rest : List Lexeme) :
      PrimaryAhead m p es (literal.1 :: rest)
  | name (name : String) (word : Terminal (.identifier name)) (rest : List Lexeme)
      (hknown : m.Knows name) (hcall : isCallAhead rest = false) :
      PrimaryAhead m p es (word.1 :: rest)
  | call (name : String) (word : Terminal (.identifier name)) (opening : Terminal .openParen)
      (rest : List Lexeme) (function : Primitive)
      (hfunction : Primitive.find? name = some function)
      (hdepth : (before p es).depth < maxDepth) :
      PrimaryAhead m p es (word.1 :: opening.1 :: rest)
  | group (opening : Terminal .openParen) (rest : List Lexeme)
      (hdepth : (before p es).depth < maxDepth) :
      PrimaryAhead m p es (opening.1 :: rest)

theorem enclose_eq_ok_iff
    {u v : Unfinished} {paren : Lexeme} {opening : Opening} {focus : Focus} :
    u.enclose paren opening focus = .ok v ↔
      u.depth < maxDepth ∧ ⟨.empty, ⟨paren, opening, u.pending⟩ :: u.enclosures, focus⟩ = v := by
  unfold enclose
  by_cases hdepth : maxDepth ≤ u.depth
  · simp [hdepth, Nat.not_lt_of_le hdepth]
  · simp [hdepth, Nat.lt_of_not_le hdepth]

theorem exists_step_of_read
    {u : Unfinished} {lexeme : Lexeme} {ahead : List Lexeme} {e : Expr}
    (h : u.read m (lexeme :: ahead) = .ok e) :
    ∃ v, u.step m lexeme ahead = .ok v ∧ v.read m ahead = .ok e := by
  unfold read at h
  cases hstep : u.step m lexeme ahead with
  | error fault => simp [hstep] at h
  | ok v => exact ⟨v, rfl, by simpa [hstep] using h⟩

/-- Where an operand must come next, nothing may come but an operand or its sign. -/
theorem primaryAhead_or_minus_of_read
    {ls : List Lexeme} {e : Expr} (h : (before p es).read m ls = .ok e) :
    PrimaryAhead m p es ls ∨
      ∃ (minus : Terminal (.operator .sub)) (ahead : List Lexeme), ls = minus.1 :: ahead ∧
        p.negation = none ∧ operatorsAhead ahead = [] := by
  cases ls with
  | nil => simp [read, before, finish] at h
  | cons lexeme ahead =>
      obtain ⟨v, hstep, hread⟩ := exists_step_of_read h
      simp only [step, before, readOperand] at hstep
      cases htoken : lexeme.token with
      | number value => exact .inl (.number value ⟨lexeme, htoken⟩ ahead)
      | identifier name =>
          simp only [htoken] at hstep
          cases hcall : isCallAhead ahead with
          | false =>
              cases hresolve : m.resolve? name lexeme.position with
              | none => simp [hcall, hresolve] at hstep
              | some expr =>
                  have hknown := (Memory.resolve?_eq_some_iff.mp hresolve).1
                  exact .inl (.name name ⟨lexeme, htoken⟩ ahead hknown hcall)
          | true =>
              cases hfunction : Primitive.find? name with
              | none => simp [hcall, hfunction] at hstep
              | some function =>
                  simp only [hcall, hfunction, if_true, Except.ok.injEq] at hstep
                  subst hstep
                  cases ahead with
                  | nil => simp [isCallAhead] at hcall
                  | cons opening rest =>
                      have hopening : opening.token = .openParen := by
                        simpa [isCallAhead] using hcall
                      obtain ⟨w, henclose, -⟩ := exists_step_of_read hread
                      have hdepth := (enclose_eq_ok_iff.mp henclose).1
                      exact .inl (.call name ⟨lexeme, htoken⟩ ⟨opening, hopening⟩ rest function
                        hfunction hdepth)
      | openParen =>
          simp only [htoken] at hstep
          exact .inl (.group ⟨lexeme, htoken⟩ ahead (enclose_eq_ok_iff.mp hstep).1)
      | operator op =>
          simp only [htoken] at hstep
          cases hrun : runFault? lexeme ahead with
          | some fault => simp [hrun] at hstep
          | none =>
              have hahead : operatorsAhead ahead = [] := by simpa [runFault?] using hrun
              by_cases hminus : op = .sub ∧ p.negation = none
              · obtain ⟨rfl, hsign⟩ := hminus
                exact .inr ⟨⟨lexeme, htoken⟩, ahead, rfl, hsign, hahead⟩
              · simp [hrun, hminus] at hstep
      | closeParen =>
          simp only [htoken] at hstep
          cases es <;> simp at hstep
      | letWord => simp [htoken] at hstep
      | comma => simp [htoken] at hstep
      | equals => simp [htoken] at hstep
      | endOfInput => simp [htoken] at hstep

/-! ## The first argument -/

/-- Just after the opening parenthesis of a call an argument is read like any operand. -/
theorem read_firstArgument
    {lexeme : Lexeme} (hclose : lexeme.token ≠ .closeParen) :
    read m ⟨p, es, .firstArgument⟩ (lexeme :: rest) = (before p es).read m (lexeme :: rest) := by
  have hstep : step m ⟨p, es, .firstArgument⟩ lexeme rest = (before p es).step m lexeme rest := by
    simp only [step, before]
    split
    · contradiction
    · rfl
  rw [read, read, hstep]

/-- A call without arguments does not fit any built-in function. -/
theorem read_firstArgument_closeParen
    (paren : Lexeme) (name : Lexeme) (function : Primitive) (outside : Pending)
    (closing : Terminal .closeParen) (e : Expr) :
    read m ⟨p, ⟨paren, .call name function [], outside⟩ :: es, .firstArgument⟩
      (closing.1 :: rest) ≠ .ok e := by
  have harity : 0 ≠ function.arity := Nat.ne_of_lt function.arity_pos
  simp [read, step, closing.2, closeCall, harity]

/-! ## After an operand -/

/-- Only a lone minus sign may come between an operator and its right operand. -/
def BeginsOperand (ahead : List Lexeme) : Prop :=
  isNegationAhead ahead = true ∨ operatorsAhead ahead = []

/-- An operator after an operand waits for its right operand. -/
theorem read_operator
    {op : Operator} (sign : Terminal (.operator op)) (hahead : BeginsOperand rest)
    (hdepth : op = .pow → (before p es).depth < maxDepth) :
    (after p es value).read m (sign.1 :: rest) =
      (before (p.push op sign.1.position value) es).read m rest := by
  have hrun : (if isNegationAhead rest then none else runFault? sign.1 rest) = none := by
    rcases hahead with hminus | hnone
    · simp [hminus]
    · simp [runFault?, hnone]
  by_cases hpow : op = .pow
  · have hshallow : ¬maxDepth ≤ depth (after p es value) := Nat.not_le_of_lt (hdepth hpow)
    simp only [after] at hshallow
    simp [read, step, after, before, readOperator, sign.2, hrun, hshallow]
  · simp [read, step, after, before, readOperator, sign.2, hrun, hpow]

/-- Exponents, like parentheses, are not nested too deeply. -/
theorem depth_of_read_pow
    {caret : Terminal (.operator .pow)} {e : Expr}
    (h : (after p es value).read m (caret.1 :: rest) = .ok e) :
    (before p es).depth < maxDepth := by
  obtain ⟨v, hstep, -⟩ := exists_step_of_read h
  by_contra hdepth
  have hdeep : maxDepth ≤ depth (after p es value) := Nat.le_of_not_lt hdepth
  simp only [step, after, readOperator, caret.2] at hstep hdeep
  split at hstep
  · simp at hstep
  · simp [hdeep] at hstep

/-- The operators after an operator that is read leave room for one minus sign only. -/
theorem beginsOperand_of_read
    {op : Operator} {sign : Terminal (.operator op)} {e : Expr}
    (h : (after p es value).read m (sign.1 :: rest) = .ok e) : BeginsOperand rest := by
  obtain ⟨v, hstep, -⟩ := exists_step_of_read h
  simp only [step, after, readOperator, sign.2] at hstep
  by_cases hminus : isNegationAhead rest = true
  · exact .inl hminus
  · refine .inr ?_
    by_contra hnone
    have hlast : (operatorsAhead rest).getLast?.isSome := by simpa using hnone
    obtain ⟨last, hlast⟩ := Option.isSome_iff_exists.mp hlast
    simp [hminus, runFault?, hlast] at hstep

theorem read_closeParen_group
    (paren : Lexeme) (outside : Pending) (closing : Terminal .closeParen) :
    (after p (⟨paren, .group, outside⟩ :: es) value).read m (closing.1 :: rest) =
      ((before outside es).complete (p.completeSum value)).read m rest := by
  simp [read, step, after, before, readOperator, closing.2]

theorem read_closeParen_call
    (paren : Lexeme) (name : Lexeme) (function : Primitive) (args : List Expr) (outside : Pending)
    (closing : Terminal .closeParen)
    (harity : (args ++ [p.completeSum value]).length = function.arity) :
    (after p (⟨paren, .call name function args, outside⟩ :: es) value).read m
        (closing.1 :: rest) =
      ((before outside es).complete
        (.call name.position name.text (args ++ [p.completeSum value]))).read m rest := by
  simp only [List.length_append, List.length_singleton] at harity
  simp [read, step, after, before, readOperator, closing.2, closeCall, harity]

theorem arity_of_read_closeParen
    {paren name : Lexeme} {function : Primitive} {args : List Expr} {outside : Pending}
    {closing : Terminal .closeParen} {e : Expr}
    (h : (after p (⟨paren, .call name function args, outside⟩ :: es) value).read m
      (closing.1 :: rest) = .ok e) :
    args.length + 1 = function.arity := by
  obtain ⟨v, hstep, -⟩ := exists_step_of_read h
  by_contra harity
  simp [step, after, readOperator, closing.2, closeCall, harity] at hstep

theorem read_comma
    (paren : Lexeme) (name : Lexeme) (function : Primitive) (args : List Expr) (outside : Pending)
    (comma : Terminal .comma) :
    (after p (⟨paren, .call name function args, outside⟩ :: es) value).read m
        (comma.1 :: rest) =
      (before .empty (⟨paren, .call name function (args ++ [p.completeSum value]), outside⟩ ::
        es)).read m rest := by
  simp [read, step, after, before, readOperator, comma.2]

/-- What may come after an operand: the end of the line, an operator, or what the innermost
enclosure allows. -/
inductive OperatorAhead : List Enclosure → List Lexeme → Prop where
  | finished : OperatorAhead [] []
  | operator (es : List Enclosure) (op : Operator) (sign : Terminal (.operator op))
      (rest : List Lexeme) : OperatorAhead es (sign.1 :: rest)
  | closeParen (e : Enclosure) (es : List Enclosure) (closing : Terminal .closeParen)
      (rest : List Lexeme) : OperatorAhead (e :: es) (closing.1 :: rest)
  | comma (paren name : Lexeme) (function : Primitive) (args : List Expr) (outside : Pending)
      (es : List Enclosure) (comma : Terminal .comma) (rest : List Lexeme) :
      OperatorAhead (⟨paren, .call name function args, outside⟩ :: es) (comma.1 :: rest)

/-- Nothing else may come after an operand. -/
theorem operatorAhead_of_read
    {ls : List Lexeme} {e : Expr} (h : (after p es value).read m ls = .ok e) :
    OperatorAhead es ls := by
  cases ls with
  | nil =>
      cases es with
      | nil => exact .finished
      | cons enclosure es => simp [read, after, finish] at h
  | cons lexeme ahead =>
      obtain ⟨v, hstep, -⟩ := exists_step_of_read h
      simp only [step, after, readOperator] at hstep
      cases htoken : lexeme.token with
      | operator op => exact .operator es op ⟨lexeme, htoken⟩ ahead
      | closeParen =>
          cases es with
          | nil => simp [htoken] at hstep
          | cons enclosure es => exact .closeParen enclosure es ⟨lexeme, htoken⟩ ahead
      | comma =>
          rcases es with _ | ⟨⟨paren, _ | ⟨name, function, args⟩, outside⟩, es⟩
          · simp [htoken] at hstep
          · simp [htoken] at hstep
          · exact .comma paren name function args outside es ⟨lexeme, htoken⟩ ahead
      | number v => simp [htoken] at hstep
      | letWord => simp [htoken] at hstep
      | identifier name => simp [htoken] at hstep
      | openParen => simp [htoken] at hstep
      | equals => simp [htoken] at hstep
      | endOfInput => simp [htoken] at hstep

theorem operator_or_stopsBefore_of_operatorAhead
    {ls : List Lexeme} (h : OperatorAhead es ls) :
    (∃ (op : Operator) (sign : Terminal (.operator op)) (ahead : List Lexeme),
      ls = sign.1 :: ahead) ∨ Category.expr.StopsBefore ls := by
  cases h with
  | finished => exact .inr (by simp [Category.StopsBefore])
  | operator outer op sign ahead => exact .inl ⟨op, sign, ahead, rfl⟩
  | closeParen enclosure outer closing ahead =>
      exact .inr (Category.stopsBefore_closing _ closing ahead)
  | comma paren name function args outside outer comma ahead =>
      exact .inr ((Category.stopsBefore_cons_iff comma).mpr (by decide))

/-- No parenthesis opens right after an operand. -/
theorem stopsBefore_of_complete
    {operand e : Expr} {ls : List Lexeme}
    (h : ((before p es).complete operand).read m ls = .ok e) : Category.primary.StopsBefore ls := by
  rcases operator_or_stopsBefore_of_operatorAhead (operatorAhead_of_read h) with
    ⟨op, sign, ahead, rfl⟩ | hstop
  · cases op <;> exact (Category.stopsBefore_cons_iff sign).mpr (by decide)
  · exact hstop.mono (by decide)

/-! ## What the next lexeme completes anyway -/

/-- Of what waits for an operand, only the expression of the whole group matters at the end of the
group, and only the effect of an operator before that operator. -/
theorem read_after_congr
    {q : Pending} {left : Expr} (hsum : p.completeSum value = q.completeSum left)
    (hpush : ∀ lexeme ∈ rest.head?, ∀ op, lexeme.token = .operator op → op ≠ .pow ∧
      ∀ position, p.push op position value = q.push op position left) :
    (after p es value).read m rest = (after q es left).read m rest := by
  cases rest with
  | nil => cases es <;> simp [read, after, finish, hsum, endFault]
  | cons lexeme ahead =>
      have hstep : (after p es value).step m lexeme ahead =
          (after q es left).step m lexeme ahead := by
        simp only [step, after, readOperator]
        cases htoken : lexeme.token with
        | operator op =>
            obtain ⟨hpow, hpush⟩ := hpush lexeme rfl op htoken
            simp only [hpow, decide_false, Bool.false_and, hpush]
        | _ => simp only [hsum]
      rw [read, read, hstep]

/-- Before anything but another exponent, a power may be completed at once. -/
theorem read_after_push_pow
    (position : Nat) (left : Expr) (hrest : Category.power.StopsBefore rest) :
    (after (p.push .pow position left) es value).read m rest =
      (after p es (.binary position .pow left value)).read m rest := by
  apply read_after_congr
  · rfl
  · intro lexeme hlexeme op htoken
    have hloose := hrest lexeme hlexeme
    rw [htoken] at hloose
    cases op with
    | pow => exact absurd (hloose 1 rfl) (by decide)
    | add | sub | mul | div => exact ⟨by decide, fun _ => rfl⟩

/-- So may a product, if it is the only one that waits and no power does. -/
theorem read_after_push_product
    {op : Operator} (hop : op = .mul ∨ op = .div) (position : Nat) (left : Expr)
    (hproduct : p.product = none) (hpowers : p.powers = [])
    (hrest : Category.power.StopsBefore rest) :
    (after (p.push op position left) es value).read m rest =
      (after p es (.binary position op left value)).read m rest := by
  obtain ⟨sum, product, powers, negation⟩ := p
  subst hproduct hpowers
  apply read_after_congr
  · rcases hop with rfl | rfl <;> rfl
  · intro lexeme hlexeme next htoken
    have hloose := hrest lexeme hlexeme
    rw [htoken] at hloose
    cases next with
    | pow => exact absurd (hloose 1 rfl) (by decide)
    | add | sub | mul | div =>
        refine ⟨by decide, fun _ => ?_⟩
        rcases hop with rfl | rfl <;> rfl

/-- A sum may be completed at once before anything but an operator that binds more tightly. -/
theorem read_after_push_sum
    {op : Operator} (hop : op = .add ∨ op = .sub) (position : Nat) (left : Expr)
    (hrest : Category.term.StopsBefore rest) :
    (after (Pending.empty.push op position left) es value).read m rest =
      (after .empty es (.binary position op left value)).read m rest := by
  apply read_after_congr
  · rcases hop with rfl | rfl <;> rfl
  · intro lexeme hlexeme next htoken
    have hloose := hrest lexeme hlexeme
    rw [htoken] at hloose
    cases next with
    | pow => exact absurd (hloose 1 rfl) (by decide)
    | mul | div => exact absurd (hloose 2 rfl) (by decide)
    | add | sub =>
        refine ⟨by decide, fun _ => ?_⟩
        rcases hop with rfl | rfl <;> rfl

end Unfinished

end Calculator
