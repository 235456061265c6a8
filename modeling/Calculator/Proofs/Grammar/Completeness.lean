import Calculator.Proofs.Grammar.Steps

/-!
# Every admissible derivation is read

Reading the lexemes of a derivation leads from before an operand to after the operand that the
derivation stands for, with the same operators waiting and the same parentheses open (`Readable`).
This goes by induction on the derivation, before any further lexemes that stop it.
-/

namespace Calculator

open Unfinished

/-- What waits where a part of an expression begins: within a chain, nothing that binds as tightly
as its operators. -/
def Category.Admits : Category → Pending → Prop
  | .primary, _ => True
  | .unary, p | .power, p | .powerRest, p => p.negation = none
  | .term, p | .termRest, p => p.negation = none ∧ p.product = none ∧ p.powers = []
  | .expr, p | .exprRest, p | .arguments, p | .argumentsRest, p => p = .empty

namespace Derivation

variable {m : Memory}

/-! ## How a derivation begins -/

theorem exists_unary_of_power
    (d : Derivation .power) :
    ∃ (u : Derivation .unary) (ls : List Lexeme), d.yield = u.yield ++ ls := by
  cases d with
  | power base rest => exact ⟨base, rest.yield, rfl⟩

theorem exists_unary_of_term
    (d : Derivation .term) :
    ∃ (u : Derivation .unary) (ls : List Lexeme), d.yield = u.yield ++ ls := by
  cases d with
  | term first rest =>
      obtain ⟨u, ls, hfirst⟩ := first.exists_unary_of_power
      exact ⟨u, ls ++ rest.yield, by rw [yield, hfirst, List.append_assoc]⟩

theorem exists_unary_of_expr
    (d : Derivation .expr) :
    ∃ (u : Derivation .unary) (ls : List Lexeme), d.yield = u.yield ++ ls := by
  cases d with
  | expr first rest =>
      obtain ⟨u, ls, hfirst⟩ := first.exists_unary_of_term
      exact ⟨u, ls ++ rest.yield, by rw [yield, hfirst, List.append_assoc]⟩

theorem operatorsAhead_primary
    (d : Derivation .primary) (rest : List Lexeme) : operatorsAhead (d.yield ++ rest) = [] := by
  obtain ⟨l, ls, hyield, hl⟩ := d.exists_yield_eq_cons
  simp [operatorsAhead, hyield, Lexeme.isOperator, hl]

theorem beginsOperand_unary
    (d : Derivation .unary) (rest : List Lexeme) : BeginsOperand (d.yield ++ rest) := by
  cases d with
  | positive operand => exact .inr (operand.operatorsAhead_primary rest)
  | negative minus operand =>
      have hminus : minus.1.isOperator = true := by rw [Lexeme.isOperator, minus.2]; rfl
      have hahead := operand.operatorsAhead_primary rest
      refine .inl ?_
      simp only [operatorsAhead] at hahead
      simp [isNegationAhead, operatorsAhead, hminus, hahead, minus.2]

theorem beginsOperand_power
    (d : Derivation .power) (rest : List Lexeme) : BeginsOperand (d.yield ++ rest) := by
  obtain ⟨u, ls, hyield⟩ := d.exists_unary_of_power
  rw [hyield, List.append_assoc]
  exact u.beginsOperand_unary _

theorem beginsOperand_term
    (d : Derivation .term) (rest : List Lexeme) : BeginsOperand (d.yield ++ rest) := by
  obtain ⟨u, ls, hyield⟩ := d.exists_unary_of_term
  rw [hyield, List.append_assoc]
  exact u.beginsOperand_unary _

/-- An operand begins neither with a closing parenthesis nor with the word `let`. -/
theorem exists_cons_of_unary
    (d : Derivation .unary) :
    ∃ l ls, d.yield = l :: ls ∧ l.token ≠ .closeParen ∧ l.token ≠ .letWord := by
  cases d with
  | negative minus operand => exact ⟨minus.1, operand.yield, rfl, by simp [minus.2]⟩
  | positive operand =>
      cases operand with
      | number value literal => exact ⟨literal.1, [], rfl, by simp [literal.2]⟩
      | name spelling word => exact ⟨word.1, [], rfl, by simp [word.2]⟩
      | call spelling word opening args closing => exact ⟨word.1, _, rfl, by simp [word.2]⟩
      | group opening inner closing => exact ⟨opening.1, _, rfl, by simp [opening.2]⟩

theorem exists_cons_of_expr
    (d : Derivation .expr) :
    ∃ l ls, d.yield = l :: ls ∧ l.token ≠ .closeParen ∧ l.token ≠ .letWord := by
  obtain ⟨u, others, hunary⟩ := d.exists_unary_of_expr
  obtain ⟨l, ls, hcons, hbegin⟩ := u.exists_cons_of_unary
  exact ⟨l, ls ++ others, by rw [hunary, hcons, List.cons_append], hbegin⟩

/-- An expression is read as an argument like any other operand. -/
theorem read_firstArgument
    (d : Derivation .expr) (p : Pending) (es : List Enclosure) (rest : List Lexeme) :
    read m ⟨p, es, .firstArgument⟩ (d.yield ++ rest) = (before p es).read m (d.yield ++ rest) := by
  obtain ⟨l, ls, hcons, hclose, -⟩ := d.exists_cons_of_expr
  rw [hcons]
  exact Unfinished.read_firstArgument hclose

/-! ## Reading the lexemes of a derivation -/

/-- Reading the lexemes of a derivation leads from one state to another, before any further lexemes
that stop it. -/
def Leads (m : Memory) {c : Category} (d : Derivation c)
    (u v : Pending → List Enclosure → Unfinished) : Prop :=
  ∀ p es rest, c.Admits p → c.StopsBefore rest → d.Admissible m (before p es).depth →
    (u p es).read m (d.yield ++ rest) = (v p es).read m rest

/-- Reading the lexemes of a derivation has the effect of reading a single operand that stands for
its tree.  The arguments of a call are followed by its closing parenthesis. -/
def Readable (m : Memory) : (c : Category) → Derivation c → Prop
  | .primary, d => d.Leads m before (fun p es => (before p es).complete d.tree)
  | .unary, d => d.Leads m before (fun p es => after p es d.tree)
  | .power, d => d.Leads m before (fun p es => after p es d.tree)
  | .term, d => d.Leads m before (fun p es => after p es d.tree)
  | .expr, d => d.Leads m before (fun p es => after p es d.tree)
  | .powerRest, d => ∀ left, d.Leads m (after · · left) (after · · (d.tree left))
  | .termRest, d => ∀ left, d.Leads m (after · · left) (after · · (d.tree left))
  | .exprRest, d => ∀ left, d.Leads m (after · · left) (after · · (d.tree left))
  | .arguments, d => ∀ paren name function outside es (closing : Terminal .closeParen) rest,
      d.Admissible m ((before outside es).depth + 1) → d.tree.length = function.arity →
      read m ⟨.empty, ⟨paren, .call name function [], outside⟩ :: es, .firstArgument⟩
          (d.yield ++ closing.1 :: rest) =
        ((before outside es).complete (.call name.position name.text d.tree)).read m rest
  | .argumentsRest, d => ∀ paren name function args outside es last
      (closing : Terminal .closeParen) rest,
      d.Admissible m ((before outside es).depth + 1) →
      (args ++ last :: d.tree).length = function.arity →
      (after .empty (⟨paren, .call name function args, outside⟩ :: es) last).read m
          (d.yield ++ closing.1 :: rest) =
        ((before outside es).complete
          (.call name.position name.text (args ++ last :: d.tree))).read m rest

theorem readable_number
    (value : Float) (literal : Terminal (.number value)) :
    Readable m .primary (number value literal) := by
  intro p es rest _ _ _
  exact read_number literal

theorem readable_name
    (spelling : String) (word : Terminal (.identifier spelling)) :
    Readable m .primary (name spelling word) := by
  intro p es rest _ hstop hadm
  refine read_name word (admissible_name.mp hadm) ?_
  -- A parenthesis after a name would make it a call.
  cases rest with
  | nil => rfl
  | cons l ls =>
      have hparen : l.token ≠ .openParen := by
        intro hl
        exact Category.not_stopsBefore rfl (Nat.le_refl 0) ⟨l, hl⟩ ls hstop
      simp [isCallAhead, hparen]

theorem readable_call
    (spelling : String) (word : Terminal (.identifier spelling)) (opening : Terminal .openParen)
    {args : Derivation .arguments} (closing : Terminal .closeParen)
    (hargs : Readable m .arguments args) :
    Readable m .primary (call spelling word opening args closing) := by
  intro p es rest _ _ hadm
  obtain ⟨⟨function, hfunction, harity⟩, hdepth, hinner⟩ := admissible_call.mp hadm
  simp only [yield, List.cons_append, List.append_assoc, List.nil_append]
  rw [read_call word opening hfunction hdepth]
  exact hargs opening.1 word.1 function p es closing rest hinner harity

theorem readable_group
    (opening : Terminal .openParen) {inner : Derivation .expr} (closing : Terminal .closeParen)
    (hd : Readable m .expr inner) :
    Readable m .primary (group opening inner closing) := by
  intro p es rest _ _ hadm
  obtain ⟨hdepth, hinner⟩ := admissible_group.mp hadm
  rw [← depth_enclosed opening.1 .group] at hinner
  simp only [yield, List.cons_append, List.append_assoc, List.nil_append]
  rw [read_group opening hdepth,
    hd .empty _ _ rfl (Category.stopsBefore_closing _ closing rest) hinner]
  exact read_closeParen_group opening.1 p closing

theorem readable_positive
    {operand : Derivation .primary} (hd : Readable m .primary operand) :
    Readable m .unary (positive operand) := by
  intro p es rest hsign hstop hadm
  have hread := hd p es rest trivial hstop (admissible_positive.mp hadm)
  simp only [complete_before hsign] at hread
  exact hread

theorem readable_negative
    (minus : Terminal (.operator .sub)) {operand : Derivation .primary}
    (hd : Readable m .primary operand) :
    Readable m .unary (negative minus operand) := by
  intro p es rest hsign hstop hadm
  have hread := hd { p with negation := some minus.1.position } es rest trivial hstop
    (admissible_negative.mp hadm)
  simp only [complete_negated hsign] at hread
  rw [yield, List.cons_append, read_minus minus hsign (operand.operatorsAhead_primary rest)]
  exact hread

theorem readable_power
    {base : Derivation .unary} {exponent : Derivation .powerRest}
    (hd : Readable m .unary base) (hds : Readable m .powerRest exponent) :
    Readable m .power (power base exponent) := by
  intro p es rest hp hstop hadm
  obtain ⟨hbase, hexponent⟩ := admissible_power.mp hadm
  rw [yield, List.append_assoc, hd p es _ hp (stopsBefore_powerRest exponent hstop) hbase]
  exact hds base.tree p es rest hp hstop hexponent

theorem readable_powerEnd : Readable m .powerRest powerEnd :=
  fun _ _ _ _ _ _ _ => rfl

theorem readable_powerMore
    (caret : Terminal (.operator .pow)) {exponent : Derivation .power}
    (hd : Readable m .power exponent) :
    Readable m .powerRest (powerMore caret exponent) := by
  intro left p es rest hp hstop hadm
  obtain ⟨hdepth, hexponent⟩ := admissible_powerMore.mp hadm
  rw [← depth_push_pow caret.1.position left] at hexponent
  -- The power waits while its exponent is read, and is completed where that stops.
  rw [yield, List.cons_append,
    read_operator caret (exponent.beginsOperand_power rest) (fun _ => hdepth),
    hd (p.push .pow caret.1.position left) es rest hp hstop hexponent]
  exact read_after_push_pow caret.1.position left hstop

theorem readable_term
    {first : Derivation .power} {others : Derivation .termRest}
    (hd : Readable m .power first) (hds : Readable m .termRest others) :
    Readable m .term (term first others) := by
  intro p es rest hp hstop hadm
  obtain ⟨hfirst, hothers⟩ := admissible_term.mp hadm
  rw [yield, List.append_assoc, hd p es _ hp.1 (stopsBefore_termRest others hstop) hfirst]
  exact hds first.tree p es rest hp hstop hothers

theorem readable_termEnd : Readable m .termRest termEnd :=
  fun _ _ _ _ _ _ _ => rfl

theorem readable_termMore
    (op : Operator) (hop : op = .mul ∨ op = .div) (sign : Terminal (.operator op))
    {next : Derivation .power} {others : Derivation .termRest}
    (hd : Readable m .power next) (hds : Readable m .termRest others) :
    Readable m .termRest (termMore op hop sign next others) := by
  intro left p es rest hp hstop hadm
  have hpow := Operator.ne_pow_of_product hop
  have hstopNext := stopsBefore_termRest others hstop
  obtain ⟨hnext, hothers⟩ := admissible_termMore.mp hadm
  rw [← depth_push hpow hp.2.2 sign.1.position left] at hnext
  rw [yield, List.cons_append, List.append_assoc,
    read_operator sign (next.beginsOperand_power _) (fun h => absurd h hpow),
    hd (p.push op sign.1.position left) es _ ((negation_push op _).trans hp.1) hstopNext hnext,
    read_after_push_product hop sign.1.position left hp.2.1 hp.2.2 hstopNext]
  exact hds _ p es rest hp hstop hothers

theorem readable_expr
    {first : Derivation .term} {others : Derivation .exprRest}
    (hd : Readable m .term first) (hds : Readable m .exprRest others) :
    Readable m .expr (expr first others) := by
  rintro p es rest rfl hstop hadm
  obtain ⟨hfirst, hothers⟩ := admissible_expr.mp hadm
  rw [yield, List.append_assoc,
    hd .empty es _ ⟨rfl, rfl, rfl⟩ (stopsBefore_exprRest others hstop) hfirst]
  exact hds first.tree .empty es rest rfl hstop hothers

theorem readable_exprEnd : Readable m .exprRest exprEnd :=
  fun _ _ _ _ _ _ _ => rfl

theorem readable_exprMore
    (op : Operator) (hop : op = .add ∨ op = .sub) (sign : Terminal (.operator op))
    {next : Derivation .term} {others : Derivation .exprRest}
    (hd : Readable m .term next) (hds : Readable m .exprRest others) :
    Readable m .exprRest (exprMore op hop sign next others) := by
  rintro left p es rest rfl hstop hadm
  have hpow := Operator.ne_pow_of_sum hop
  have hstopNext := stopsBefore_exprRest others hstop
  -- A sum that waits leaves room for a whole term.
  have hadmits : Category.term.Admits (Pending.empty.push op sign.1.position left) := by
    rcases hop with rfl | rfl <;> exact ⟨rfl, rfl, rfl⟩
  obtain ⟨hnext, hothers⟩ := admissible_exprMore.mp hadm
  rw [← depth_push hpow rfl sign.1.position left] at hnext
  rw [yield, List.cons_append, List.append_assoc,
    read_operator sign (next.beginsOperand_term _) (fun h => absurd h hpow),
    hd (Pending.empty.push op sign.1.position left) es _ hadmits hstopNext hnext,
    read_after_push_sum hop sign.1.position left hstopNext]
  exact hds _ .empty es rest rfl hstop hothers

theorem readable_arguments
    {first : Derivation .expr} {others : Derivation .argumentsRest}
    (hd : Readable m .expr first) (hds : Readable m .argumentsRest others) :
    Readable m .arguments (Derivation.arguments first others) := by
  intro paren name function outside es closing rest hadm harity
  obtain ⟨hfirst, hothers⟩ := admissible_arguments.mp hadm
  have hstop := stopsBefore_argumentsRest others (Category.stopsBefore_closing _ closing rest)
  rw [← depth_enclosed paren (.call name function [])] at hfirst
  rw [yield, List.append_assoc, first.read_firstArgument, hd .empty _ _ rfl hstop hfirst]
  exact hds paren name function [] outside es first.tree closing rest hothers harity

theorem readable_argumentsEnd : Readable m .argumentsRest argumentsEnd := by
  intro paren name function args outside es last closing rest _ harity
  exact read_closeParen_call paren name function args outside closing harity

theorem readable_argumentsMore
    (comma : Terminal .comma) {next : Derivation .expr} {others : Derivation .argumentsRest}
    (hd : Readable m .expr next) (hds : Readable m .argumentsRest others) :
    Readable m .argumentsRest (argumentsMore comma next others) := by
  intro paren name function args outside es last closing rest hadm harity
  obtain ⟨hnext, hothers⟩ := admissible_argumentsMore.mp hadm
  have hstop := stopsBefore_argumentsRest others (Category.stopsBefore_closing _ closing rest)
  have harity' : ((args ++ [last]) ++ next.tree :: others.tree).length = function.arity := by
    rw [List.append_assoc]
    exact harity
  have hcall := hds paren name function (args ++ [last]) outside es next.tree closing rest hothers
    harity'
  rw [← depth_enclosed paren (.call name function (args ++ [last]))] at hnext
  rw [List.append_assoc] at hcall
  rw [yield, List.cons_append, List.append_assoc, read_comma]
  exact (hd .empty _ _ rfl hstop hnext).trans hcall

theorem readable
    {c : Category} (d : Derivation c) : Readable m c d := by
  induction d with
  | expr first others ihFirst ihOthers => exact readable_expr ihFirst ihOthers
  | exprEnd => exact readable_exprEnd
  | exprMore op hop sign next others ihNext ihOthers =>
      exact readable_exprMore op hop sign ihNext ihOthers
  | term first others ihFirst ihOthers => exact readable_term ihFirst ihOthers
  | termEnd => exact readable_termEnd
  | termMore op hop sign next others ihNext ihOthers =>
      exact readable_termMore op hop sign ihNext ihOthers
  | power base exponent ihBase ihExponent => exact readable_power ihBase ihExponent
  | powerEnd => exact readable_powerEnd
  | powerMore caret exponent ihExponent => exact readable_powerMore caret ihExponent
  | positive operand ihOperand => exact readable_positive ihOperand
  | negative minus operand ihOperand => exact readable_negative minus ihOperand
  | number value literal => exact readable_number value literal
  | name spelling word => exact readable_name spelling word
  | call spelling word opening args closing ihArgs =>
      exact readable_call spelling word opening closing ihArgs
  | group opening inner closing ihInner => exact readable_group opening closing ihInner
  | arguments first others ihFirst ihOthers => exact readable_arguments ihFirst ihOthers
  | argumentsEnd => exact readable_argumentsEnd
  | argumentsMore comma next others ihNext ihOthers =>
      exact readable_argumentsMore comma ihNext ihOthers

/-- The lexemes of an admissible derivation of an expression are read as its tree. -/
theorem read_yield
    (d : Derivation .expr) (hadm : d.Admissible m 0) : Expr.read m d.yield = .ok d.tree := by
  have hstop : Category.expr.StopsBefore [] := by simp [Category.StopsBefore]
  have hread := d.readable .empty [] [] rfl hstop hadm
  rw [List.append_nil] at hread
  exact hread

end Derivation

end Calculator
