import Calculator.Proofs.Grammar.Parse

/-!
# Derivations that are nested too deeply

If nothing else is wrong with a derivation, then what its nesting exceeds the limit by is found at
the first lexeme that opens a level too many (`Derivation.refusable`).  Up to there everything is
read as in `Derivation.readable`: a part that is nested deeply enough ends the reading in it, and
any part before that leaves the number of levels as it was.
-/

namespace Calculator

open Unfinished

/-! ## The first lexeme that is too deep -/

/-- The first lexeme that opens a level and has as many levels around it as there may be. -/
def firstTooDeep? (entries : List (Lexeme × Nat)) : Option Lexeme :=
  (entries.find? fun entry => maxDepth ≤ entry.2).map Prod.fst

/-- The lexeme is a parenthesis or a `^`, so that what comes after it is one level deeper. -/
def Lexeme.opensLevel (l : Lexeme) : Bool :=
  l.token = .openParen || l.token = .operator .pow

section firstTooDeep

variable {entries others : List (Lexeme × Nat)} {l opening : Lexeme} {around : Nat}

theorem firstTooDeep?_eq_none_iff :
    firstTooDeep? entries = none ↔ ∀ entry ∈ entries, entry.2 < maxDepth := by
  simp [firstTooDeep?, List.find?_eq_none]

theorem firstTooDeep?_append_eq_some_iff :
    firstTooDeep? (entries ++ others) = some l ↔
      firstTooDeep? entries = some l ∨
        (∀ entry ∈ entries, entry.2 < maxDepth) ∧ firstTooDeep? others = some l := by
  rw [← firstTooDeep?_eq_none_iff, firstTooDeep?, firstTooDeep?, firstTooDeep?, List.find?_append,
    Option.map_or, Option.or_eq_some_iff]

theorem firstTooDeep?_cons_eq_some_iff :
    firstTooDeep? ((opening, around) :: others) = some l ↔
      maxDepth ≤ around ∧ opening = l ∨ around < maxDepth ∧ firstTooDeep? others = some l := by
  rw [firstTooDeep?, firstTooDeep?, List.find?_cons]
  by_cases hdepth : maxDepth ≤ around
  · simp [hdepth, Nat.not_lt_of_le hdepth]
  · simp [hdepth, Nat.lt_of_not_le hdepth]

end firstTooDeep

namespace Unfinished

variable {m : Memory} {p : Pending} {es : List Enclosure} {value : Expr} {rest : List Lexeme}

/-! ## Lexemes that are refused -/

theorem read_call_tooDeep
    {name : String} (word : Terminal (.identifier name)) (opening : Terminal .openParen)
    {function : Primitive} (hfunction : Primitive.find? name = some function)
    (hdepth : maxDepth ≤ (before p es).depth) :
    (before p es).read m (word.1 :: opening.1 :: rest) = .error (.tooDeep opening.1) := by
  have hcall : isCallAhead (opening.1 :: rest) = true := by simp [isCallAhead, opening.2]
  have hdeep : maxDepth ≤ depth ⟨p, es, .callee word.1 function⟩ := hdepth
  simp [read, step, before, readOperand, word.2, hcall, hfunction, enclose, hdeep]

theorem read_group_tooDeep
    (opening : Terminal .openParen) (hdepth : maxDepth ≤ (before p es).depth) :
    (before p es).read m (opening.1 :: rest) = .error (.tooDeep opening.1) := by
  simp only [before] at hdepth
  simp [read, step, before, readOperand, opening.2, enclose, hdepth]

/-- The operators after `^` are looked at before the number of levels. -/
theorem read_pow_tooDeep
    (caret : Terminal (.operator .pow)) (hahead : BeginsOperand rest)
    (hdepth : maxDepth ≤ (before p es).depth) :
    (after p es value).read m (caret.1 :: rest) = .error (.tooDeep caret.1) := by
  have hrun : (if isNegationAhead rest then none else runFault? caret.1 rest) = none := by
    rcases hahead with hminus | hnone
    · simp [hminus]
    · simp [runFault?, hnone]
  have hdeep : maxDepth ≤ depth ⟨p, es, .value value⟩ := hdepth
  simp [read, step, after, readOperator, caret.2, hrun, hdeep]

end Unfinished

namespace Derivation

variable {m : Memory} {l : Lexeme}

/-! ## Reading the lexemes of a derivation -/

/-- Where names and calls are as they should be, the first lexeme of a derivation that is too deep
ends the reading. -/
def Refused (m : Memory) {c : Category} (d : Derivation c)
    (u : Pending → List Enclosure → Unfinished) : Prop :=
  ∀ p es rest l, c.Admits p → c.StopsBefore rest → d.Resolves m →
    firstTooDeep? (d.nesting (before p es).depth) = some l →
      (u p es).read m (d.yield ++ rest) = .error (.tooDeep l)

/-- Reading the lexemes of a derivation from where it may stand ends at the first that is too
deep. -/
def Refusable (m : Memory) : (c : Category) → Derivation c → Prop
  | .primary, d | .unary, d | .power, d | .term, d | .expr, d => d.Refused m before
  | .powerRest, d | .termRest, d | .exprRest, d => ∀ left, d.Refused m (after · · left)
  | .arguments, d => ∀ paren name function outside es (closing : Terminal .closeParen) rest l,
      d.Resolves m →
      firstTooDeep? (d.nesting ((before outside es).depth + 1)) = some l →
      read m ⟨.empty, ⟨paren, .call name function [], outside⟩ :: es, .firstArgument⟩
        (d.yield ++ closing.1 :: rest) = .error (.tooDeep l)
  | .argumentsRest, d => ∀ paren name function args outside es last
      (closing : Terminal .closeParen) rest l,
      d.Resolves m →
      firstTooDeep? (d.nesting ((before outside es).depth + 1)) = some l →
      (after .empty (⟨paren, .call name function args, outside⟩ :: es) last).read m
        (d.yield ++ closing.1 :: rest) = .error (.tooDeep l)

theorem refusable_call
    (spelling : String) (word : Terminal (.identifier spelling)) (opening : Terminal .openParen)
    {args : Derivation .arguments} (closing : Terminal .closeParen)
    (hargs : Refusable m .arguments args) :
    Refusable m .primary (call spelling word opening args closing) := by
  intro p es rest l _ _ hresolves hdeep
  obtain ⟨⟨function, hfunction, -⟩, hinner⟩ := hresolves
  simp only [yield, List.cons_append, List.append_assoc, List.nil_append]
  rcases firstTooDeep?_cons_eq_some_iff.mp hdeep with ⟨hdepth, rfl⟩ | ⟨hdepth, hdeep⟩
  · exact read_call_tooDeep word opening hfunction hdepth
  · rw [read_call word opening hfunction hdepth]
    exact hargs opening.1 word.1 function p es closing rest l hinner hdeep

theorem refusable_group
    (opening : Terminal .openParen) {inner : Derivation .expr} (closing : Terminal .closeParen)
    (hd : Refusable m .expr inner) :
    Refusable m .primary (group opening inner closing) := by
  intro p es rest l _ _ hresolves hdeep
  simp only [yield, List.cons_append, List.append_assoc, List.nil_append]
  rcases firstTooDeep?_cons_eq_some_iff.mp hdeep with ⟨hdepth, rfl⟩ | ⟨hdepth, hdeep⟩
  · exact read_group_tooDeep opening hdepth
  · rw [← depth_enclosed opening.1 .group] at hdeep
    rw [read_group opening hdepth]
    exact hd .empty _ _ l rfl (Category.stopsBefore_closing _ closing rest) hresolves hdeep

theorem refusable_negative
    (minus : Terminal (.operator .sub)) {operand : Derivation .primary}
    (hd : Refusable m .primary operand) :
    Refusable m .unary (negative minus operand) := by
  intro p es rest l hsign hstop hresolves hdeep
  rw [yield, List.cons_append, read_minus minus hsign (operand.operatorsAhead_primary rest)]
  exact hd { p with negation := some minus.1.position } es rest l trivial hstop hresolves hdeep

/-- Of two parts at one level the second is come to only if the first is shallow. -/
theorem Refused.of_parts
    {c c₁ c₂ : Category} {d : Derivation c} {d₁ : Derivation c₁} {d₂ : Derivation c₂}
    {u v : Pending → List Enclosure → Unfinished} (hyield : d.yield = d₁.yield ++ d₂.yield)
    (hresolves : d.Resolves m ↔ d₁.Resolves m ∧ d₂.Resolves m)
    (hnesting : ∀ around, d.nesting around = d₁.nesting around ++ d₂.nesting around)
    (hadmits : ∀ p, c.Admits p → c₁.Admits p ∧ c₂.Admits p)
    (hstops : ∀ rest, c.StopsBefore rest →
      c₁.StopsBefore (d₂.yield ++ rest) ∧ c₂.StopsBefore rest)
    (h₁ : d₁.Refused m u) (hleads : d₁.Leads m u v) (h₂ : d₂.Refused m v) : d.Refused m u := by
  intro p es rest l hp hstop hd hdeep
  obtain ⟨hp₁, hp₂⟩ := hadmits p hp
  obtain ⟨hstop₁, hstop₂⟩ := hstops rest hstop
  obtain ⟨hd₁, hd₂⟩ := hresolves.mp hd
  rw [hnesting] at hdeep
  rw [hyield, List.append_assoc]
  rcases firstTooDeep?_append_eq_some_iff.mp hdeep with hfirst | ⟨hshallow, hsecond⟩
  · exact h₁ p es _ l hp₁ hstop₁ hd₁ hfirst
  · rw [hleads p es _ hp₁ hstop₁ ⟨hd₁, hshallow⟩]
    exact h₂ p es rest l hp₂ hstop₂ hd₂ hsecond

theorem refusable_power
    {base : Derivation .unary} {exponent : Derivation .powerRest}
    (hd : Refusable m .unary base) (hds : Refusable m .powerRest exponent) :
    Refusable m .power (power base exponent) :=
  .of_parts rfl Iff.rfl (fun _ => rfl) (fun _ hp => ⟨hp, hp⟩)
    (fun _ hstop => ⟨stopsBefore_powerRest exponent hstop, hstop⟩) hd base.readable
    (hds base.tree)

theorem refusable_powerMore
    (caret : Terminal (.operator .pow)) {exponent : Derivation .power}
    (hd : Refusable m .power exponent) :
    Refusable m .powerRest (powerMore caret exponent) := by
  intro left p es rest l hp hstop hresolves hdeep
  have hahead := exponent.beginsOperand_power rest
  rw [yield, List.cons_append]
  rcases firstTooDeep?_cons_eq_some_iff.mp hdeep with ⟨hdepth, rfl⟩ | ⟨hdepth, hdeep⟩
  · exact read_pow_tooDeep caret hahead hdepth
  · rw [← depth_push_pow caret.1.position left] at hdeep
    rw [read_operator caret hahead fun _ => hdepth]
    exact hd (p.push .pow caret.1.position left) es rest l hp hstop hresolves hdeep

theorem refusable_term
    {first : Derivation .power} {others : Derivation .termRest}
    (hd : Refusable m .power first) (hds : Refusable m .termRest others) :
    Refusable m .term (term first others) :=
  .of_parts rfl Iff.rfl (fun _ => rfl) (fun _ hp => ⟨hp.1, hp⟩)
    (fun _ hstop => ⟨stopsBefore_termRest others hstop, hstop⟩) hd first.readable
    (hds first.tree)

theorem refusable_termMore
    (op : Operator) (hop : op = .mul ∨ op = .div) (sign : Terminal (.operator op))
    {next : Derivation .power} {others : Derivation .termRest}
    (hd : Refusable m .power next) (hds : Refusable m .termRest others) :
    Refusable m .termRest (termMore op hop sign next others) := by
  intro left p es rest l hp hstop hresolves hdeep
  let q := p.push op sign.1.position left
  have hpow := Operator.ne_pow_of_product hop
  have hstopNext := stopsBefore_termRest others hstop
  have hq : q.negation = none := (negation_push op sign.1.position).trans hp.1
  have hdepth : (before q es).depth = (before p es).depth :=
    depth_push hpow hp.2.2 sign.1.position left
  rw [yield, List.cons_append, List.append_assoc,
    read_operator sign (next.beginsOperand_power _) fun h => absurd h hpow]
  rcases firstTooDeep?_append_eq_some_iff.mp hdeep with hnext | ⟨hshallow, hothers⟩
  · exact hd q es _ l hq hstopNext hresolves.1 (hdepth.symm ▸ hnext)
  · rw [next.readable q es _ hq hstopNext ⟨hresolves.1, hdepth.symm ▸ hshallow⟩,
      read_after_push_product hop sign.1.position left hp.2.1 hp.2.2 hstopNext]
    exact hds _ p es rest l hp hstop hresolves.2 hothers

theorem refusable_expr
    {first : Derivation .term} {others : Derivation .exprRest}
    (hd : Refusable m .term first) (hds : Refusable m .exprRest others) :
    Refusable m .expr (expr first others) :=
  .of_parts rfl Iff.rfl (fun _ => rfl)
    (fun _ hp => ⟨by rw [show _ = Pending.empty from hp]; exact ⟨rfl, rfl, rfl⟩, hp⟩)
    (fun _ hstop => ⟨stopsBefore_exprRest others hstop, hstop⟩) hd first.readable
    (hds first.tree)

theorem refusable_exprMore
    (op : Operator) (hop : op = .add ∨ op = .sub) (sign : Terminal (.operator op))
    {next : Derivation .term} {others : Derivation .exprRest}
    (hd : Refusable m .term next) (hds : Refusable m .exprRest others) :
    Refusable m .exprRest (exprMore op hop sign next others) := by
  rintro left p es rest l rfl hstop hresolves hdeep
  let q := Pending.empty.push op sign.1.position left
  have hpow := Operator.ne_pow_of_sum hop
  have hstopNext := stopsBefore_exprRest others hstop
  have hq : Category.term.Admits q := by rcases hop with rfl | rfl <;> exact ⟨rfl, rfl, rfl⟩
  have hdepth : (before q es).depth = (before .empty es).depth :=
    depth_push hpow rfl sign.1.position left
  rw [yield, List.cons_append, List.append_assoc,
    read_operator sign (next.beginsOperand_term _) fun h => absurd h hpow]
  rcases firstTooDeep?_append_eq_some_iff.mp hdeep with hnext | ⟨hshallow, hothers⟩
  · exact hd q es _ l hq hstopNext hresolves.1 (hdepth.symm ▸ hnext)
  · rw [next.readable q es _ hq hstopNext ⟨hresolves.1, hdepth.symm ▸ hshallow⟩,
      read_after_push_sum hop sign.1.position left hstopNext]
    exact hds _ .empty es rest l rfl hstop hresolves.2 hothers

theorem refusable_arguments
    {first : Derivation .expr} {others : Derivation .argumentsRest}
    (hd : Refusable m .expr first) (hds : Refusable m .argumentsRest others) :
    Refusable m .arguments (Derivation.arguments first others) := by
  intro paren name function outside es closing rest l hresolves hdeep
  let inside : List Enclosure := ⟨paren, .call name function [], outside⟩ :: es
  have hdepth : (before .empty inside).depth = (before outside es).depth + 1 :=
    depth_enclosed paren (.call name function [])
  have hstop := stopsBefore_argumentsRest others (Category.stopsBefore_closing _ closing rest)
  rw [yield, List.append_assoc, first.read_firstArgument]
  rcases firstTooDeep?_append_eq_some_iff.mp hdeep with hfirst | ⟨hshallow, hothers⟩
  · exact hd .empty inside _ l rfl hstop hresolves.1 (hdepth.symm ▸ hfirst)
  · rw [first.readable .empty inside _ rfl hstop ⟨hresolves.1, hdepth.symm ▸ hshallow⟩]
    exact hds paren name function [] outside es first.tree closing rest l hresolves.2 hothers

theorem refusable_argumentsMore
    (comma : Terminal .comma) {next : Derivation .expr} {others : Derivation .argumentsRest}
    (hd : Refusable m .expr next) (hds : Refusable m .argumentsRest others) :
    Refusable m .argumentsRest (argumentsMore comma next others) := by
  intro paren name function args outside es last closing rest l hresolves hdeep
  let inside : List Enclosure := ⟨paren, .call name function (args ++ [last]), outside⟩ :: es
  have hdepth : (before .empty inside).depth = (before outside es).depth + 1 :=
    depth_enclosed paren (.call name function (args ++ [last]))
  have hstop := stopsBefore_argumentsRest others (Category.stopsBefore_closing _ closing rest)
  rw [yield, List.cons_append, List.append_assoc, read_comma]
  rcases firstTooDeep?_append_eq_some_iff.mp hdeep with hnext | ⟨hshallow, hothers⟩
  · exact hd .empty inside _ l rfl hstop hresolves.1 (hdepth.symm ▸ hnext)
  · refine (next.readable .empty inside _ rfl hstop ⟨hresolves.1, hdepth.symm ▸ hshallow⟩).trans ?_
    exact hds paren name function (args ++ [last]) outside es next.tree closing rest l hresolves.2
      hothers

theorem refusable {c : Category} (d : Derivation c) : Refusable m c d := by
  induction d with
  | expr first others ihFirst ihOthers => exact refusable_expr ihFirst ihOthers
  | exprMore op hop sign next others ihNext ihOthers =>
      exact refusable_exprMore op hop sign ihNext ihOthers
  | term first others ihFirst ihOthers => exact refusable_term ihFirst ihOthers
  | termMore op hop sign next others ihNext ihOthers =>
      exact refusable_termMore op hop sign ihNext ihOthers
  | power base exponent ihBase ihExponent => exact refusable_power ihBase ihExponent
  | powerMore caret exponent ihExponent => exact refusable_powerMore caret ihExponent
  | positive operand ihOperand =>
      intro p es rest l _ hstop hresolves hdeep
      exact ihOperand p es rest l trivial hstop hresolves hdeep
  | negative minus operand ihOperand => exact refusable_negative minus ihOperand
  | call spelling word opening args closing ihArgs =>
      exact refusable_call spelling word opening closing ihArgs
  | group opening inner closing ihInner => exact refusable_group opening closing ihInner
  | arguments first others ihFirst ihOthers => exact refusable_arguments ihFirst ihOthers
  | argumentsMore comma next others ihNext ihOthers =>
      exact refusable_argumentsMore comma ihNext ihOthers
  -- The others have no lexeme that opens a level.
  | number | name =>
      intro p es rest l _ _ _ hdeep
      cases hdeep
  | exprEnd | termEnd | powerEnd =>
      intro left p es rest l _ _ _ hdeep
      cases hdeep
  | argumentsEnd =>
      intro paren name function args outside es last closing rest l _ hdeep
      cases hdeep

/-- The first lexeme of an expression that is too deep is the fault, if there is no other. -/
theorem read_tooDeep
    (d : Derivation .expr) (hresolves : d.Resolves m)
    (hdeep : firstTooDeep? (d.nesting 0) = some l) :
    Expr.read m d.yield = .error (.tooDeep l) := by
  have hstop : Category.expr.StopsBefore [] := by simp [Category.StopsBefore]
  have hread := d.refusable .empty [] [] l rfl hstop hresolves hdeep
  rw [List.append_nil] at hread
  exact hread

/-! ## The lexemes that open a level -/

theorem map_fst_nesting
    {c : Category} (d : Derivation c) (around : Nat) :
    (d.nesting around).map Prod.fst = d.yield.filter Lexeme.opensLevel := by
  induction d generalizing around with
  | expr first rest ihFirst ihRest | term first rest ihFirst ihRest
  | power first rest ihFirst ihRest | arguments first rest ihFirst ihRest =>
      simp [ihFirst, ihRest]
  | exprMore op hop sign first rest ihFirst ihRest
  | termMore op hop sign first rest ihFirst ihRest =>
      rcases hop with rfl | rfl <;> simp [Lexeme.opensLevel, sign.2, ihFirst, ihRest]
  | argumentsMore sign first rest ihFirst ihRest =>
      simp [Lexeme.opensLevel, sign.2, ihFirst, ihRest]
  | exprEnd | termEnd | powerEnd | argumentsEnd => rfl
  | number value lexeme | name spelling lexeme => simp [Lexeme.opensLevel, lexeme.2]
  | positive operand ihOperand => simp [ihOperand]
  | negative minus operand ihOperand => simp [Lexeme.opensLevel, minus.2, ihOperand]
  | powerMore opening inner ihInner => simp [Lexeme.opensLevel, opening.2, ihInner]
  | call spelling word opening inner closing ihInner =>
      simp [Lexeme.opensLevel, word.2, opening.2, closing.2, ihInner]
  | group opening inner closing ihInner =>
      simp [Lexeme.opensLevel, opening.2, closing.2, ihInner]

/-- Levels are opened one at a time, so the first lexeme that is too deep has just as many levels
around it as there may be. -/
theorem mem_nesting_of_firstTooDeep?
    {c : Category} {d : Derivation c} {around : Nat} (haround : around ≤ maxDepth)
    (h : firstTooDeep? (d.nesting around) = some l) : (l, maxDepth) ∈ d.nesting around := by
  induction d generalizing around with
  | expr first rest ihFirst ihRest | term first rest ihFirst ihRest
  | power first rest ihFirst ihRest | arguments first rest ihFirst ihRest
  | exprMore op hop sign first rest ihFirst ihRest
  | termMore op hop sign first rest ihFirst ihRest
  | argumentsMore sign first rest ihFirst ihRest =>
      rcases firstTooDeep?_append_eq_some_iff.mp h with hfirst | ⟨-, hrest⟩
      · exact List.mem_append_left _ (ihFirst haround hfirst)
      · exact List.mem_append_right _ (ihRest haround hrest)
  | exprEnd | termEnd | powerEnd | argumentsEnd | number | name => cases h
  | positive operand ihOperand | negative minus operand ihOperand => exact ihOperand haround h
  | powerMore opening inner ihInner | call spelling word opening inner closing ihInner
  | group opening inner closing ihInner =>
      rcases firstTooDeep?_cons_eq_some_iff.mp h with ⟨hdepth, rfl⟩ | ⟨hdepth, hinner⟩
      · obtain rfl := Nat.le_antisymm haround hdepth
        exact List.mem_cons_self
      · exact List.mem_cons_of_mem _ (ihInner hdepth hinner)

end Derivation

namespace LineDerivation

variable {m : Memory} {line : String} {l : Lexeme}

/-- The expression of a line. -/
def value : LineDerivation → Derivation .expr
  | .expression value => value
  | .assignment _ _ _ _ value => value

/-- The target of an assignment may name a variable, and the names and calls of the expression are
as they should be. -/
def Resolves (m : Memory) : LineDerivation → Prop
  | .expression value => value.Resolves m
  | .assignment _ name _ _ value => Name.check name = .ok () ∧ value.Resolves m

theorem exists_opens
    {d : LineDerivation} (h : d.Resolves m) :
    d.value.Resolves m ∧
      ∃ head, Statement.Opens head d.value.yield ∧ d.yield = head ++ d.value.yield := by
  cases d with
  | expression value =>
      refine ⟨h, [], .expression fun first hfirst => ?_, rfl⟩
      obtain ⟨l, ls, hcons, -, hlet⟩ := value.exists_cons_of_expr
      rw [LineDerivation.value, hcons] at hfirst
      cases hfirst
      exact hlet
  | assignment letWord name target equals value =>
      exact ⟨h.2, _, .assignment letWord target equals h.1 value.yield, rfl⟩

theorem read_tooDeep
    {d : LineDerivation} (hscan : scan line = .ok d.yield) (h : d.Resolves m)
    (hdeep : firstTooDeep? (d.value.nesting 0) = some l) :
    Statement.read m line d.yield = .error (.tooDeep l) := by
  obtain ⟨hvalue, head, hopens, hyield⟩ := exists_opens h
  rw [hyield] at hscan ⊢
  obtain ⟨make, hread⟩ := Statement.read_of_opens hopens hscan
  rw [hread, d.value.read_tooDeep hvalue hdeep]
  rfl

end LineDerivation

end Calculator
