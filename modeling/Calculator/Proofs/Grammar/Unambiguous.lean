import Calculator.Proofs.Grammar.Derivation

/-!
# The grammar is unambiguous

Two derivations with the same lexemes are the same.  The proof reads both from the left: the next
lexeme tells which rule each of them uses, and a part of a rule ends where a lexeme comes that
could not carry it on.  So the statement that goes through the induction is about derivations
before arbitrary further lexemes that stop them (`Derivation.Determined`).
-/

namespace Calculator

/-- How loosely a token ties what comes after it to the operand before it. -/
def Token.looseness? : Token → Option Nat
  | .openParen => some 0
  | .operator .pow => some 1
  | .operator .mul | .operator .div => some 2
  | .operator .add | .operator .sub => some 3
  | .comma => some 4
  | _ => none

/-- The loosest token that can carry on what is already a complete derivation of a category. -/
def Category.looseness : Category → Nat
  | .unary | .primary => 0
  | .power | .powerRest => 1
  | .term | .termRest => 2
  | .expr | .exprRest => 3
  | .arguments | .argumentsRest => 4

/-- The lexemes that come next do not carry on a derivation of the category. -/
def Category.StopsBefore (c : Category) (rest : List Lexeme) : Prop :=
  ∀ l ∈ rest.head?, ∀ n ∈ l.token.looseness?, c.looseness < n

theorem Category.StopsBefore.mono
    {c d : Category} {rest : List Lexeme} (h : d.StopsBefore rest)
    (hle : c.looseness ≤ d.looseness) : c.StopsBefore rest :=
  fun l hl n hn => Nat.lt_of_le_of_lt hle (h l hl n hn)

theorem Category.stopsBefore_cons_iff {c : Category} {t : Token} (l : Terminal t)
    {rest : List Lexeme} :
    c.StopsBefore (l.1 :: rest) ↔ ∀ n ∈ t.looseness?, c.looseness < n := by
  simp [StopsBefore, l.2]

theorem Category.stopsBefore_closing
    (c : Category) (closing : Terminal .closeParen) (rest : List Lexeme) :
    c.StopsBefore (closing.1 :: rest) := by
  simp [stopsBefore_cons_iff, Token.looseness?]

theorem Category.not_stopsBefore
    {c : Category} {t : Token} {n : Nat} (ht : t.looseness? = some n) (hn : n ≤ c.looseness)
    (l : Terminal t) (rest : List Lexeme) : ¬c.StopsBefore (l.1 :: rest) := by
  rw [stopsBefore_cons_iff]
  intro h
  exact Nat.not_lt_of_le hn (h n ht)

/-- An operator carries on any expression. -/
theorem Category.not_stopsBefore_operator
    {op : Operator} (sign : Terminal (.operator op)) (rest : List Lexeme) :
    ¬Category.expr.StopsBefore (sign.1 :: rest) := by
  cases op <;> exact not_stopsBefore rfl (by decide) sign rest

theorem Token.looseness?_sum
    {op : Operator} (h : op = .add ∨ op = .sub) : (Token.operator op).looseness? = some 3 := by
  rcases h with rfl | rfl <;> rfl

theorem Token.looseness?_product
    {op : Operator} (h : op = .mul ∨ op = .div) : (Token.operator op).looseness? = some 2 := by
  rcases h with rfl | rfl <;> rfl

theorem Terminal.token_eq
    {s t : Token} {a : Terminal s} {b : Terminal t} (hab : a.1 = b.1) : s = t := by
  rw [← a.2, hab, b.2]

theorem Terminal.ne
    {s t : Token} (hne : s ≠ t) (a : Terminal s) (b : Terminal t) : a.1 ≠ b.1 :=
  fun hab => hne (token_eq hab)

namespace Derivation

/-- An operand without its sign does not begin with an operator. -/
theorem exists_yield_eq_cons
    (d : Derivation .primary) : ∃ l rest, d.yield = l :: rest ∧ l.token.isOperator = false := by
  cases d with
  | number value literal => exact ⟨_, _, rfl, by rw [literal.2]; rfl⟩
  | name spelling word => exact ⟨_, _, rfl, by rw [word.2]; rfl⟩
  | call spelling word opening args closing => exact ⟨_, _, rfl, by rw [word.2]; rfl⟩
  | group opening inner closing => exact ⟨_, _, rfl, by rw [opening.2]; rfl⟩

/-! ## Where the first part of a rule ends -/

theorem stopsBefore_powerRest
    (d : Derivation .powerRest) {rest : List Lexeme} (h : Category.power.StopsBefore rest) :
    Category.unary.StopsBefore (d.yield ++ rest) := by
  cases d with
  | powerEnd => exact h.mono (by decide)
  | powerMore caret exponent =>
      rw [yield, List.cons_append, Category.stopsBefore_cons_iff]
      decide

theorem stopsBefore_termRest
    (d : Derivation .termRest) {rest : List Lexeme} (h : Category.term.StopsBefore rest) :
    Category.power.StopsBefore (d.yield ++ rest) := by
  cases d with
  | termEnd => exact h.mono (by decide)
  | termMore op hop sign next others =>
      rw [yield, List.cons_append, Category.stopsBefore_cons_iff, Token.looseness?_product hop]
      decide

theorem stopsBefore_exprRest
    (d : Derivation .exprRest) {rest : List Lexeme} (h : Category.expr.StopsBefore rest) :
    Category.term.StopsBefore (d.yield ++ rest) := by
  cases d with
  | exprEnd => exact h.mono (by decide)
  | exprMore op hop sign next others =>
      rw [yield, List.cons_append, Category.stopsBefore_cons_iff, Token.looseness?_sum hop]
      decide

theorem stopsBefore_argumentsRest
    (d : Derivation .argumentsRest) {rest : List Lexeme}
    (h : Category.arguments.StopsBefore rest) :
    Category.expr.StopsBefore (d.yield ++ rest) := by
  cases d with
  | argumentsEnd => exact h.mono (by decide)
  | argumentsMore comma next others =>
      rw [yield, List.cons_append, Category.stopsBefore_cons_iff]
      decide

/-! ## Derivations before lexemes that stop them -/

/-- Read from the left, the lexemes of a derivation leave no choice: before lexemes that stop it, no
other derivation of the category has the same lexemes or stops elsewhere. -/
def Determined {c : Category} (d : Derivation c) : Prop :=
  ∀ (d' : Derivation c) (rest rest' : List Lexeme), c.StopsBefore rest → c.StopsBefore rest' →
    d.yield ++ rest = d'.yield ++ rest' → d = d' ∧ rest = rest'

theorem determined_expr
    {first : Derivation .term} {others : Derivation .exprRest}
    (hd : first.Determined) (hds : others.Determined) :
    Determined (expr first others) := by
  intro d' rest rest' hrest hrest' h
  cases d' with
  | expr first' others' =>
      simp only [yield, List.append_assoc] at h
      obtain ⟨rfl, hothers⟩ := hd first' _ _ (stopsBefore_exprRest others hrest)
        (stopsBefore_exprRest others' hrest') h
      obtain ⟨rfl, hafter⟩ := hds others' _ _ hrest hrest' hothers
      exact ⟨rfl, hafter⟩

theorem determined_exprEnd : Determined exprEnd := by
  intro d' rest rest' hrest hrest' h
  cases d' with
  | exprEnd => exact ⟨rfl, h⟩
  | exprMore op hop sign next others =>
      simp only [yield, List.nil_append, List.cons_append] at h
      rw [h] at hrest
      exact absurd hrest
        (Category.not_stopsBefore (Token.looseness?_sum hop) (by decide) sign _)

theorem determined_exprMore
    (op : Operator) (hop : op = .add ∨ op = .sub) (sign : Terminal (.operator op))
    {next : Derivation .term} {others : Derivation .exprRest}
    (hd : next.Determined) (hds : others.Determined) :
    Determined (exprMore op hop sign next others) := by
  intro d' rest rest' hrest hrest' h
  cases d' with
  | exprEnd =>
      simp only [yield, List.nil_append, List.cons_append] at h
      rw [← h] at hrest'
      exact absurd hrest'
        (Category.not_stopsBefore (Token.looseness?_sum hop) (by decide) sign _)
  | exprMore op' hop' sign' next' others' =>
      simp only [yield, List.cons_append, List.append_assoc] at h
      obtain ⟨hsign, hnext⟩ := List.cons.inj h
      cases Terminal.token_eq hsign
      obtain rfl := Subtype.ext hsign
      obtain ⟨rfl, hothers⟩ := hd next' _ _ (stopsBefore_exprRest others hrest)
        (stopsBefore_exprRest others' hrest') hnext
      obtain ⟨rfl, hafter⟩ := hds others' _ _ hrest hrest' hothers
      exact ⟨rfl, hafter⟩

theorem determined_term
    {first : Derivation .power} {others : Derivation .termRest}
    (hd : first.Determined) (hds : others.Determined) :
    Determined (term first others) := by
  intro d' rest rest' hrest hrest' h
  cases d' with
  | term first' others' =>
      simp only [yield, List.append_assoc] at h
      obtain ⟨rfl, hothers⟩ := hd first' _ _ (stopsBefore_termRest others hrest)
        (stopsBefore_termRest others' hrest') h
      obtain ⟨rfl, hafter⟩ := hds others' _ _ hrest hrest' hothers
      exact ⟨rfl, hafter⟩

theorem determined_termEnd : Determined termEnd := by
  intro d' rest rest' hrest hrest' h
  cases d' with
  | termEnd => exact ⟨rfl, h⟩
  | termMore op hop sign next others =>
      simp only [yield, List.nil_append, List.cons_append] at h
      rw [h] at hrest
      exact absurd hrest
        (Category.not_stopsBefore (Token.looseness?_product hop) (by decide) sign _)

theorem determined_termMore
    (op : Operator) (hop : op = .mul ∨ op = .div) (sign : Terminal (.operator op))
    {next : Derivation .power} {others : Derivation .termRest}
    (hd : next.Determined) (hds : others.Determined) :
    Determined (termMore op hop sign next others) := by
  intro d' rest rest' hrest hrest' h
  cases d' with
  | termEnd =>
      simp only [yield, List.nil_append, List.cons_append] at h
      rw [← h] at hrest'
      exact absurd hrest'
        (Category.not_stopsBefore (Token.looseness?_product hop) (by decide) sign _)
  | termMore op' hop' sign' next' others' =>
      simp only [yield, List.cons_append, List.append_assoc] at h
      obtain ⟨hsign, hnext⟩ := List.cons.inj h
      cases Terminal.token_eq hsign
      obtain rfl := Subtype.ext hsign
      obtain ⟨rfl, hothers⟩ := hd next' _ _ (stopsBefore_termRest others hrest)
        (stopsBefore_termRest others' hrest') hnext
      obtain ⟨rfl, hafter⟩ := hds others' _ _ hrest hrest' hothers
      exact ⟨rfl, hafter⟩

theorem determined_power
    {base : Derivation .unary} {exponent : Derivation .powerRest}
    (hd : base.Determined) (hds : exponent.Determined) :
    Determined (power base exponent) := by
  intro d' rest rest' hrest hrest' h
  cases d' with
  | power base' exponent' =>
      simp only [yield, List.append_assoc] at h
      obtain ⟨rfl, hexponent⟩ := hd base' _ _ (stopsBefore_powerRest exponent hrest)
        (stopsBefore_powerRest exponent' hrest') h
      obtain ⟨rfl, hafter⟩ := hds exponent' _ _ hrest hrest' hexponent
      exact ⟨rfl, hafter⟩

theorem determined_powerEnd : Determined powerEnd := by
  intro d' rest rest' hrest hrest' h
  cases d' with
  | powerEnd => exact ⟨rfl, h⟩
  | powerMore caret exponent =>
      simp only [yield, List.nil_append, List.cons_append] at h
      rw [h] at hrest
      exact absurd hrest (Category.not_stopsBefore rfl (by decide) caret _)

theorem determined_powerMore
    (caret : Terminal (.operator .pow)) {exponent : Derivation .power}
    (hds : exponent.Determined) :
    Determined (powerMore caret exponent) := by
  intro d' rest rest' hrest hrest' h
  cases d' with
  | powerEnd =>
      simp only [yield, List.nil_append, List.cons_append] at h
      rw [← h] at hrest'
      exact absurd hrest' (Category.not_stopsBefore rfl (by decide) caret _)
  | powerMore caret' exponent' =>
      simp only [yield, List.cons_append] at h
      obtain ⟨hcaret, hexponent⟩ := List.cons.inj h
      obtain rfl := Subtype.ext hcaret
      obtain ⟨rfl, hafter⟩ := hds exponent' _ _ hrest hrest' hexponent
      exact ⟨rfl, hafter⟩

theorem determined_positive
    {operand : Derivation .primary}
    (hd : operand.Determined) :
    Determined (positive operand) := by
  intro d' rest rest' hrest hrest' h
  cases d' with
  | positive operand' =>
      obtain ⟨rfl, hafter⟩ := hd operand' _ _ hrest hrest' h
      exact ⟨rfl, hafter⟩
  | negative minus operand' =>
      -- A sign is an operator, with which no operand begins.
      obtain ⟨l, others, hyield, hl⟩ := operand.exists_yield_eq_cons
      simp only [yield, hyield, List.cons_append] at h
      rw [(List.cons.inj h).1, minus.2] at hl
      cases hl

theorem determined_negative
    (minus : Terminal (.operator .sub)) {operand : Derivation .primary}
    (hd : operand.Determined) :
    Determined (negative minus operand) := by
  intro d' rest rest' hrest hrest' h
  cases d' with
  | positive operand' =>
      obtain ⟨l, others, hyield, hl⟩ := operand'.exists_yield_eq_cons
      simp only [yield, hyield, List.cons_append] at h
      rw [← (List.cons.inj h).1, minus.2] at hl
      cases hl
  | negative minus' operand' =>
      simp only [yield, List.cons_append] at h
      obtain ⟨hminus, hoperand⟩ := List.cons.inj h
      obtain rfl := Subtype.ext hminus
      obtain ⟨rfl, hafter⟩ := hd operand' _ _ hrest hrest' hoperand
      exact ⟨rfl, hafter⟩

theorem determined_number
    (value : Float) (literal : Terminal (.number value)) :
    Determined (number value literal) := by
  intro d' rest rest' hrest hrest' h
  cases d' with
  | number value' literal' =>
      obtain ⟨hliteral, hafter⟩ := List.cons.inj h
      cases Terminal.token_eq hliteral
      obtain rfl := Subtype.ext hliteral
      exact ⟨rfl, hafter⟩
  | name _ word => exact absurd (List.cons.inj h).1 (Terminal.ne (by simp) literal word)
  | call _ word _ _ _ => exact absurd (List.cons.inj h).1 (Terminal.ne (by simp) literal word)
  | group opening _ _ => exact absurd (List.cons.inj h).1 (Terminal.ne (by simp) literal opening)

theorem determined_name
    (spelling : String) (word : Terminal (.identifier spelling)) :
    Determined (name spelling word) := by
  intro d' rest rest' hrest hrest' h
  cases d' with
  | number _ literal => exact absurd (List.cons.inj h).1 (Terminal.ne (by simp) word literal)
  | name spelling' word' =>
      obtain ⟨hword, hafter⟩ := List.cons.inj h
      cases Terminal.token_eq hword
      obtain rfl := Subtype.ext hword
      exact ⟨rfl, hafter⟩
  | call _ word' opening args closing =>
      -- A parenthesis after a name would carry it on.
      simp only [yield, List.cons_append, List.nil_append] at h
      rw [(List.cons.inj h).2] at hrest
      exact absurd hrest (Category.not_stopsBefore rfl (by decide) opening _)
  | group opening _ _ => exact absurd (List.cons.inj h).1 (Terminal.ne (by simp) word opening)

theorem determined_call
    (spelling : String) (word : Terminal (.identifier spelling)) (opening : Terminal .openParen)
    {args : Derivation .arguments} (closing : Terminal .closeParen)
    (hd : args.Determined) :
    Determined (call spelling word opening args closing) := by
  intro d' rest rest' hrest hrest' h
  cases d' with
  | number _ literal => exact absurd (List.cons.inj h).1 (Terminal.ne (by simp) word literal)
  | name _ word' =>
      simp only [yield, List.cons_append, List.nil_append] at h
      rw [← (List.cons.inj h).2] at hrest'
      exact absurd hrest' (Category.not_stopsBefore rfl (by decide) opening _)
  | call spelling' word' opening' args' closing' =>
      simp only [yield, List.cons_append, List.append_assoc] at h
      obtain ⟨hword, hcall⟩ := List.cons.inj h
      obtain ⟨hopening, hargs⟩ := List.cons.inj hcall
      cases Terminal.token_eq hword
      obtain rfl := Subtype.ext hword
      obtain rfl := Subtype.ext hopening
      obtain ⟨rfl, hend⟩ := hd args' _ _ (Category.stopsBefore_closing _ closing _)
        (Category.stopsBefore_closing _ closing' _) hargs
      obtain ⟨hclosing, hafter⟩ := List.cons.inj hend
      obtain rfl := Subtype.ext hclosing
      exact ⟨rfl, hafter⟩
  | group opening' _ _ => exact absurd (List.cons.inj h).1 (Terminal.ne (by simp) word opening')

theorem determined_group
    (opening : Terminal .openParen) {inner : Derivation .expr} (closing : Terminal .closeParen)
    (hd : inner.Determined) :
    Determined (group opening inner closing) := by
  intro d' rest rest' hrest hrest' h
  cases d' with
  | number _ literal => exact absurd (List.cons.inj h).1 (Terminal.ne (by simp) opening literal)
  | name _ word => exact absurd (List.cons.inj h).1 (Terminal.ne (by simp) opening word)
  | call _ word _ _ _ => exact absurd (List.cons.inj h).1 (Terminal.ne (by simp) opening word)
  | group opening' inner' closing' =>
      simp only [yield, List.cons_append, List.append_assoc] at h
      obtain ⟨hopening, hinner⟩ := List.cons.inj h
      obtain rfl := Subtype.ext hopening
      obtain ⟨rfl, hend⟩ := hd inner' _ _ (Category.stopsBefore_closing _ closing _)
        (Category.stopsBefore_closing _ closing' _) hinner
      obtain ⟨hclosing, hafter⟩ := List.cons.inj hend
      obtain rfl := Subtype.ext hclosing
      exact ⟨rfl, hafter⟩

theorem determined_arguments
    {first : Derivation .expr} {others : Derivation .argumentsRest}
    (hd : first.Determined) (hds : others.Determined) :
    Determined (arguments first others) := by
  intro d' rest rest' hrest hrest' h
  cases d' with
  | arguments first' others' =>
      simp only [yield, List.append_assoc] at h
      obtain ⟨rfl, hothers⟩ := hd first' _ _ (stopsBefore_argumentsRest others hrest)
        (stopsBefore_argumentsRest others' hrest') h
      obtain ⟨rfl, hafter⟩ := hds others' _ _ hrest hrest' hothers
      exact ⟨rfl, hafter⟩

theorem determined_argumentsEnd : Determined argumentsEnd := by
  intro d' rest rest' hrest hrest' h
  cases d' with
  | argumentsEnd => exact ⟨rfl, h⟩
  | argumentsMore comma next others =>
      simp only [yield, List.nil_append, List.cons_append] at h
      rw [h] at hrest
      exact absurd hrest (Category.not_stopsBefore rfl (by decide) comma _)

theorem determined_argumentsMore
    (comma : Terminal .comma) {next : Derivation .expr} {others : Derivation .argumentsRest}
    (hd : next.Determined) (hds : others.Determined) :
    Determined (argumentsMore comma next others) := by
  intro d' rest rest' hrest hrest' h
  cases d' with
  | argumentsEnd =>
      simp only [yield, List.nil_append, List.cons_append] at h
      rw [← h] at hrest'
      exact absurd hrest' (Category.not_stopsBefore rfl (by decide) comma _)
  | argumentsMore comma' next' others' =>
      simp only [yield, List.cons_append, List.append_assoc] at h
      obtain ⟨hcomma, hnext⟩ := List.cons.inj h
      obtain rfl := Subtype.ext hcomma
      obtain ⟨rfl, hothers⟩ := hd next' _ _ (stopsBefore_argumentsRest others hrest)
        (stopsBefore_argumentsRest others' hrest') hnext
      obtain ⟨rfl, hafter⟩ := hds others' _ _ hrest hrest' hothers
      exact ⟨rfl, hafter⟩

/-- The next lexeme tells each rule apart from the others of its category. -/
theorem determined
    {c : Category} (d : Derivation c) : d.Determined := by
  induction d with
  | expr first others ihFirst ihOthers => exact determined_expr ihFirst ihOthers
  | exprEnd => exact determined_exprEnd
  | exprMore op hop sign next others ihNext ihOthers =>
      exact determined_exprMore op hop sign ihNext ihOthers
  | term first others ihFirst ihOthers => exact determined_term ihFirst ihOthers
  | termEnd => exact determined_termEnd
  | termMore op hop sign next others ihNext ihOthers =>
      exact determined_termMore op hop sign ihNext ihOthers
  | power base exponent ihBase ihExponent => exact determined_power ihBase ihExponent
  | powerEnd => exact determined_powerEnd
  | powerMore caret exponent ihExponent => exact determined_powerMore caret ihExponent
  | positive operand ihOperand => exact determined_positive ihOperand
  | negative minus operand ihOperand => exact determined_negative minus ihOperand
  | number value literal => exact determined_number value literal
  | name spelling word => exact determined_name spelling word
  | call spelling word opening args closing ihArgs =>
      exact determined_call spelling word opening closing ihArgs
  | group opening inner closing ihInner => exact determined_group opening closing ihInner
  | arguments first others ihFirst ihOthers => exact determined_arguments ihFirst ihOthers
  | argumentsEnd => exact determined_argumentsEnd
  | argumentsMore comma next others ihNext ihOthers =>
      exact determined_argumentsMore comma ihNext ihOthers

/-- A list of lexemes has at most one derivation in each category. -/
theorem eq_of_yield_eq
    {c : Category} (d d' : Derivation c) (h : d.yield = d'.yield) : d = d' := by
  have hstop : c.StopsBefore [] := by simp [Category.StopsBefore]
  exact (d.determined d' [] [] hstop hstop (by rw [h])).1

end Derivation

end Calculator
