import Calculator.Proofs.Grammar.Completeness

/-!
# Only admissible derivations are read

Lexemes that are read from before an operand begin with an admissible derivation, and reading goes
on after the operand that it stands for (`Begins`).  The lexemes inside a parenthesis are fewer than
those with it, so the induction for expressions is on the number of lexemes; chains of operators are
followed from the left to the right.
-/

namespace Calculator

open Unfinished Calculator.Derivation

/-- The lexemes begin with an admissible derivation with `around` levels around it, and the rest
of them, which stops it, continues as stated. -/
def Begins (m : Memory) (c : Category) (around : Nat) (ls : List Lexeme)
    (continues : Derivation c → List Lexeme → Prop) : Prop :=
  ∃ (d : Derivation c) (rest : List Lexeme), ls = d.yield ++ rest ∧ d.Admissible m around ∧
    c.StopsBefore rest ∧ continues d rest

/-- Wherever fewer than `n` lexemes are read from the beginning of an expression, they begin with
one. -/
def BeginsExprBelow (m : Memory) (n : Nat) : Prop :=
  ∀ ls : List Lexeme, ls.length < n → ∀ es e, (before .empty es).read m ls = .ok e →
    Begins m .expr (before .empty es).depth ls
      fun d rest => (after .empty es d.tree).read m rest = .ok e

theorem BeginsExprBelow.mono
    {m : Memory} {k n : Nat} (h : BeginsExprBelow m n) (hle : k ≤ n) : BeginsExprBelow m k :=
  fun ls hls => h ls (Nat.lt_of_lt_of_le hls hle)

theorem length_lt_of_cons_append
    (l : Lexeme) (ls rest : List Lexeme) : rest.length < (l :: (ls ++ rest)).length := by
  rw [List.length_cons, List.length_append]
  omega

theorem length_lt_of_append_cons
    (l : Lexeme) (ls rest : List Lexeme) : rest.length < (ls ++ l :: rest).length := by
  rw [List.length_append, List.length_cons]
  omega

namespace Unfinished

variable {m : Memory} {p : Pending} {es : List Enclosure} {e : Expr}

/-! ## Arguments -/

/-- After the arguments of a call comes its closing parenthesis, and there are as many as the
function takes. -/
def EndsCall (m : Memory) (name : Lexeme) (function : Primitive) (outside : Pending)
    (es : List Enclosure) (e : Expr) (args : List Expr) (rest : List Lexeme) : Prop :=
  ∃ (closing : Terminal .closeParen) (ahead : List Lexeme), rest = closing.1 :: ahead ∧
    args.length = function.arity ∧
    ((before outside es).complete (.call name.position name.text args)).read m ahead = .ok e

theorem begins_argumentsRest
    {paren name : Lexeme} {function : Primitive} {args : List Expr} {outside : Pending}
    {last : Expr} {ls : List Lexeme} (ih : BeginsExprBelow m ls.length)
    (hstop : Category.expr.StopsBefore ls)
    (h : (after .empty (⟨paren, .call name function args, outside⟩ :: es) last).read m ls =
      .ok e) :
    Begins m .argumentsRest ((before outside es).depth + 1) ls
      fun d rest => EndsCall m name function outside es e (args ++ last :: d.tree) rest := by
  -- A comma leaves fewer lexemes and one more argument behind.
  induction hn : ls.length using Nat.strongRecOn generalizing args last ls with
  | ind n ihn =>
    subst hn
    have hahead := operatorAhead_of_read h
    cases hahead with
    | operator outer op sign ahead =>
        exact absurd hstop (Category.not_stopsBefore_operator sign ahead)
    | closeParen enclosure outer closing ahead =>
        have harity := arity_of_read_closeParen h
        have hlength : (args ++ [last]).length = function.arity := by simpa using harity
        have hread := h.symm.trans
          (read_closeParen_call paren name function args outside closing hlength)
        exact ⟨argumentsEnd, _, rfl, admissible_argumentsEnd,
          Category.stopsBefore_closing _ closing _, closing, ahead, rfl, hlength, hread.symm⟩
    | comma _ _ _ _ _ outer comma ahead =>
        rw [read_comma] at h
        obtain ⟨next, rest, rfl, hnext, hstopNext, hrest⟩ := ih ahead (by simp) _ e h
        have hshorter := length_lt_of_cons_append comma.1 next.yield rest
        obtain ⟨others, rest', rfl, hothers, hstopOthers, hend⟩ :=
          ihn rest.length hshorter (ih.mono (Nat.le_of_lt hshorter)) hstopNext hrest rfl
        rw [depth_enclosed] at hnext
        refine ⟨argumentsMore comma next others, rest', ?_, ?_, hstopOthers, ?_⟩
        · simp
        · exact admissible_argumentsMore.mpr ⟨hnext, hothers⟩
        · rw [List.append_assoc] at hend
          exact hend

theorem begins_arguments
    {paren name : Lexeme} {function : Primitive} {outside : Pending} {ls : List Lexeme}
    (ih : BeginsExprBelow m (ls.length + 1))
    (h : read m ⟨.empty, ⟨paren, .call name function [], outside⟩ :: es, .firstArgument⟩ ls =
      .ok e) :
    Begins m .arguments ((before outside es).depth + 1) ls
      fun d rest => EndsCall m name function outside es e d.tree rest := by
  cases ls with
  | nil => simp [read, finish] at h
  | cons lexeme ahead =>
      have hclose : lexeme.token ≠ .closeParen := by
        intro hclose
        exact read_firstArgument_closeParen paren name function outside ⟨lexeme, hclose⟩ e h
      rw [read_firstArgument hclose] at h
      obtain ⟨first, rest, hyield, hfirst, hstop, hrest⟩ := ih _ (Nat.lt_succ_self _) _ e h
      have hle : rest.length ≤ (lexeme :: ahead).length := by
        rw [hyield, List.length_append]
        omega
      obtain ⟨others, rest', rfl, hothers, hstopOthers, hend⟩ :=
        begins_argumentsRest (ih.mono (Nat.le_succ_of_le hle)) hstop hrest
      rw [depth_enclosed] at hfirst
      refine ⟨Derivation.arguments first others, rest', ?_, ?_, hstopOthers, hend⟩
      · rw [hyield, yield, List.append_assoc]
      · exact admissible_arguments.mpr ⟨hfirst, hothers⟩

/-! ## Operands -/

/-- Only what stands inside a parenthesis is left to the induction. -/
theorem begins_primary
    {ls : List Lexeme} (ih : BeginsExprBelow m ls.length)
    (hahead : PrimaryAhead m p es ls) (h : (before p es).read m ls = .ok e) :
    Begins m .primary (before p es).depth ls
      fun d rest => ((before p es).complete d.tree).read m rest = .ok e := by
  cases hahead with
  | number v literal rest =>
      rw [read_number] at h
      exact ⟨.number v literal, rest, rfl, admissible_number, stopsBefore_of_complete h, h⟩
  | name name word rest hknown hcall =>
      rw [read_name word hknown hcall] at h
      exact ⟨.name name word, rest, rfl, admissible_name.mpr hknown, stopsBefore_of_complete h, h⟩
  | call name word opening rest function hfunction hdepth =>
      rw [read_call word opening hfunction hdepth] at h
      obtain ⟨args, rest', rfl, hargs, -, closing, ahead, rfl, harity, hread⟩ :=
        begins_arguments (ih.mono (Nat.le_succ _)) h
      refine ⟨.call name word opening args closing, ahead, ?_, ?_, stopsBefore_of_complete hread,
        hread⟩
      · simp
      · exact admissible_call.mpr ⟨⟨function, hfunction, harity⟩, hdepth, hargs⟩
  | group opening rest hdepth =>
      rw [read_group opening hdepth] at h
      obtain ⟨inner, rest', rfl, hinner, hstop, hread⟩ := ih rest (by simp) _ e h
      rw [depth_enclosed] at hinner
      have hclose := operatorAhead_of_read hread
      cases hclose with
      | operator outer op sign ahead =>
          exact absurd hstop (Category.not_stopsBefore_operator sign ahead)
      | closeParen enclosure outer closing ahead =>
          rw [read_closeParen_group] at hread
          refine ⟨.group opening inner closing, ahead, ?_, ?_, stopsBefore_of_complete hread, hread⟩
          · simp
          · exact admissible_group.mpr ⟨hdepth, hinner⟩

theorem begins_unary
    {ls : List Lexeme} (ih : BeginsExprBelow m ls.length)
    (hsign : p.negation = none) (h : (before p es).read m ls = .ok e) :
    Begins m .unary (before p es).depth ls
      fun d rest => (after p es d.tree).read m rest = .ok e := by
  rcases primaryAhead_or_minus_of_read h with hahead | ⟨minus, ahead, rfl, -, hrun⟩
  · obtain ⟨operand, rest, rfl, hoperand, hstop, hread⟩ := begins_primary ih hahead h
    rw [complete_before hsign] at hread
    exact ⟨positive operand, rest, rfl, admissible_positive.mpr hoperand, hstop, hread⟩
  · rw [read_minus minus hsign hrun] at h
    -- A second minus sign is refused while the first one waits.
    rcases primaryAhead_or_minus_of_read h with hahead | ⟨minus', ahead', -, htwice, -⟩
    · obtain ⟨operand, rest, rfl, hoperand, hstop, hread⟩ :=
        begins_primary (ih.mono (Nat.le_succ _)) hahead h
      rw [complete_negated hsign] at hread
      exact ⟨negative minus operand, rest, rfl, admissible_negative.mpr hoperand, hstop, hread⟩
    · cases htwice

/-! ## Chains of operators -/

theorem begins_power
    {ls : List Lexeme} (ih : BeginsExprBelow m ls.length)
    (hsign : p.negation = none) (h : (before p es).read m ls = .ok e) :
    Begins m .power (before p es).depth ls
      fun d rest => (after p es d.tree).read m rest = .ok e := by
  -- An exponent is a power again, with one more power that waits for it.
  induction hn : ls.length using Nat.strongRecOn generalizing p ls with
  | ind n ihn =>
    subst hn
    obtain ⟨base, rest, rfl, hbase, hstop, hread⟩ := begins_unary ih hsign h
    rcases operator_or_stopsBefore_of_operatorAhead (operatorAhead_of_read hread) with
      ⟨op, sign, ahead, rfl⟩ | hend
    · by_cases hpow : op = .pow
      · subst hpow
        have hdepth := depth_of_read_pow hread
        have hshorter := length_lt_of_append_cons sign.1 base.yield ahead
        rw [read_operator sign (beginsOperand_of_read hread) (fun _ => hdepth)] at hread
        obtain ⟨exponent, rest', rfl, hexponent, hstop', hread'⟩ :=
          ihn ahead.length hshorter (ih.mono (Nat.le_of_lt hshorter))
            ((negation_push .pow _).trans hsign) hread rfl
        rw [depth_push_pow] at hexponent
        rw [read_after_push_pow sign.1.position base.tree hstop'] at hread'
        refine ⟨.power base (powerMore sign exponent), rest', ?_, ?_, hstop', hread'⟩
        · simp
        · exact admissible_power.mpr ⟨hbase, admissible_powerMore.mpr ⟨hdepth, hexponent⟩⟩
      · refine ⟨.power base powerEnd, sign.1 :: ahead, ?_, ?_, ?_, hread⟩
        · simp
        · exact admissible_power.mpr ⟨hbase, admissible_powerEnd⟩
        · cases op with
          | pow => contradiction
          | add | sub | mul | div => exact (Category.stopsBefore_cons_iff sign).mpr (by decide)
    · refine ⟨.power base powerEnd, rest, ?_, ?_, hend.mono (by decide), hread⟩
      · simp
      · exact admissible_power.mpr ⟨hbase, admissible_powerEnd⟩

theorem begins_termRest
    {ls : List Lexeme} {left : Expr}
    (ih : BeginsExprBelow m ls.length)
    (hp : Category.termRest.Admits p) (hstop : Category.power.StopsBefore ls)
    (h : (after p es left).read m ls = .ok e) :
    Begins m .termRest (before p es).depth ls
      fun d rest => (after p es (d.tree left)).read m rest = .ok e := by
  induction hn : ls.length using Nat.strongRecOn generalizing left ls with
  | ind n ihn =>
    subst hn
    rcases operator_or_stopsBefore_of_operatorAhead (operatorAhead_of_read h) with
      ⟨op, sign, ahead, rfl⟩ | hend
    · by_cases hop : op = .mul ∨ op = .div
      · have hpow := Operator.ne_pow_of_product hop
        rw [read_operator sign (beginsOperand_of_read h) (fun h => absurd h hpow)] at h
        obtain ⟨next, rest, rfl, hnext, hstopNext, hread⟩ :=
          begins_power (ih.mono (Nat.le_succ _)) ((negation_push op _).trans hp.1) h
        have hshorter := length_lt_of_cons_append sign.1 next.yield rest
        rw [read_after_push_product hop sign.1.position left hp.2.1 hp.2.2 hstopNext] at hread
        obtain ⟨others, rest', rfl, hothers, hstopOthers, hread'⟩ :=
          ihn rest.length hshorter (ih.mono (Nat.le_of_lt hshorter)) hstopNext hread rfl
        rw [depth_push hpow hp.2.2] at hnext
        refine ⟨termMore op hop sign next others, rest', ?_, ?_, hstopOthers, hread'⟩
        · simp
        · exact admissible_termMore.mpr ⟨hnext, hothers⟩
      · refine ⟨termEnd, _, rfl, admissible_termEnd, ?_, h⟩
        cases op with
        | pow => exact absurd hstop (Category.not_stopsBefore rfl (by decide) sign ahead)
        | mul | div => simp at hop
        | add | sub => exact (Category.stopsBefore_cons_iff sign).mpr (by decide)
    · exact ⟨termEnd, ls, rfl, admissible_termEnd, hend.mono (by decide), h⟩

theorem begins_term
    {ls : List Lexeme} (ih : BeginsExprBelow m ls.length)
    (hp : Category.term.Admits p) (h : (before p es).read m ls = .ok e) :
    Begins m .term (before p es).depth ls
      fun d rest => (after p es d.tree).read m rest = .ok e := by
  obtain ⟨first, rest, rfl, hfirst, hstop, hread⟩ := begins_power ih hp.1 h
  have hle : rest.length ≤ (first.yield ++ rest).length := by simp
  obtain ⟨others, rest', rfl, hothers, hstopOthers, hread'⟩ :=
    begins_termRest (ih.mono hle) hp hstop hread
  refine ⟨term first others, rest', ?_, ?_, hstopOthers, hread'⟩
  · simp
  · exact admissible_term.mpr ⟨hfirst, hothers⟩

theorem begins_exprRest
    {ls : List Lexeme} {left : Expr}
    (ih : BeginsExprBelow m ls.length)
    (hstop : Category.term.StopsBefore ls) (h : (after .empty es left).read m ls = .ok e) :
    Begins m .exprRest (before .empty es).depth ls
      fun d rest => (after .empty es (d.tree left)).read m rest = .ok e := by
  induction hn : ls.length using Nat.strongRecOn generalizing left ls with
  | ind n ihn =>
    subst hn
    rcases operator_or_stopsBefore_of_operatorAhead (operatorAhead_of_read h) with
      ⟨op, sign, ahead, rfl⟩ | hend
    · by_cases hop : op = .add ∨ op = .sub
      · have hpow := Operator.ne_pow_of_sum hop
        have hadmits : Category.term.Admits (Pending.empty.push op sign.1.position left) := by
          rcases hop with rfl | rfl <;> exact ⟨rfl, rfl, rfl⟩
        rw [read_operator sign (beginsOperand_of_read h) (fun h => absurd h hpow)] at h
        obtain ⟨next, rest, rfl, hnext, hstopNext, hread⟩ :=
          begins_term (ih.mono (Nat.le_succ _)) hadmits h
        have hshorter := length_lt_of_cons_append sign.1 next.yield rest
        rw [read_after_push_sum hop sign.1.position left hstopNext] at hread
        obtain ⟨others, rest', rfl, hothers, hstopOthers, hread'⟩ :=
          ihn rest.length hshorter (ih.mono (Nat.le_of_lt hshorter)) hstopNext hread rfl
        rw [depth_push hpow rfl] at hnext
        refine ⟨exprMore op hop sign next others, rest', ?_, ?_, hstopOthers, hread'⟩
        · simp
        · exact admissible_exprMore.mpr ⟨hnext, hothers⟩
      · cases op with
        | pow => exact absurd hstop (Category.not_stopsBefore rfl (by decide) sign ahead)
        | mul | div => exact absurd hstop (Category.not_stopsBefore rfl (by decide) sign ahead)
        | add | sub => simp at hop
    · exact ⟨exprEnd, ls, rfl, admissible_exprEnd, hend, h⟩

/-! ## Expressions -/

/-- The induction on the number of lexemes. -/
theorem beginsExprBelow (m : Memory) (n : Nat) : BeginsExprBelow m n := by
  induction n with
  | zero =>
      intro ls hls
      cases hls
  | succ n ih =>
      intro ls hls es e h
      have hbelow : BeginsExprBelow m ls.length := ih.mono (Nat.le_of_lt_succ hls)
      obtain ⟨first, rest, rfl, hfirst, hstop, hread⟩ := begins_term hbelow ⟨rfl, rfl, rfl⟩ h
      have hle : rest.length ≤ (first.yield ++ rest).length := by simp
      obtain ⟨others, rest', rfl, hothers, hstopOthers, hread'⟩ :=
        begins_exprRest (hbelow.mono hle) hstop hread
      refine ⟨expr first others, rest', ?_, ?_, hstopOthers, hread'⟩
      · simp
      · exact admissible_expr.mpr ⟨hfirst, hothers⟩

end Unfinished

/-- Lexemes are read as an expression exactly if they have an admissible derivation, and the
expression is its tree. -/
theorem Expr.read_eq_ok_iff
    {m : Memory} {ls : List Lexeme} {e : Expr} :
    Expr.read m ls = .ok e ↔
      ∃ d : Derivation .expr, d.yield = ls ∧ d.Admissible m 0 ∧ d.tree = e := by
  constructor
  · intro h
    obtain ⟨d, rest, rfl, hadm, hstop, hread⟩ :=
      beginsExprBelow m (ls.length + 1) ls (Nat.lt_succ_self _) [] e h
    have hend := operatorAhead_of_read hread
    cases hend with
    | finished =>
        refine ⟨d, by simp, hadm, ?_⟩
        exact Except.ok.inj hread
    | operator outer op sign ahead =>
        exact absurd hstop (Category.not_stopsBefore_operator sign ahead)
  · rintro ⟨d, rfl, hadm, rfl⟩
    exact d.read_yield hadm

end Calculator
