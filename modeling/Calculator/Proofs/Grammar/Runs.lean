import Calculator.Proofs.Grammar.Lookahead
import Calculator.Proofs.Grammar.Parens
import Calculator.Proofs.Grammar.Relocation

/-!
# Runs of operators

A run is a longest stretch of operators.  Which runs are legal depends on whether an operand stands
before them (`LegalRun`), and what stands there also decides what the reader expects
(`Unfinished.PassesAll.focus_of_getLast`).  So all runs that are passed are legal
(`Unfinished.PassesAll.legalRun`), a run is reported exactly where the reader comes to one that is
not (`Unfinished.step_eq_operatorRun_iff`), and the first such run ends the reading
(`Expr.exists_firstIllegalRun`, `Expr.read_of_illegal_run`).
-/

namespace Calculator

/-- The lexeme may be the last one of an operand. -/
def Lexeme.endsOperand (l : Lexeme) : Bool :=
  match l.token with
  | .number _ | .identifier _ | .closeParen => true
  | _ => false

/-- The last of the lexemes ends an operand. -/
def EndsOperand (before : List Lexeme) : Prop :=
  ∃ l ∈ before.getLast?, l.endsOperand = true

/-- `run` is a longest stretch of operators among some lexemes, with `before` and `after` around
it. -/
structure OperatorRun (ls before run after : List Lexeme) : Prop where
  cut : ls = before ++ (run ++ after)
  nonempty : run ≠ []
  operators : ∀ l ∈ run, l.isOperator = true
  begins : ∀ l ∈ before.getLast?, l.isOperator = false
  ends : ∀ l ∈ after.head?, l.isOperator = false

/-- The runs that may stand after some lexemes: after an operand one operator, or one and a minus
sign, and elsewhere a single minus sign. -/
inductive LegalRun (before : List Lexeme) : List Lexeme → Prop where
  | operator (sign : Lexeme) (h : EndsOperand before) : LegalRun before [sign]
  | negated (sign minus : Lexeme) (h : EndsOperand before)
      (hminus : minus.token = .operator .sub) : LegalRun before [sign, minus]
  | negation (minus : Lexeme) (h : ¬EndsOperand before) (hminus : minus.token = .operator .sub) :
      LegalRun before [minus]

/-- The leftmost run that is not legal. -/
structure FirstIllegalRun (ls before run after : List Lexeme) : Prop
    extends OperatorRun ls before run after where
  illegal : ¬LegalRun before run
  leftmost : ∀ before' run' after', OperatorRun ls before' run' after' → ¬LegalRun before' run' →
    before.length ≤ before'.length

variable {m : Memory} {l first last : Lexeme} {e : Expr}
  {ls front head value ahead before run after after' ops : List Lexeme}

/-! ## Runs among lexemes -/

theorem not_endsOperand_nil : ¬EndsOperand [] := by
  rintro ⟨l, ⟨⟩, -⟩

theorem endsOperand_append (h : ¬EndsOperand head) :
    EndsOperand (head ++ before) ↔ EndsOperand before := by
  unfold EndsOperand at h ⊢
  rcases List.eq_nil_or_concat before with rfl | ⟨front, l, rfl⟩
  · simpa using h
  · rw [List.concat_eq_append, ← List.append_assoc, List.getLast?_concat, List.getLast?_concat]

theorem LegalRun.congr
    (h : LegalRun before run) (hends : EndsOperand before ↔ EndsOperand front) :
    LegalRun front run := by
  cases h with
  | operator sign hbefore => exact .operator sign (hends.mp hbefore)
  | negated sign minus hbefore hminus => exact .negated sign minus (hends.mp hbefore) hminus
  | negation minus hbefore hminus =>
      exact .negation minus (fun hfront => hbefore (hends.mpr hfront)) hminus

theorem legalRun_append_iff (h : ¬EndsOperand head) :
    LegalRun (head ++ before) run ↔ LegalRun before run :=
  ⟨fun hlegal => hlegal.congr (endsOperand_append h),
    fun hlegal => hlegal.congr (endsOperand_append h).symm⟩

theorem LegalRun.of_map_relocate
    {f : Nat → Nat} (h : LegalRun before (ops.map (·.relocate f))) : LegalRun before ops := by
  generalize hrun : ops.map (·.relocate f) = run at h
  cases h with
  | operator sign hends =>
      obtain ⟨op, rfl, -⟩ := List.map_eq_singleton_iff.mp hrun
      exact .operator op hends
  | negated sign minus hends hminus =>
      obtain ⟨op, others, rfl, -, hothers⟩ := List.map_eq_cons_iff.mp hrun
      obtain ⟨other, rfl, rfl⟩ := List.map_eq_singleton_iff.mp hothers
      exact .negated op other hends hminus
  | negation minus hends hminus =>
      obtain ⟨op, rfl, rfl⟩ := List.map_eq_singleton_iff.mp hrun
      exact .negation op hends hminus

/-- The run behind its first operator is all that this sees ahead. -/
theorem operatorsAhead_append
    (hrun : ∀ l ∈ run, l.isOperator = true) (hafter : ∀ l ∈ after.head?, l.isOperator = false) :
    operatorsAhead (run ++ after) = run := by
  rw [operatorsAhead_append_of_head hafter, operatorsAhead, List.takeWhile_eq_self_iff]
  exact hrun

namespace OperatorRun

/-- Runs stand behind lexemes that are no operators. -/
theorem append_iff
    (hhead : ∀ l ∈ head, l.isOperator = false) :
    OperatorRun (head ++ value) before run after ↔
      ∃ front, before = head ++ front ∧ OperatorRun value front run after := by
  constructor
  · rintro ⟨hcut, hnonempty, hoperators, hbegins, hends⟩
    rcases List.append_eq_append_iff.mp hcut.symm with ⟨front, rfl, hfront⟩ | ⟨front, rfl, hfront⟩
    · -- The first operator of the run would stand in `head`.
      obtain ⟨sign, others, rfl⟩ := List.exists_cons_of_ne_nil hnonempty
      cases front with
      | nil => exact ⟨[], by simp, hfront.symm, hnonempty, hoperators, by simp, hends⟩
      | cons other front =>
          obtain ⟨rfl, -⟩ := List.cons.inj hfront
          have hsign := hoperators sign List.mem_cons_self
          rw [hhead sign (by simp)] at hsign
          cases hsign
    · refine ⟨front, rfl, hfront, hnonempty, hoperators, fun l hl => hbegins l ?_, hends⟩
      rw [List.getLast?_append, Option.mem_def.mp hl]
      rfl
  · rintro ⟨front, rfl, rfl, hnonempty, hoperators, hbegins, hends⟩
    refine ⟨List.append_assoc .. |>.symm, hnonempty, hoperators, fun l hl => ?_, hends⟩
    rcases List.eq_nil_or_concat front with rfl | ⟨front, other, rfl⟩
    · rw [List.append_nil] at hl
      exact hhead l (List.mem_of_getLast? hl)
    · rw [List.concat_eq_append] at hbegins
      rw [List.concat_eq_append, ← List.append_assoc, List.getLast?_concat] at hl
      exact hbegins l (by rw [List.getLast?_concat]; exact hl)

/-- A run that begins to the left of a place between two runs also ends there. -/
theorem exists_append_of_lt
    (h : OperatorRun (front ++ ahead) before run after)
    (hfront : ∀ l ∈ front.getLast?, l.isOperator = false) (hlt : before.length < front.length) :
    ∃ between, front = (before ++ run) ++ between ∧ after = between ++ ahead := by
  have hcut := h.cut
  rw [← List.append_assoc] at hcut
  rcases List.append_eq_append_iff.mp hcut with ⟨between, hbetween, -⟩ | ⟨between, rfl, rfl⟩
  · -- Else the last lexeme of `front` would be one of the run.
    rcases List.append_eq_append_iff.mp hbetween with ⟨others, rfl, hrun⟩ | ⟨others, rfl, -⟩
    · rcases List.eq_nil_or_concat others with rfl | ⟨inner, l, rfl⟩
      · simp at hlt
      · have hl := hfront l (by rw [List.concat_eq_append, ← List.append_assoc]; simp)
        rw [h.operators l (by simp [hrun])] at hl
        cases hl
    · rw [List.length_append] at hlt
      omega
  · exact ⟨between, rfl, rfl⟩

/-- Other operators in place of a run are a run, wherever what comes after them is moved to. -/
theorem replace
    (h : OperatorRun ls before run after) (hops : ∀ l ∈ ops, l.isOperator = true)
    (hne : ops ≠ []) (f : Nat → Nat) :
    OperatorRun (before ++ (ops ++ after.map (·.relocate f))) before ops
      (after.map (·.relocate f)) where
  cut := rfl
  nonempty := hne
  operators := hops
  begins := h.begins
  ends := fun l hl => by
    rw [List.head?_map] at hl
    obtain ⟨origin, horigin, rfl⟩ := Option.map_eq_some_iff.mp hl
    exact h.ends origin horigin

/-- An operator and those right after it are a run, if no operator stands before them. -/
theorem of_operatorsAhead
    (hl : l.isOperator = true) (hbegins : ∀ l ∈ before.getLast?, l.isOperator = false) :
    OperatorRun (before ++ l :: ahead) before (l :: operatorsAhead ahead)
      (ahead.dropWhile Lexeme.isOperator) where
  cut := by rw [List.cons_append, operatorsAhead, List.takeWhile_append_dropWhile]
  nonempty := List.cons_ne_nil _ _
  operators := List.forall_mem_cons.mpr ⟨hl, fun _ hmem => List.mem_takeWhile_imp hmem⟩
  begins := hbegins
  ends := fun next hnext => by
    have hstop := List.head?_dropWhile_not Lexeme.isOperator ahead
    rwa [Option.mem_def.mp hnext] at hstop

end OperatorRun

namespace Unfinished

variable {u v next : Unfinished}

/-! ## What is expected before a run -/

theorem PassesAll.split
    (h : PassesAll m ahead u (front ++ ls) v) :
    ∃ w, PassesAll m (ls ++ ahead) u front w ∧ PassesAll m ahead w ls v := by
  induction front generalizing u with
  | nil => exact ⟨u, .nil u, h⟩
  | cons l front ih =>
      cases h with
      | cons hpasses hrest =>
          obtain ⟨w, hfront, hls⟩ := ih hrest
          refine ⟨w, .cons ?_ hfront, hls⟩
          rw [← List.append_assoc]
          exact hpasses

/-- After a lexeme that is no operator, and not a name that is called, an operand is complete if one
ends there, and else one must come. -/
theorem Passes.focus_of_not_operator
    (h : Passes m u l ahead next) (hcallee : u.CalleeAhead (l :: ahead))
    (hoperator : l.isOperator = false) (hcall : isCallAhead ahead = false) :
    l.endsOperand = true ∧ (∃ e, next.focus = .value e) ∨
      l.endsOperand = false ∧ next.AtOperand := by
  cases h with
  | number _ _ htoken | name _ _ htoken | closeEmpty _ htoken | closeGroup _ _ htoken
  | closeCall _ _ htoken => exact .inl ⟨by rw [Lexeme.endsOperand, htoken], _, rfl⟩
  | openGroup _ htoken | comma _ _ htoken =>
      exact .inr ⟨by rw [Lexeme.endsOperand, htoken], .inl rfl⟩
  | openCall name function hfocus =>
      have htoken : l.token = .openParen := by
        simpa [isCallAhead] using hcallee name function hfocus
      exact .inr ⟨by rw [Lexeme.endsOperand, htoken], .inr rfl⟩
  | callee _ _ _ hcalled =>
      rw [hcall] at hcalled
      cases hcalled
  | minus _ htoken | operator _ _ _ htoken =>
      rw [Lexeme.isOperator_of_token htoken] at hoperator
      cases hoperator

/-- Before a run, what the reader expects depends on what the lexemes up to there end with. -/
theorem PassesAll.focus_of_getLast
    (h : PassesAll m ahead .start front v) (hcall : isCallAhead ahead = false)
    (hlast : ∀ last ∈ front.getLast?, last.isOperator = false) :
    EndsOperand front ∧ (∃ e, v.focus = .value e) ∨ ¬EndsOperand front ∧ v.AtOperand := by
  rcases List.eq_nil_or_concat front with rfl | ⟨front, l, rfl⟩
  · cases h
    exact .inr ⟨not_endsOperand_nil, .inl rfl⟩
  · rw [List.concat_eq_append] at h hlast ⊢
    rw [List.getLast?_concat] at hlast
    obtain ⟨w, hfront, hl⟩ := h.split
    have hcallee := hfront.calleeAhead calleeAhead_start
    cases hl with
    | cons hpasses hrest =>
        cases hrest
        unfold EndsOperand
        rw [List.getLast?_concat]
        rcases hpasses.focus_of_not_operator hcallee (hlast l rfl) hcall with
          ⟨hends, hfocus⟩ | ⟨hends, hfocus⟩
        · exact .inl ⟨⟨l, rfl, hends⟩, hfocus⟩
        · refine .inr ⟨?_, hfocus⟩
          rintro ⟨_, ⟨⟩, htrue⟩
          rw [hends] at htrue
          cases htrue

/-! ## Runs that are passed -/

theorem isCallAhead_of_isOperator (h : l.isOperator = true) (ahead : List Lexeme) :
    isCallAhead (l :: ahead) = false := by
  by_contra hcall
  have htoken : l.token = .openParen := by simpa [isCallAhead] using hcall
  rw [Lexeme.isOperator, htoken] at h
  cases h

/-- A run that is passed is legal. -/
theorem PassesAll.legalRun
    (h : PassesAll m ahead .start (before ++ run) v)
    (hrun : OperatorRun ls before run ahead) : LegalRun before run := by
  obtain ⟨w, hbefore, hpasses⟩ := h.split
  obtain ⟨sign, others, rfl⟩ := List.exists_cons_of_ne_nil hrun.nonempty
  have hsign := hrun.operators sign List.mem_cons_self
  have hfocus := hbefore.focus_of_getLast (isCallAhead_of_isOperator hsign _) hrun.begins
  have hothers : operatorsAhead (others ++ ahead) = others :=
    operatorsAhead_append (fun l hl => hrun.operators l (List.mem_cons_of_mem _ hl)) hrun.ends
  cases hpasses with
  | cons hstep _ =>
      cases hstep with
      | minus hoperand htoken hahead =>
          rw [hothers] at hahead
          subst hahead
          rcases hfocus with ⟨hends, -⟩ | ⟨hends, -⟩
          · exact .operator sign hends
          · exact .negation sign hends htoken
      | operator value hvalue op htoken hahead =>
          rcases hfocus with ⟨hends, -⟩ | ⟨-, hoperand | hoperand⟩
          · rcases hahead with hahead | hahead
            · rw [isNegationAhead, hothers, decide_eq_true_eq] at hahead
              obtain ⟨minus, rfl, hminus⟩ := List.map_eq_singleton_iff.mp hahead
              exact .negated sign minus hends hminus
            · rw [hothers] at hahead
              subst hahead
              exact .operator sign hends
          · cases hvalue.symm.trans hoperand
          · cases hvalue.symm.trans hoperand
      | number _ _ htoken | name _ _ htoken | callee _ _ htoken | openGroup _ htoken
      | closeEmpty _ htoken | closeGroup _ _ htoken | closeCall _ _ htoken | comma _ _ htoken =>
          rw [Lexeme.isOperator, htoken] at hsign
          cases hsign
      | openCall name function hcallee =>
          rcases hfocus with ⟨-, e, hvalue⟩ | ⟨-, hoperand | hoperand⟩
          · cases hcallee.symm.trans hvalue
          · cases hcallee.symm.trans hoperand
          · cases hcallee.symm.trans hoperand

/-! ## Runs that are reported -/

theorem enclose_ne_operatorRun
    {paren : Lexeme} {opening : Opening} {focus : Focus} :
    u.enclose paren opening focus ≠ .error (.operatorRun first last) := by
  unfold enclose
  split <;> simp

theorem closeCall_ne_operatorRun
    {outside : Pending} {outer : List Enclosure} {name : Lexeme} {function : Primitive}
    {arguments : List Expr} :
    closeCall outside outer name function arguments ≠ .error (.operatorRun first last) := by
  unfold closeCall
  split <;> simp

theorem readOperand_eq_operatorRun_iff :
    u.readOperand m l ahead = .error (.operatorRun first last) ↔
      first = l ∧ l.isOperator = true ∧ last ∈ (operatorsAhead ahead).getLast? := by
  unfold readOperand runFault? Lexeme.isOperator
  cases l.token with
  | operator op =>
      cases (operatorsAhead ahead).getLast? with
      | none =>
          dsimp only [Option.map_none]
          split <;> simp
      | some other => simp [Token.isOperator, Token.operator?, eq_comm]
  | identifier name =>
      dsimp only
      split <;> split <;> simp [Token.isOperator, Token.operator?]
  | closeParen => cases u.enclosures <;> simp [Token.isOperator, Token.operator?]
  | openParen => simp [enclose_ne_operatorRun, Token.isOperator, Token.operator?]
  | number | letWord | comma | equals | endOfInput => simp [Token.isOperator, Token.operator?]

theorem readOperator_eq_operatorRun_iff :
    u.readOperator e l ahead = .error (.operatorRun first last) ↔
      first = l ∧ l.isOperator = true ∧ last ∈ (operatorsAhead ahead).getLast? ∧
        isNegationAhead ahead = false := by
  unfold readOperator runFault? Lexeme.isOperator
  cases l.token with
  | operator op =>
      cases isNegationAhead ahead with
      | true =>
          rw [if_pos rfl]
          dsimp only
          split <;> simp
      | false =>
          cases (operatorsAhead ahead).getLast? with
          | none =>
              rw [Option.map_none, ite_self]
              dsimp only
              split <;> simp
          | some other => simp [Token.isOperator, Token.operator?, eq_comm]
  | closeParen | comma =>
      dsimp only
      split <;> simp [closeCall_ne_operatorRun, Token.isOperator, Token.operator?]
  | number | letWord | identifier | openParen | equals | endOfInput =>
      simp [Token.isOperator, Token.operator?]

/-- A run is reported at its first operator if that is not legal there: where an operand must come,
any other operator after it is too many, and after an operand all but a single minus sign. -/
theorem step_eq_operatorRun_iff :
    u.step m l ahead = .error (.operatorRun first last) ↔
      first = l ∧ l.isOperator = true ∧ last ∈ (operatorsAhead ahead).getLast? ∧
        (u.AtOperand ∨ (∃ e, u.focus = .value e) ∧ isNegationAhead ahead = false) := by
  unfold step AtOperand
  cases u.focus with
  | operand => simp [readOperand_eq_operatorRun_iff]
  | firstArgument =>
      dsimp only
      split
      · rename_i htoken _
        simp [closeCall_ne_operatorRun, Lexeme.isOperator, htoken, Token.isOperator,
          Token.operator?]
      · simp [readOperand_eq_operatorRun_iff]
  | callee name function => simp [enclose_ne_operatorRun]
  | value e => simp [readOperator_eq_operatorRun_iff]

/-- The run that is reported is the one at hand, if it is not legal where it stands. -/
theorem PassesAll.step_eq_operatorRun_iff
    (h : PassesAll m (l :: ahead) .start front v)
    (hfront : ∀ l ∈ front.getLast?, l.isOperator = false) :
    v.step m l ahead = .error (.operatorRun first last) ↔
      first = l ∧ l.isOperator = true ∧ last ∈ (operatorsAhead ahead).getLast? ∧
        ¬LegalRun front (l :: operatorsAhead ahead) := by
  rw [Unfinished.step_eq_operatorRun_iff]
  refine and_congr_right fun _ => and_congr_right fun hl => and_congr_right fun hlast => ?_
  unfold isNegationAhead
  generalize operatorsAhead ahead = others at hlast
  rcases h.focus_of_getLast (isCallAhead_of_isOperator hl ahead) hfront with
    ⟨hends, e, hvalue⟩ | ⟨hends, hoperand⟩
  · constructor
    · rintro (hoperand | ⟨-, hnegation⟩) hlegal
      · rcases hoperand with hoperand | hoperand <;> cases hvalue.symm.trans hoperand
      · cases hlegal with
        | operator => cases hlast
        | negated _ minus _ hminus => simp [hminus] at hnegation
        | negation _ hbefore => exact hbefore hends
    · intro hlegal
      refine .inr ⟨⟨e, hvalue⟩, decide_eq_false fun hnegation => hlegal ?_⟩
      obtain ⟨minus, rfl, hminus⟩ := List.map_eq_singleton_iff.mp hnegation
      exact .negated l minus hends hminus
  · constructor
    · rintro - hlegal
      cases hlegal with
      | operator _ hbefore | negated _ _ hbefore => exact hends hbefore
      | negation => cases hlast
    · exact fun _ => .inl hoperand

/-- Before a run that is reported stands no operator. -/
theorem Passes.isOperator_eq_false
    {sign : Lexeme} (h : Passes m u l (sign :: ahead) next)
    (hcallee : u.CalleeAhead (l :: sign :: ahead)) (hsign : sign.isOperator = true)
    (hahead : operatorsAhead ahead ≠ []) : l.isOperator = false := by
  have hrun : operatorsAhead (sign :: ahead) = sign :: operatorsAhead ahead :=
    List.takeWhile_cons_of_pos hsign
  cases h with
  | number _ _ htoken | name _ _ htoken | callee _ _ htoken | openGroup _ htoken
  | closeEmpty _ htoken | closeGroup _ _ htoken | closeCall _ _ htoken | comma _ _ htoken =>
      rw [Lexeme.isOperator, htoken]
      rfl
  | openCall name function hfocus =>
      have htoken : l.token = .openParen := by
        simpa [isCallAhead] using hcallee name function hfocus
      rw [Lexeme.isOperator, htoken]
      rfl
  | minus _ _ hnone =>
      rw [hrun] at hnone
      cases hnone
  | operator _ _ _ _ hbegins =>
      rw [BeginsOperand, isNegationAhead, hrun] at hbegins
      rcases hbegins with hnegation | hnone
      · rw [decide_eq_true_eq] at hnegation
        exact absurd (List.map_eq_nil_iff.mp (List.cons.inj hnegation).2) hahead
      · cases hnone

theorem PassesAll.isOperator_of_getLast
    {sign : Lexeme} (h : PassesAll m (sign :: ahead) .start front v)
    (hsign : sign.isOperator = true) (hahead : operatorsAhead ahead ≠ []) :
    ∀ l ∈ front.getLast?, l.isOperator = false := by
  rcases List.eq_nil_or_concat front with rfl | ⟨front, l, rfl⟩
  · rintro _ ⟨⟩
  · rw [List.concat_eq_append] at h ⊢
    rw [List.getLast?_concat]
    rintro _ ⟨⟩
    obtain ⟨w, hfront, hl⟩ := h.split
    cases hl with
    | cons hpasses hrest =>
        exact hpasses.isOperator_eq_false (hfront.calleeAhead calleeAhead_start) hsign hahead

end Unfinished

namespace Expr

open Unfinished

/-- The run of a fault is the leftmost that is not legal. -/
theorem exists_firstIllegalRun
    (h : Expr.read m ls = .error (.operatorRun first last)) :
    ∃ before run after, FirstIllegalRun ls before run after ∧ 2 ≤ run.length ∧
      first ∈ run.head? ∧ last ∈ run.getLast? := by
  rcases exists_passesAll_of_read_error h with
    ⟨front, l, ahead, v, rfl, hfront, hstep⟩ | ⟨v, -, hfinish⟩
  · obtain ⟨-, hl, hlast, -⟩ := Unfinished.step_eq_operatorRun_iff.mp hstep
    have hmany : operatorsAhead ahead ≠ [] := by
      rintro hnone
      rw [hnone] at hlast
      cases hlast
    have hbegins := hfront.isOperator_of_getLast hl hmany
    obtain ⟨rfl, -, -, hillegal⟩ := (hfront.step_eq_operatorRun_iff hbegins).mp hstep
    refine ⟨front, first :: operatorsAhead ahead, ahead.dropWhile Lexeme.isOperator,
      ⟨.of_operatorsAhead hl hbegins, hillegal, ?_⟩, ?_, rfl, ?_⟩
    · intro before run after hrun hrunIllegal
      by_contra hlt
      obtain ⟨between, rfl, rfl⟩ := hrun.exists_append_of_lt hbegins (Nat.lt_of_not_le hlt)
      obtain ⟨w, hpasses, -⟩ := hfront.split
      exact hrunIllegal (hpasses.legalRun hrun)
    · exact Nat.succ_le_succ (List.length_pos_iff.mpr hmany)
    · rw [List.getLast?_cons, Option.mem_def.mp hlast]
      rfl
  · unfold finish endFault at hfinish
    split at hfinish
    · cases hfinish
    · split at hfinish <;> cases hfinish

/-- All runs of an expression that is read are legal. -/
theorem legalRun_of_read
    (h : Expr.read m ls = .ok e) (hrun : OperatorRun ls before run after) :
    LegalRun before run := by
  rw [hrun.cut, ← List.append_assoc] at h
  obtain ⟨v, hpasses, -⟩ := exists_passesAll_of_read h
  exact hpasses.legalRun hrun

/-- If a run of an expression that is read is replaced by operators that are not legal there, they
are reported. -/
theorem read_of_illegal_run
    {ls' : List Lexeme} (h : Expr.read m ls = .ok e) (hrun : OperatorRun ls before run after)
    (hops : OperatorRun ls' before ops after') (hillegal : ¬LegalRun before ops)
    (hmany : 2 ≤ ops.length) (hfirst : first ∈ ops.head?) (hlast : last ∈ ops.getLast?) :
    Expr.read m ls' = .error (.operatorRun first last) := by
  obtain ⟨sign, others, rfl⟩ := List.exists_cons_of_ne_nil hrun.nonempty
  obtain ⟨first, others', rfl⟩ := List.exists_cons_of_ne_nil hops.nonempty
  cases hfirst
  have hsign := hrun.operators sign List.mem_cons_self
  have hoperator := hops.operators first List.mem_cons_self
  have hothers : operatorsAhead (others' ++ after') = others' :=
    operatorsAhead_append (fun l hl => hops.operators l (List.mem_cons_of_mem _ hl)) hops.ends
  rw [hrun.cut] at h
  obtain ⟨v, hbefore, -⟩ := exists_passesAll_of_read h
  have hpasses : PassesAll m (first :: (others' ++ after')) .start before v :=
    hbefore.of_seesAlike hrun.begins
      ((isCallAhead_of_isOperator hsign _).trans (isCallAhead_of_isOperator hoperator _).symm)
  have hlast' : last ∈ others'.getLast? := by
    cases others' with
    | nil => simp at hmany
    | cons other others => rwa [List.getLast?_cons_cons] at hlast
  have hstep : v.step m first (others' ++ after') = .error (.operatorRun first last) :=
    (hpasses.step_eq_operatorRun_iff hrun.begins).mpr
      ⟨rfl, hoperator, hothers.symm ▸ hlast', hothers.symm ▸ hillegal⟩
  rw [hops.cut, List.cons_append, Expr.read, hpasses.read_eq, Unfinished.read, hstep]

end Expr

end Calculator
