import Mathlib.Data.List.TakeWhile
import Calculator.Proofs.Grammar.Passing

/-!
# What a lexeme sees of those ahead of it

A name looks whether a parenthesis follows, an operator looks at the operators right after it, and
nothing else looks ahead at all.  A lexeme therefore does the same before any lexemes that show it
the same of these (`Unfinished.step_of_seesAlike`).  Two cases matter: lexemes put at the end of a
line (`Lexeme.SeesAlike.append`), and others in place of those after some point that an operator
does not see beyond (`Lexeme.SeesAlike.of_getLast`).
-/

namespace Calculator

variable {m : Memory} {l : Lexeme} {ahead ahead' front more : List Lexeme}

/-- The lexeme sees the same in both lists of lexemes ahead. -/
structure Lexeme.SeesAlike (l : Lexeme) (ahead ahead' : List Lexeme) : Prop where
  call : ∀ name, l.token = .identifier name → isCallAhead ahead = isCallAhead ahead'
  operators : l.isOperator = true → operatorsAhead ahead = operatorsAhead ahead'

/-- Neither a parenthesis nor an operator is at the front, so that no lexeme before these sees more
of them than of the end of a line. -/
def ShowsNothing (more : List Lexeme) : Prop :=
  ∀ next ∈ more.head?, next.isOperator = false ∧ next.token ≠ .openParen

theorem Lexeme.isOperator_of_token {op : Operator} (h : l.token = .operator op) :
    l.isOperator = true := by
  rw [isOperator, h]
  rfl

/-- A lexeme that is no operator ends the operators ahead. -/
theorem operatorsAhead_append_of_getLast
    (h : ∃ last ∈ front.getLast?, last.isOperator = false) (ahead : List Lexeme) :
    operatorsAhead (front ++ ahead) = operatorsAhead front := by
  obtain ⟨last, hlast, hoperator⟩ := h
  have hmem : last ∈ front := List.mem_of_getLast? hlast
  have hshort : (front.takeWhile Lexeme.isOperator).length ≠ front.length := by
    intro hlength
    have hall : front.takeWhile Lexeme.isOperator = front :=
      (List.takeWhile_prefix _).eq_of_length hlength
    rw [List.takeWhile_eq_self_iff.mp hall last hmem] at hoperator
    cases hoperator
  rw [operatorsAhead, List.takeWhile_append, if_neg hshort]
  rfl

theorem operatorsAhead_append_of_head
    (h : ∀ next ∈ more.head?, next.isOperator = false) (ahead : List Lexeme) :
    operatorsAhead (ahead ++ more) = operatorsAhead ahead := by
  have hmore : more.takeWhile Lexeme.isOperator = [] := by
    cases more with
    | nil => rfl
    | cons next rest => rw [List.takeWhile_cons, h next rfl, if_neg Bool.false_ne_true]
  rw [operatorsAhead, operatorsAhead, List.takeWhile_append, hmore, List.append_nil]
  split
  · rename_i hlength
    exact ((List.takeWhile_prefix _).eq_of_length hlength).symm
  · rfl

namespace Lexeme.SeesAlike

/-- Up to a lexeme that is no operator all is the same, and after it only a parenthesis matters. -/
theorem of_getLast
    (hlast : ∀ last ∈ (l :: front).getLast?, last.isOperator = false)
    (hcall : isCallAhead ahead = isCallAhead ahead') :
    l.SeesAlike (front ++ ahead) (front ++ ahead') := by
  refine ⟨fun _ _ => ?_, fun hoperator => ?_⟩
  · cases front with
    | nil => exact hcall
    | cons next front => rfl
  · obtain ⟨last, hmem⟩ : ∃ last, last ∈ front.getLast? := by
      cases front with
      | nil => simp [hlast l rfl] at hoperator
      | cons next front => exact ⟨_, List.getLast?_eq_some_getLast (List.cons_ne_nil _ _)⟩
    have hstop : ∃ last ∈ front.getLast?, last.isOperator = false :=
      ⟨last, hmem, hlast last (by simp [List.getLast?_cons, Option.mem_def.mp hmem])⟩
    rw [operatorsAhead_append_of_getLast hstop, operatorsAhead_append_of_getLast hstop]

theorem append
    (h : ShowsNothing more) (l : Lexeme) (ahead : List Lexeme) :
    l.SeesAlike ahead (ahead ++ more) := by
  have hoperator : ∀ next ∈ more.head?, next.isOperator = false := fun next hnext =>
    (h next hnext).1
  refine ⟨fun _ _ => ?_, fun _ => (operatorsAhead_append_of_head hoperator ahead).symm⟩
  cases ahead with
  | nil =>
      cases more with
      | nil => rfl
      | cons next rest => simp [isCallAhead, (h next rfl).2]
  | cons next ahead => rfl

end Lexeme.SeesAlike

namespace Unfinished

variable {u v : Unfinished}

theorem step_of_seesAlike (h : l.SeesAlike ahead ahead') (u : Unfinished) :
    u.step m l ahead = u.step m l ahead' := by
  have hrun : l.isOperator = true → runFault? l ahead = runFault? l ahead' := fun hoperator => by
    rw [runFault?, h.operators hoperator, runFault?]
  have hnegation : l.isOperator = true → isNegationAhead ahead = isNegationAhead ahead' :=
    fun hoperator => by rw [isNegationAhead, h.operators hoperator, isNegationAhead]
  have hoperand : u.readOperand m l ahead = u.readOperand m l ahead' := by
    unfold readOperand
    cases htoken : l.token with
    | identifier name => simp only [h.call name htoken]
    | operator op => simp only [hrun (Lexeme.isOperator_of_token htoken)]
    | number | letWord | openParen | closeParen | comma | equals | endOfInput => rfl
  have hoperator : ∀ value, u.readOperator value l ahead = u.readOperator value l ahead' := by
    intro value
    unfold readOperator
    cases htoken : l.token with
    | operator op =>
        have hl := Lexeme.isOperator_of_token htoken
        simp only [hrun hl, hnegation hl]
    | number | letWord | identifier | openParen | closeParen | comma | equals | endOfInput => rfl
  unfold step
  cases u.focus with
  | operand => exact hoperand
  | firstArgument => simp only [hoperand]
  | callee name function => rfl
  | value expr => exact hoperator expr

/-- Lexemes up to one that is no operator are passed in the same way before any others, unless a
parenthesis comes or goes. -/
theorem PassesAll.of_seesAlike
    (h : PassesAll m ahead u front v) (hlast : ∀ last ∈ front.getLast?, last.isOperator = false)
    (hcall : isCallAhead ahead = isCallAhead ahead') : PassesAll m ahead' u front v := by
  induction h with
  | nil u => exact .nil u
  | @cons u v next l front hpasses _ ih =>
      have hstep := step_eq_ok_iff.mpr hpasses
      rw [step_of_seesAlike (.of_getLast hlast hcall)] at hstep
      refine .cons (step_eq_ok_iff.mp hstep) (ih fun last hmem => hlast last ?_)
      simp [List.getLast?_cons, Option.mem_def.mp hmem]

end Unfinished

end Calculator
