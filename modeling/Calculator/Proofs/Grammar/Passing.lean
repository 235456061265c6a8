import Calculator.Proofs.Grammar.Steps

/-!
# How lexemes are passed

All ways in which a lexeme can be read are listed once (`Unfinished.Passes`), with the condition on
the lexemes ahead in each of them.  A run through many lexemes is a chain of these
(`Unfinished.PassesAll`).  Since a lexeme asks for no more of what is ahead than that a parenthesis
follows or that no operators follow, it is still passed if the line ends earlier, unless it is a
name whose parenthesis is then missing (`Unfinished.Passes.cut`).
-/

namespace Calculator

variable {m : Memory} {lexeme : Lexeme} {front ahead rest : List Lexeme}

/-! ## Looking ahead -/

theorem runFault?_eq_none_iff : runFault? lexeme ahead = none ↔ operatorsAhead ahead = [] := by
  rw [runFault?, Option.map_eq_none_iff, List.getLast?_eq_none_iff]

theorem operatorsAhead_prefix (front ahead : List Lexeme) :
    operatorsAhead front <+: operatorsAhead (front ++ ahead) := by
  induction front with
  | nil => exact List.nil_prefix
  | cons l front ih =>
      unfold operatorsAhead at ih ⊢
      rw [List.cons_append, List.takeWhile_cons, List.takeWhile_cons]
      split
      · exact List.cons_prefix_cons.mpr ⟨rfl, ih⟩
      · exact List.nil_prefix

theorem isCallAhead_append (h : front ≠ []) :
    isCallAhead (front ++ ahead) = isCallAhead front := by
  obtain ⟨l, front, rfl⟩ := List.exists_cons_of_ne_nil h
  rfl

namespace Unfinished

variable {u v next : Unfinished}

/-! ## One lexeme -/

/-- What may follow an operator may still follow it if the line ends earlier. -/
theorem BeginsOperand.cut (h : BeginsOperand (front ++ ahead)) : BeginsOperand front := by
  have hprefix := operatorsAhead_prefix front ahead
  rcases h with h | h
  · unfold isNegationAhead at h
    rw [decide_eq_true_eq] at h
    obtain ⟨sign, hsign, htoken⟩ := List.map_eq_singleton_iff.mp h
    rw [hsign, List.prefix_cons_iff] at hprefix
    rcases hprefix with hnil | ⟨t, hcons, ht⟩
    · exact .inr hnil
    · left
      rw [isNegationAhead, hcons, List.prefix_nil.mp ht]
      simpa using htoken
  · exact .inr (List.prefix_nil.mp (h ▸ hprefix))

/-- An operand may begin here. -/
def AtOperand (u : Unfinished) : Prop :=
  u.focus = .operand ∨ u.focus = .firstArgument

/-- The lexeme is read in the state `u`, and `next` is the state after it. -/
inductive Passes (m : Memory) (u : Unfinished) (lexeme : Lexeme) (ahead : List Lexeme) :
    Unfinished → Prop where
  | number (hfocus : u.AtOperand) (value : Float) (htoken : lexeme.token = .number value) :
      Passes m u lexeme ahead (u.complete (.number lexeme.position value))
  | name (hfocus : u.AtOperand) (name : String) (htoken : lexeme.token = .identifier name)
      (hcall : isCallAhead ahead = false) (expr : Expr)
      (hresolve : m.resolve? name lexeme.position = some expr) :
      Passes m u lexeme ahead (u.complete expr)
  | callee (hfocus : u.AtOperand) (name : String) (htoken : lexeme.token = .identifier name)
      (hcall : isCallAhead ahead = true) (function : Primitive)
      (hfunction : Primitive.find? name = some function) :
      Passes m u lexeme ahead { u with focus := .callee lexeme function }
  | openGroup (hfocus : u.AtOperand) (htoken : lexeme.token = .openParen)
      (hdepth : u.depth < maxDepth) :
      Passes m u lexeme ahead ⟨.empty, ⟨lexeme, .group, u.pending⟩ :: u.enclosures, .operand⟩
  | minus (hfocus : u.AtOperand) (htoken : lexeme.token = .operator .sub)
      (hahead : operatorsAhead ahead = []) (hsign : u.pending.negation = none) :
      Passes m u lexeme ahead
        ⟨{ u.pending with negation := some lexeme.position }, u.enclosures, .operand⟩
  | openCall (name : Lexeme) (function : Primitive) (hfocus : u.focus = .callee name function)
      (hdepth : u.depth < maxDepth) :
      Passes m u lexeme ahead
        ⟨.empty, ⟨lexeme, .call name function [], u.pending⟩ :: u.enclosures, .firstArgument⟩
  | closeEmpty (hfocus : u.focus = .firstArgument) (htoken : lexeme.token = .closeParen)
      (paren name : Lexeme) (function : Primitive) (arguments : List Expr) (outside : Pending)
      (outer : List Enclosure)
      (hopen : u.enclosures = ⟨paren, .call name function arguments, outside⟩ :: outer)
      (harity : arguments.length = function.arity) :
      Passes m u lexeme ahead
        (complete ⟨outside, outer, .operand⟩ (.call name.position name.text arguments))
  | operator (value : Expr) (hfocus : u.focus = .value value) (op : Operator)
      (htoken : lexeme.token = .operator op) (hahead : BeginsOperand ahead)
      (hdepth : op = .pow → u.depth < maxDepth) :
      Passes m u lexeme ahead
        ⟨u.pending.push op lexeme.position value, u.enclosures, .operand⟩
  | closeGroup (value : Expr) (hfocus : u.focus = .value value)
      (htoken : lexeme.token = .closeParen) (paren : Lexeme) (outside : Pending)
      (outer : List Enclosure) (hopen : u.enclosures = ⟨paren, .group, outside⟩ :: outer) :
      Passes m u lexeme ahead
        (complete ⟨outside, outer, .operand⟩ (u.pending.completeSum value))
  | closeCall (value : Expr) (hfocus : u.focus = .value value)
      (htoken : lexeme.token = .closeParen) (paren name : Lexeme) (function : Primitive)
      (arguments : List Expr) (outside : Pending) (outer : List Enclosure)
      (hopen : u.enclosures = ⟨paren, .call name function arguments, outside⟩ :: outer)
      (harity : (arguments ++ [u.pending.completeSum value]).length = function.arity) :
      Passes m u lexeme ahead
        (complete ⟨outside, outer, .operand⟩
          (.call name.position name.text (arguments ++ [u.pending.completeSum value])))
  | comma (value : Expr) (hfocus : u.focus = .value value) (htoken : lexeme.token = .comma)
      (paren name : Lexeme) (function : Primitive) (arguments : List Expr) (outside : Pending)
      (outer : List Enclosure)
      (hopen : u.enclosures = ⟨paren, .call name function arguments, outside⟩ :: outer) :
      Passes m u lexeme ahead
        ⟨.empty, ⟨paren, .call name function (arguments ++ [u.pending.completeSum value]),
          outside⟩ :: outer, .operand⟩

theorem closeCall_eq_ok_iff
    {outside : Pending} {outer : List Enclosure} {name : Lexeme} {function : Primitive}
    {arguments : List Expr} :
    Unfinished.closeCall outside outer name function arguments = .ok next ↔
      arguments.length = function.arity ∧
        complete ⟨outside, outer, .operand⟩ (.call name.position name.text arguments) = next := by
  unfold Unfinished.closeCall
  split <;> simp_all

theorem passes_of_readOperand
    (hfocus : u.AtOperand) (h : u.readOperand m lexeme ahead = .ok next) :
    Passes m u lexeme ahead next := by
  unfold readOperand at h
  split at h
  · rename_i value htoken
    obtain rfl := Except.ok.inj h
    exact .number hfocus value htoken
  · rename_i name htoken
    split at h
    · rename_i hcall
      split at h
      · rename_i function hfunction
        obtain rfl := Except.ok.inj h
        exact .callee hfocus name htoken hcall function hfunction
      · cases h
    · rename_i hcall
      split at h
      · rename_i expr hresolve
        obtain rfl := Except.ok.inj h
        exact .name hfocus name htoken (Bool.not_eq_true _ ▸ hcall) expr hresolve
      · cases h
  · rename_i htoken
    obtain ⟨hdepth, rfl⟩ := enclose_eq_ok_iff.mp h
    exact .openGroup hfocus htoken hdepth
  · split at h <;> cases h
  · rename_i op htoken
    split at h
    · cases h
    · rename_i hrun
      split at h
      · rename_i hop
        simp only [Bool.and_eq_true, decide_eq_true_eq, Option.isNone_iff_eq_none] at hop
        obtain rfl := Except.ok.inj h
        exact .minus hfocus (hop.1 ▸ htoken) (runFault?_eq_none_iff.mp hrun) hop.2
      · cases h
  · cases h

theorem passes_of_readOperator
    {value : Expr} (hfocus : u.focus = .value value)
    (h : u.readOperator value lexeme ahead = .ok next) : Passes m u lexeme ahead next := by
  unfold readOperator at h
  split at h
  · rename_i op htoken
    split at h
    · cases h
    · rename_i hrun
      have hahead : BeginsOperand ahead := by
        split at hrun
        · rename_i hnegation
          exact .inl hnegation
        · exact .inr (runFault?_eq_none_iff.mp hrun)
      split at h
      · cases h
      · rename_i hdepth
        obtain rfl := Except.ok.inj h
        exact .operator value hfocus op htoken hahead (by simpa using hdepth)
  · rename_i htoken
    split at h
    · cases h
    · rename_i paren outside outer hopen
      obtain rfl := Except.ok.inj h
      exact .closeGroup value hfocus htoken paren outside outer hopen
    · rename_i paren name function arguments outside outer hopen
      obtain ⟨harity, rfl⟩ := closeCall_eq_ok_iff.mp h
      exact .closeCall value hfocus htoken paren name function arguments outside outer hopen harity
  · rename_i htoken
    split at h
    · rename_i paren name function arguments outside outer hopen
      obtain rfl := Except.ok.inj h
      exact .comma value hfocus htoken paren name function arguments outside outer hopen
    · cases h
  · cases h

theorem passes_of_step (h : u.step m lexeme ahead = .ok next) : Passes m u lexeme ahead next := by
  unfold step at h
  split at h
  · rename_i hfocus
    exact passes_of_readOperand (.inl hfocus) h
  · rename_i hfocus
    split at h
    · rename_i paren name function arguments outside outer htoken hopen
      obtain ⟨harity, rfl⟩ := closeCall_eq_ok_iff.mp h
      exact .closeEmpty hfocus htoken paren name function arguments outside outer hopen harity
    · exact passes_of_readOperand (.inr hfocus) h
  · rename_i name function hfocus
    obtain ⟨hdepth, rfl⟩ := enclose_eq_ok_iff.mp h
    exact .openCall name function hfocus hdepth
  · rename_i value hfocus
    exact passes_of_readOperator hfocus h

theorem step_of_atOperand
    (hfocus : u.AtOperand) (htoken : lexeme.token ≠ .closeParen) :
    u.step m lexeme ahead = u.readOperand m lexeme ahead := by
  unfold step
  rcases hfocus with hfocus | hfocus
  · simp only [hfocus]
  · simp only [hfocus]
    split
    · contradiction
    · rfl

/-- The list is complete, and each of its ways is a step. -/
theorem step_eq_ok_iff : u.step m lexeme ahead = .ok next ↔ Passes m u lexeme ahead next := by
  refine ⟨passes_of_step, fun h => ?_⟩
  cases h with
  | number hfocus value htoken =>
      rw [step_of_atOperand hfocus (by simp [htoken])]
      simp [readOperand, htoken]
  | name hfocus name htoken hcall expr hresolve =>
      rw [step_of_atOperand hfocus (by simp [htoken])]
      simp [readOperand, htoken, hcall, hresolve]
  | callee hfocus name htoken hcall function hfunction =>
      rw [step_of_atOperand hfocus (by simp [htoken])]
      simp [readOperand, htoken, hcall, hfunction]
  | openGroup hfocus htoken hdepth =>
      rw [step_of_atOperand hfocus (by simp [htoken])]
      simp [readOperand, htoken, enclose, hdepth]
  | minus hfocus htoken hahead hsign =>
      rw [step_of_atOperand hfocus (by simp [htoken])]
      simp [readOperand, htoken, runFault?_eq_none_iff.mpr hahead, hsign]
  | openCall name function hfocus hdepth => simp [step, hfocus, enclose, hdepth]
  | closeEmpty hfocus htoken paren name function arguments outside outer hopen harity =>
      simp [step, hfocus, htoken, hopen, Unfinished.closeCall, harity]
  | operator value hfocus op htoken hahead hdepth =>
      have hrun : (if isNegationAhead ahead then none else runFault? lexeme ahead) = none := by
        rcases hahead with hnegation | hnone
        · rw [if_pos hnegation]
        · rw [runFault?_eq_none_iff.mpr hnone, ite_self]
      have hshallow : (op = .pow && maxDepth ≤ u.depth : Bool) = false := by simpa using hdepth
      simp [step, hfocus, readOperator, htoken, hrun, hshallow]
  | closeGroup value hfocus htoken paren outside outer hopen =>
      simp [step, hfocus, readOperator, htoken, hopen]
  | closeCall value hfocus htoken paren name function arguments outside outer hopen harity =>
      simp only [step, hfocus, readOperator, htoken, hopen]
      exact closeCall_eq_ok_iff.mpr ⟨harity, rfl⟩
  | comma value hfocus htoken paren name function arguments outside outer hopen =>
      simp [step, hfocus, readOperator, htoken, hopen]

/-- A lexeme is still passed if the line ends earlier, but a name only if this takes no parenthesis
away from it. -/
theorem Passes.cut
    (h : Passes m u lexeme (front ++ ahead) next)
    (hcall : ∀ name, lexeme.token = .identifier name →
      isCallAhead (front ++ ahead) = isCallAhead front) : Passes m u lexeme front next := by
  cases h with
  | number hfocus value htoken => exact .number hfocus value htoken
  | name hfocus name htoken hplain expr hresolve =>
      exact .name hfocus name htoken (hcall name htoken ▸ hplain) expr hresolve
  | callee hfocus name htoken hcalled function hfunction =>
      exact .callee hfocus name htoken (hcall name htoken ▸ hcalled) function hfunction
  | openGroup hfocus htoken hdepth => exact .openGroup hfocus htoken hdepth
  | minus hfocus htoken hahead hsign =>
      have hprefix := operatorsAhead_prefix front ahead
      exact .minus hfocus htoken (List.prefix_nil.mp (hahead ▸ hprefix)) hsign
  | openCall name function hfocus hdepth => exact .openCall name function hfocus hdepth
  | closeEmpty hfocus htoken paren name function arguments outside outer hopen harity =>
      exact .closeEmpty hfocus htoken paren name function arguments outside outer hopen harity
  | operator value hfocus op htoken hahead hdepth =>
      exact .operator value hfocus op htoken hahead.cut hdepth
  | closeGroup value hfocus htoken paren outside outer hopen =>
      exact .closeGroup value hfocus htoken paren outside outer hopen
  | closeCall value hfocus htoken paren name function arguments outside outer hopen harity =>
      exact .closeCall value hfocus htoken paren name function arguments outside outer hopen harity
  | comma value hfocus htoken paren name function arguments outside outer hopen =>
      exact .comma value hfocus htoken paren name function arguments outside outer hopen

/-! ## Many lexemes -/

/-- The lexemes `front` are read one after the other, with `ahead` after them. -/
inductive PassesAll (m : Memory) (ahead : List Lexeme) :
    Unfinished → List Lexeme → Unfinished → Prop where
  | nil (u : Unfinished) : PassesAll m ahead u [] u
  | cons {u v next : Unfinished} {lexeme : Lexeme} {front : List Lexeme} :
      Passes m u lexeme (front ++ ahead) v → PassesAll m ahead v front next →
        PassesAll m ahead u (lexeme :: front) next

theorem PassesAll.read_eq
    (h : PassesAll m ahead u front v) : u.read m (front ++ ahead) = v.read m ahead := by
  induction h with
  | nil => rfl
  | cons hpasses _ ih =>
      rw [List.cons_append, read, step_eq_ok_iff.mpr hpasses]
      exact ih

theorem PassesAll.append
    (h : PassesAll m (rest ++ ahead) u front v) (h' : PassesAll m ahead v rest next) :
    PassesAll m ahead u (front ++ rest) next := by
  induction h with
  | nil => exact h'
  | cons hpasses _ ih =>
      rw [← List.append_assoc] at hpasses
      exact .cons hpasses (ih h')

/-- Any part of an expression that is read is passed. -/
theorem exists_passesAll_of_read
    {e : Expr} (h : u.read m (front ++ ahead) = .ok e) :
    ∃ v, PassesAll m ahead u front v ∧ v.read m ahead = .ok e := by
  induction front generalizing u with
  | nil => exact ⟨u, .nil u, h⟩
  | cons lexeme front ih =>
      obtain ⟨next, hstep, hread⟩ := exists_step_of_read h
      obtain ⟨v, hpasses, hv⟩ := ih hread
      exact ⟨v, .cons (passes_of_step hstep) hpasses, hv⟩

/-- A fault comes up at a lexeme that all before it lead to, or at the end. -/
theorem exists_passesAll_of_read_error
    {ls : List Lexeme} {fault : SyntaxFault} (h : u.read m ls = .error fault) :
    (∃ front lexeme ahead v, ls = front ++ lexeme :: ahead ∧
      PassesAll m (lexeme :: ahead) u front v ∧ v.step m lexeme ahead = .error fault) ∨
    ∃ v, PassesAll m [] u ls v ∧ v.finish = .error fault := by
  induction ls generalizing u with
  | nil => exact .inr ⟨u, .nil u, h⟩
  | cons lexeme ls ih =>
      rw [read] at h
      split at h
      · rename_i next hstep
        have hpasses := passes_of_step hstep
        rcases ih h with ⟨front, l, ahead, v, rfl, hfront, hfault⟩ | ⟨v, hall, hfault⟩
        · exact .inl ⟨lexeme :: front, l, ahead, v, rfl, .cons hpasses hfront, hfault⟩
        · exact .inr ⟨v, .cons (by rwa [List.append_nil]) hall, hfault⟩
      · rename_i other hstep
        cases h
        exact .inl ⟨[], lexeme, ls, u, rfl, .nil u, hstep⟩

/-- Lexemes are still passed if the line ends after those that come next. -/
theorem PassesAll.cut
    (h : PassesAll m (rest ++ ahead) u front v) (hrest : rest ≠ []) :
    PassesAll m rest u front v := by
  induction h with
  | nil u => exact .nil u
  | cons hpasses _ ih =>
      rw [← List.append_assoc] at hpasses
      exact .cons (hpasses.cut fun _ _ => isCallAhead_append (by simp [hrest])) ih

end Unfinished

end Calculator
