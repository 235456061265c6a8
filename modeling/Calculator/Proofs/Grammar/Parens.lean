import Calculator.Proofs.Grammar.Passing

/-!
# Parentheses that stay open

The parentheses that the reader remembers are at each moment those without a counterpart so far
(`Unfinished.PassesAll.leavesOpen`).  So a parenthesis is blamed at the end of a line only if all
that follows it is balanced, and a closing one only if all that stands before it is.
-/

namespace Calculator

/-- Every parenthesis has its counterpart. -/
inductive Balanced : List Lexeme → Prop where
  | nil : Balanced []
  | other {l : Lexeme} {ls : List Lexeme} (hopen : l.token ≠ .openParen)
      (hclose : l.token ≠ .closeParen) (h : Balanced ls) : Balanced (l :: ls)
  | pair {opening closing : Lexeme} {inner rest : List Lexeme}
      (hopen : opening.token = .openParen) (hclose : closing.token = .closeParen)
      (hinner : Balanced inner) (hrest : Balanced rest) :
      Balanced (opening :: (inner ++ closing :: rest))

/-- The parentheses `open` are those without a counterpart, the innermost first. -/
inductive LeavesOpen : List Lexeme → List Lexeme → Prop where
  | balanced {ls : List Lexeme} (h : Balanced ls) : LeavesOpen ls []
  | paren {before after outer : List Lexeme} {paren : Lexeme} (h : LeavesOpen before outer)
      (htoken : paren.token = .openParen) (hafter : Balanced after) :
      LeavesOpen (before ++ paren :: after) (paren :: outer)

/-- The parenthesis right before the lexemes has its counterpart among them. -/
def ClosedIn (after : List Lexeme) : Prop :=
  ∃ inner closing rest, after = inner ++ closing :: rest ∧ closing.token = .closeParen ∧
    Balanced inner

/-- Every opening parenthesis has its counterpart. -/
def AllClosed (ls : List Lexeme) : Prop :=
  ∀ before paren after, ls = before ++ paren :: after → paren.token = .openParen → ClosedIn after

theorem ClosedIn.append {after rest : List Lexeme} (h : ClosedIn after) :
    ClosedIn (after ++ rest) := by
  obtain ⟨inner, closing, outer, rfl, hclose, hinner⟩ := h
  exact ⟨inner, closing, outer ++ rest, by simp, hclose, hinner⟩

/-- The last opening parenthesis without a counterpart, which is the innermost that is open at the
end of the lexemes. -/
def LastOpen (paren : Lexeme) (ls : List Lexeme) : Prop :=
  ∃ before after, ls = before ++ paren :: after ∧ paren.token = .openParen ∧ ¬ClosedIn after ∧
    AllClosed after

variable {m : Memory} {l : Lexeme} {ls front ahead outer : List Lexeme}

namespace Balanced

theorem append {ls' : List Lexeme} (h : Balanced ls) (h' : Balanced ls') :
    Balanced (ls ++ ls') := by
  induction h with
  | nil => exact h'
  | other hopen hclose _ ih => exact .other hopen hclose ih
  | pair hopen hclose hinner _ _ ihRest =>
      rw [List.cons_append, List.append_assoc, List.cons_append]
      exact .pair hopen hclose hinner ihRest

theorem singleton (hopen : l.token ≠ .openParen) (hclose : l.token ≠ .closeParen) :
    Balanced [l] :=
  .other hopen hclose .nil

/-- How many more parentheses are opened than closed. -/
def excess (ls : List Lexeme) : Int :=
  ls.countP (·.token = .openParen) - ls.countP (·.token = .closeParen)

theorem excess_append (ls ls' : List Lexeme) : excess (ls ++ ls') = excess ls + excess ls' := by
  simp only [excess, List.countP_append]
  omega

theorem excess_cons (l : Lexeme) (ls : List Lexeme) : excess (l :: ls) = excess [l] + excess ls :=
  excess_append [l] ls

theorem excess_eq_zero (h : Balanced ls) : excess ls = 0 := by
  induction h with
  | nil => rfl
  | other hopen hclose _ ih => rw [excess_cons, ih]; simp [excess, hopen, hclose]
  | @pair opening closing inner rest hopen hclose _ _ ihInner ihRest =>
      rw [excess_cons, excess_append, excess_cons closing, ihInner, ihRest]
      simp [excess, hopen, hclose]

/-- Nowhere in balanced lexemes more parentheses are closed than opened. -/
theorem excess_nonneg (h : Balanced ls) (hfront : front <+: ls) : 0 ≤ excess front := by
  induction h generalizing front with
  | nil =>
      rw [List.prefix_nil.mp hfront]
      decide
  | @other l ls hopen hclose _ ih =>
      rcases List.prefix_cons_iff.mp hfront with rfl | ⟨others, rfl, hothers⟩
      · decide
      · have hl : excess [l] = 0 := by simp [excess, hopen, hclose]
        rw [excess_cons, hl, Int.zero_add]
        exact ih hothers
  | @pair opening closing inner rest hopen hclose hinner _ ihInner ihRest =>
      have hopening : excess [opening] = 1 := by simp [excess, hopen]
      have hclosing : excess [closing] = -1 := by simp [excess, hclose]
      rcases List.prefix_cons_iff.mp hfront with rfl | ⟨others, rfl, after, hafter⟩
      · decide
      rw [excess_cons, hopening]
      rcases List.append_eq_append_iff.mp hafter with ⟨between, rfl, -⟩ | ⟨between, rfl, hbetween⟩
      · have := ihInner (List.prefix_append others between)
        omega
      · rw [excess_append, hinner.excess_eq_zero]
        rcases List.prefix_cons_iff.mp ⟨after, hbetween.symm⟩ with rfl | ⟨last, rfl, hlast⟩
        · decide
        · have := ihRest hlast
          rw [excess_cons, hclosing]
          omega

/-- Balanced lexemes hold no counterpart of a parenthesis before them. -/
theorem not_closedIn (h : Balanced ls) : ¬ClosedIn ls := by
  rintro ⟨inner, closing, rest, rfl, hclose, hinner⟩
  have hexcess : excess [closing] = -1 := by simp [excess, hclose]
  have hfront : inner ++ [closing] <+: inner ++ closing :: rest := ⟨rest, by simp⟩
  have hnonneg := h.excess_nonneg hfront
  rw [excess_append, hinner.excess_eq_zero, hexcess] at hnonneg
  omega

theorem allClosed (h : Balanced ls) : AllClosed ls := by
  induction h with
  | nil =>
      rintro before paren after hls
      cases before <;> cases hls
  | other hopen _ _ ih =>
      rintro before paren after hls hparen
      rcases List.cons_eq_append_iff.mp hls with ⟨rfl, hcons⟩ | ⟨before, rfl, hrest⟩
      · cases hcons
        contradiction
      · exact ih before paren after hrest hparen
  | @pair opening closing inner rest hopen hclose hinner _ ihInner ihRest =>
      rintro before paren after hls hparen
      rcases List.cons_eq_append_iff.mp hls with ⟨rfl, hcons⟩ | ⟨before, rfl, hrest⟩
      · cases hcons
        exact ⟨inner, closing, rest, rfl, hclose, hinner⟩
      rcases List.append_eq_append_iff.mp hrest with
        ⟨between, rfl, hbetween⟩ | ⟨between, rfl, hbetween⟩
      · rcases List.cons_eq_append_iff.mp hbetween with ⟨rfl, hcons⟩ | ⟨before, rfl, hlast⟩
        · cases hcons
          rw [hclose] at hparen
          cases hparen
        · exact ihRest before paren after hlast hparen
      · rcases List.cons_eq_append_iff.mp hbetween with ⟨rfl, hcons⟩ | ⟨between, rfl, rfl⟩
        · cases hcons
          rw [hclose] at hparen
          cases hparen
        · exact (ihInner before paren between rfl hparen).append

end Balanced

namespace LeavesOpen

theorem append_balanced
    (h : LeavesOpen ls outer) {after : List Lexeme} (hafter : Balanced after) :
    LeavesOpen (ls ++ after) outer := by
  cases h with
  | balanced h => exact .balanced (h.append hafter)
  | paren h htoken hbetween =>
      rw [List.append_assoc, List.cons_append]
      exact .paren h htoken (hbetween.append hafter)

theorem nil_iff : LeavesOpen ls [] ↔ Balanced ls :=
  ⟨fun h => by cases h; assumption, .balanced⟩

/-- A closing parenthesis is the counterpart of the innermost open one. -/
theorem close
    {paren : Lexeme} (h : LeavesOpen ls (paren :: outer)) (htoken : l.token = .closeParen) :
    LeavesOpen (ls ++ [l]) outer := by
  cases h with
  | paren h hopen hbetween =>
      rw [List.append_assoc, List.cons_append]
      exact h.append_balanced (.pair hopen htoken hbetween .nil)

end LeavesOpen

namespace LastOpen

variable {paren other : Lexeme}

theorem of_leavesOpen (h : LeavesOpen ls (paren :: outer)) : LastOpen paren ls := by
  cases h with
  | @paren before after outer paren h htoken hafter =>
      exact ⟨before, after, rfl, htoken, hafter.not_closedIn, hafter.allClosed⟩

theorem append_left (h : LastOpen paren ls) (front : List Lexeme) :
    LastOpen paren (front ++ ls) := by
  obtain ⟨before, after, rfl, hafter⟩ := h
  exact ⟨front ++ before, after, by simp, hafter⟩

theorem not_allClosed (h : LastOpen paren ls) : ¬AllClosed ls := by
  obtain ⟨before, after, rfl, htoken, hopen, -⟩ := h
  exact fun hclosed => hopen (hclosed before paren after rfl htoken)

theorem unique (h : LastOpen paren ls) (h' : LastOpen other ls) : paren = other := by
  obtain ⟨before, after, rfl, htoken, hopen, hclosed⟩ := h
  obtain ⟨before', after', hls, htoken', hopen', hclosed'⟩ := h'
  rcases List.append_eq_append_iff.mp hls with ⟨between, -, hafter⟩ | ⟨between, -, hafter⟩
  · rcases List.cons_eq_append_iff.mp hafter with ⟨-, hcons⟩ | ⟨between, rfl, rfl⟩
    · exact (List.cons.inj hcons).1.symm
    · exact absurd (hclosed between other after' rfl htoken') hopen'
  · rcases List.cons_eq_append_iff.mp hafter with ⟨-, hcons⟩ | ⟨between, rfl, rfl⟩
    · exact (List.cons.inj hcons).1
    · exact absurd (hclosed' between paren after rfl htoken) hopen

end LastOpen

namespace Unfinished

variable {u v next : Unfinished}

/-- The parentheses that are remembered as open, the innermost first. -/
def parens (u : Unfinished) : List Lexeme :=
  u.enclosures.map Enclosure.paren

/-- The name of a function is only remembered right before its parenthesis. -/
def CalleeAhead (u : Unfinished) (rest : List Lexeme) : Prop :=
  ∀ name function, u.focus = .callee name function → isCallAhead rest = true

/-! ## One lexeme -/

theorem Passes.calleeAhead (h : Passes m u l ahead next) : next.CalleeAhead ahead := by
  intro name function hfocus
  cases h with
  | callee _ _ _ hcall => exact hcall
  | number | name | openGroup | minus | openCall | closeEmpty | operator | closeGroup | closeCall
  | comma => cases hfocus

theorem Passes.leavesOpen
    (h : Passes m u l ahead next) (hcallee : u.CalleeAhead (l :: ahead))
    (hopen : LeavesOpen ls u.parens) : LeavesOpen (ls ++ [l]) next.parens := by
  have hother : l.token ≠ .openParen → l.token ≠ .closeParen →
      LeavesOpen (ls ++ [l]) u.parens := fun hopening hclosing =>
    hopen.append_balanced (.singleton hopening hclosing)
  have hcloses : ∀ {paren opening outside outer},
      u.enclosures = ⟨paren, opening, outside⟩ :: outer → l.token = .closeParen →
        LeavesOpen (ls ++ [l]) (outer.map Enclosure.paren) := by
    intro paren opening outside outer henclosures htoken
    rw [parens, henclosures] at hopen
    exact hopen.close htoken
  cases h with
  | number _ _ htoken | name _ _ htoken | callee _ _ htoken | minus _ htoken
  | operator _ _ _ htoken => exact hother (by simp [htoken]) (by simp [htoken])
  | openGroup _ htoken => exact .paren hopen htoken .nil
  | openCall name function hfocus =>
      have htoken : l.token = .openParen := by
        simpa [isCallAhead] using hcallee name function hfocus
      exact .paren hopen htoken .nil
  | closeEmpty _ htoken _ _ _ _ _ _ henclosures => exact hcloses henclosures htoken
  | closeGroup _ _ htoken _ _ _ henclosures => exact hcloses henclosures htoken
  | closeCall _ _ htoken _ _ _ _ _ _ henclosures => exact hcloses henclosures htoken
  | comma _ _ htoken _ _ _ _ _ _ henclosures =>
      have hkept := hother (by simp [htoken]) (by simp [htoken])
      rw [parens, henclosures] at hkept
      exact hkept

/-- A name is an operand, and only that of a function comes before a parenthesis. -/
theorem Passes.of_identifier
    {name : String} (h : Passes m u l ahead next) (hcallee : u.CalleeAhead (l :: ahead))
    (htoken : l.token = .identifier name) :
    u.AtOperand ∧ (isCallAhead ahead = true → (Primitive.find? name).isSome = true) := by
  cases h with
  | name hfocus _ _ hcall => exact ⟨hfocus, by simp [hcall]⟩
  | callee hfocus other hother _ function hfunction =>
      obtain rfl : other = name := Token.identifier.inj (hother.symm.trans htoken)
      exact ⟨hfocus, by simp [hfunction]⟩
  | openCall other function hfocus =>
      have hparen := hcallee other function hfocus
      simp [isCallAhead, htoken] at hparen
  | number _ _ hother | openGroup _ hother | minus _ hother | closeEmpty _ hother
  | operator _ _ _ hother | closeGroup _ _ hother | closeCall _ _ hother | comma _ _ hother =>
      rw [htoken] at hother
      cases hother

/-- After a lexeme outside all parentheses, either an operand must come or one is complete. -/
theorem Passes.focus_cases
    (h : Passes m u l ahead next)
    (hplain : ∀ name, l.token = .identifier name → isCallAhead ahead = false)
    (hopen : next.enclosures = []) :
    l.isOperator = true ∧ next.focus = .operand ∨
      l.isOperator = false ∧ ∃ e, next.focus = .value e := by
  have hoperator : ∀ op, l.token = .operator op → l.isOperator = true := by
    intro op htoken
    rw [Lexeme.isOperator, htoken]
    rfl
  have hother : (∀ op, l.token ≠ .operator op) → l.isOperator = false := by
    intro hne
    unfold Lexeme.isOperator Token.isOperator Token.operator?
    split
    · rename_i op htoken
      exact absurd htoken (hne op)
    · rfl
  cases h with
  | number _ _ htoken | name _ _ htoken | closeEmpty _ htoken | closeGroup _ _ htoken
  | closeCall _ _ htoken => exact .inr ⟨hother (by simp [htoken]), _, rfl⟩
  | callee _ name htoken hcall =>
      rw [hplain name htoken] at hcall
      cases hcall
  | openGroup | openCall | comma => cases hopen
  | minus _ htoken => exact .inl ⟨hoperator _ htoken, rfl⟩
  | operator _ _ _ htoken => exact .inl ⟨hoperator _ htoken, rfl⟩

/-- No lexeme is refused for a parenthesis that is still open, and only a closing parenthesis that
stands outside all others for one that is not. -/
theorem paren_of_step_error
    {fault : SyntaxFault} (h : u.step m l ahead = .error fault) :
    (∀ paren, fault ≠ .unclosed paren) ∧
      ∀ paren, fault = .unopened paren →
        paren = l ∧ l.token = .closeParen ∧ u.enclosures = [] := by
  have hrun : ∀ {fault}, runFault? l ahead = some fault →
      ∃ last, fault = .operatorRun l last := by
    intro fault hfault
    obtain ⟨last, -, rfl⟩ := Option.map_eq_some_iff.mp hfault
    exact ⟨last, rfl⟩
  have hclose : ∀ {outside outer name function arguments},
      Unfinished.closeCall outside outer name function arguments = .error fault →
        fault = .wrongCount name function arguments.length := by
    intro outside outer name function arguments h
    unfold Unfinished.closeCall at h
    split at h <;> cases h
    rfl
  unfold step readOperand readOperator enclose at h
  grind

/-! ## Many lexemes -/

theorem PassesAll.leavesOpen
    (h : PassesAll m ahead u front v) (hcallee : u.CalleeAhead (front ++ ahead))
    (hopen : LeavesOpen ls u.parens) : LeavesOpen (ls ++ front) v.parens := by
  induction h generalizing ls with
  | nil => rwa [List.append_nil]
  | @cons u v next lexeme front hpasses hrest ih =>
      rw [List.append_cons]
      exact ih hpasses.calleeAhead (hpasses.leavesOpen hcallee hopen)

theorem PassesAll.calleeAhead
    (h : PassesAll m ahead u front v) (hcallee : u.CalleeAhead (front ++ ahead)) :
    v.CalleeAhead ahead := by
  induction h with
  | nil => exact hcallee
  | cons hpasses _ ih => exact ih hpasses.calleeAhead

theorem calleeAhead_start : start.CalleeAhead front :=
  fun _ _ hfocus => by cases hfocus

theorem leavesOpen_of_passesAll (h : PassesAll m ahead start front v) :
    LeavesOpen front v.parens :=
  h.leavesOpen calleeAhead_start (.balanced .nil)

end Unfinished

namespace Expr

variable {paren : Lexeme}

/-- A parenthesis is reported as unclosed only if it is the last one without a counterpart. -/
theorem lastOpen_of_read_unclosed (h : Expr.read m ls = .error (.unclosed paren)) :
    LastOpen paren ls := by
  rcases Unfinished.exists_passesAll_of_read_error h with
    ⟨front, l, ahead, v, -, -, hstep⟩ | ⟨v, hpasses, hfinish⟩
  · exact absurd rfl ((Unfinished.paren_of_step_error hstep).1 paren)
  · have hopen := Unfinished.leavesOpen_of_passesAll hpasses
    cases henclosures : v.enclosures with
    | nil => cases hfocus : v.focus <;> simp [Unfinished.finish, Unfinished.endFault, *] at hfinish
    | cons enclosure outer =>
        obtain rfl : enclosure.paren = paren := by
          simpa [Unfinished.finish, Unfinished.endFault, henclosures] using hfinish
        rw [Unfinished.parens, henclosures] at hopen
        exact .of_leavesOpen hopen

/-- A closing parenthesis is reported as unopened only if all before it is balanced. -/
theorem exists_balanced_of_read_unopened (h : Expr.read m ls = .error (.unopened paren)) :
    ∃ before after, ls = before ++ paren :: after ∧ paren.token = .closeParen ∧
      Balanced before := by
  rcases Unfinished.exists_passesAll_of_read_error h with
    ⟨front, l, ahead, v, rfl, hpasses, hstep⟩ | ⟨v, -, hfinish⟩
  · obtain ⟨rfl, htoken, henclosures⟩ := (Unfinished.paren_of_step_error hstep).2 paren rfl
    have hopen := Unfinished.leavesOpen_of_passesAll hpasses
    rw [Unfinished.parens, henclosures] at hopen
    exact ⟨front, ahead, rfl, htoken, LeavesOpen.nil_iff.mp hopen⟩
  · unfold Unfinished.finish Unfinished.endFault at hfinish
    grind

end Expr

end Calculator
