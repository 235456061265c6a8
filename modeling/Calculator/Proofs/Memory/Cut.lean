import Calculator.Proofs.Grammar.Parens
import Calculator.Proofs.Memory.Parsed
import Calculator.Proofs.Scanning.Seams

/-!
# Lines that end too early

A line of an expression may be cut after any of its lexemes.  What is left says no more than what
was read up to there: the innermost parenthesis that is open is reported, else that an operand is
missing if an operator comes last, and else the rest is an expression of its own (`Expr.read_cut`).
The name of a function without its parenthesis is a variable, which is unknown
(`Expr.read_cut_function`).
-/

namespace Calculator

variable {m : Memory} {l paren : Lexeme} {ls front ahead : List Lexeme} {line : String} {e : Expr}

/-! ## Cutting lexemes -/

/-- The names of functions are not those of constants or of the previous answer. -/
theorem Memory.resolve?_function
    {function : Primitive} (h : m.bindings.contains function.name = false) (position : Nat) :
    m.resolve? function.name position = none := by
  have hanswer : function.name ≠ Name.answer := by cases function <;> decide
  have hconstant : NamedConstant.find? function.name = none := by cases function <;> decide
  simp [resolve?, hanswer, hconstant, h]

namespace Expr

/-- Each lexeme of an expression is passed after those before it. -/
theorem exists_passes_of_read (h : Expr.read m (front ++ l :: ahead) = .ok e) :
    ∃ v next, Unfinished.PassesAll m [l] .start front v ∧ v.CalleeAhead (l :: ahead) ∧
      Unfinished.Passes m v l ahead next := by
  obtain ⟨v, hfront, hread⟩ := Unfinished.exists_passesAll_of_read h
  obtain ⟨next, hstep, -⟩ := Unfinished.exists_step_of_read hread
  have hall : Unfinished.PassesAll m ([l] ++ ahead) .start front v := hfront
  exact ⟨v, next, hall.cut (List.cons_ne_nil l []),
    hfront.calleeAhead Unfinished.calleeAhead_start, Unfinished.passes_of_step hstep⟩

/-- Cut after the name of a function, an expression ends with an unknown name. -/
theorem read_cut_function
    (h : Expr.read m (front ++ l :: ahead) = .ok e) {function : Primitive}
    (htoken : l.token = .identifier function.name)
    (hunbound : m.bindings.contains function.name = false) :
    Expr.read m (front ++ [l]) = .error (.unknownName l) := by
  obtain ⟨v, next, hfront, hcallee, hpasses⟩ := exists_passes_of_read h
  have hoperand : v.AtOperand := (hpasses.of_identifier hcallee htoken).1
  have hstep : v.step m l [] = .error (.unknownName l) := by
    rw [Unfinished.step_of_atOperand hoperand (by simp [htoken])]
    simp [Unfinished.readOperand, htoken, isCallAhead, Memory.resolve?_function hunbound]
  rw [Expr.read, hfront.read_eq, Unfinished.read, hstep]

/-- Cut elsewhere, an expression is read up to the cut as it is read in whole. -/
theorem exists_passesAll_cut
    (h : Expr.read m (front ++ l :: ahead) = .ok e)
    (hplain : ∀ function : Primitive, l.token ≠ .identifier function.name) :
    ∃ next, Unfinished.PassesAll m [] .start (front ++ [l]) next ∧
      (next.enclosures = [] →
        l.isOperator = true ∧ next.focus = .operand ∨
          l.isOperator = false ∧ ∃ e', next.focus = .value e') := by
  obtain ⟨v, next, hfront, hcallee, hpasses⟩ := exists_passes_of_read h
  have hcall : ∀ name, l.token = .identifier name → isCallAhead ahead = false := by
    intro name htoken
    by_contra hahead
    rw [Bool.not_eq_false] at hahead
    obtain ⟨function, hfunction⟩ :=
      Option.isSome_iff_exists.mp ((hpasses.of_identifier hcallee htoken).2 hahead)
    exact hplain function (by rw [htoken, Primitive.name_of_find? hfunction])
  have hlast : Unfinished.Passes m v l [] next :=
    Unfinished.Passes.cut hpasses fun name htoken => hcall name htoken
  exact ⟨next, hfront.append (.cons hlast (.nil next)), hpasses.focus_cases hcall⟩

/-- What is left of an expression that is cut after a lexeme. -/
theorem read_cut
    (h : Expr.read m (front ++ l :: ahead) = .ok e)
    (hplain : ∀ function : Primitive, l.token ≠ .identifier function.name) :
    (∀ paren, LastOpen paren (front ++ [l]) →
      Expr.read m (front ++ [l]) = .error (.unclosed paren)) ∧
    ((∀ paren, ¬LastOpen paren (front ++ [l])) →
      (l.isOperator = true → Expr.read m (front ++ [l]) = .error .endOfInput) ∧
      (l.isOperator = false → ∃ e', Expr.read m (front ++ [l]) = .ok e')) := by
  obtain ⟨next, hall, hfocus⟩ := exists_passesAll_cut h hplain
  have hread : Expr.read m (front ++ [l]) = next.finish := by
    have := hall.read_eq
    rwa [List.append_nil] at this
  have hopen := Unfinished.leavesOpen_of_passesAll hall
  rw [Unfinished.parens] at hopen
  rw [hread]
  cases henclosures : next.enclosures with
  | nil =>
      rw [henclosures] at hopen
      have hclosed : AllClosed (front ++ [l]) := (LeavesOpen.nil_iff.mp hopen).allClosed
      refine ⟨fun paren hlast => absurd hclosed hlast.not_allClosed, fun _ => ?_⟩
      rcases hfocus henclosures with ⟨hoperator, hfocus⟩ | ⟨hoperator, e', hfocus⟩
      · simp [hoperator, Unfinished.finish, Unfinished.endFault, hfocus, henclosures]
      · simp [hoperator, Unfinished.finish, hfocus, henclosures]
  | cons enclosure outer =>
      rw [henclosures] at hopen
      have hlast : LastOpen enclosure.paren (front ++ [l]) := .of_leavesOpen hopen
      refine ⟨fun paren hparen => ?_, fun hnone => absurd hlast (hnone _)⟩
      rw [hparen.unique hlast]
      simp [Unfinished.finish, Unfinished.endFault, henclosures]

end Expr

/-! ## Cutting a line -/

/-- A stretch that ends after one of its lexemes is cut into the lexemes up to that. -/
theorem LongestMatch.upTo
    {text : List Char} {start stop : Nat}
    (h : LongestMatch text start stop (front ++ l :: ahead)) :
    LongestMatch text start l.stop (front ++ [l]) := by
  induction front generalizing start with
  | nil =>
      obtain ⟨hstart, hblank, hlongest, hrest⟩ := LongestMatch.cons_iff.mp h
      have hstop : l.stop ≤ text.length := Nat.le_trans hrest.start_le hrest.stop_le
      exact LongestMatch.cons_iff.mpr ⟨hstart, hblank, hlongest, .refl hstop⟩
  | cons first front ih =>
      obtain ⟨hstart, hblank, hlongest, hrest⟩ := LongestMatch.cons_iff.mp h
      exact LongestMatch.cons_iff.mpr ⟨hstart, hblank, hlongest, ih hrest⟩

theorem scan_cut (h : scan line = .ok (front ++ l :: ahead)) :
    scan (slice line 0 l.stop) = .ok (front ++ [l]) := by
  obtain ⟨-, hmatch⟩ := scan_eq_ok_iff.mp h
  have hslice := hmatch.upTo.of_slice
  rw [Lexeme.map_relocate_sub_zero, String.length_toList] at hslice
  exact scan_eq_ok_iff.mpr ⟨by simp, hslice⟩

/-! ## Faults of lines -/

/-- A fault at a parenthesis comes from an expression, and what stands before that has none. -/
theorem Statement.exists_read_of_paren
    {fault : SyntaxFault} (hscan : scan line = .ok ls)
    (h : Statement.read m line ls = .error fault)
    (hfault : fault = .unclosed paren ∨ fault = .unopened paren) :
    ∃ before value, ls = before ++ value ∧ Balanced before ∧
      Expr.read m value = .error fault := by
  rcases opens_cases hscan with ⟨letWord, hread⟩ | ⟨name, other, hread⟩ | ⟨head, value, hopens, rfl⟩
  · cases h.symm.trans hread
    simp at hfault
  · cases h.symm.trans hread
    simp at hfault
  · obtain ⟨make, hread⟩ := read_of_opens (m := m) hopens hscan
    have hbalanced : Balanced head := by
      cases hopens with
      | expression => exact .nil
      | assignment letWord target equals hname =>
          exact .other (by simp [letWord.2]) (by simp [letWord.2]) <|
            .other (by simp [target.2]) (by simp [target.2]) <|
              .singleton (by simp [equals.2]) (by simp [equals.2])
    refine ⟨head, value, rfl, hbalanced, ?_⟩
    exact Except.map_eq_error_iff.mp (hread.symm.trans h)

namespace SyntaxFault

variable {fault : SyntaxFault} {position : Nat}

theorem exists_unclosed_of_lineError
    (h : fault.lineError line = .unpairedParen position .opening) :
    ∃ paren, fault = .unclosed paren ∧ paren.position = position := by
  cases fault <;> simp_all [lineError]

theorem exists_unopened_of_lineError
    (h : fault.lineError line = .unpairedParen position .closing) :
    ∃ paren, fault = .unopened paren ∧ paren.position = position := by
  cases fault <;> simp_all [lineError]

end SyntaxFault

namespace Memory

/-- The lexemes of a line whose reading fails at a parenthesis. -/
theorem exists_lexemes_of_unpairedParen
    {position : Nat} {side : Side} (h : m.parse line = .error (.unpairedParen position side)) :
    ∃ lexemes fault, scan line = .ok lexemes ∧ Statement.read m line lexemes = .error fault ∧
      fault.lineError line = .unpairedParen position side := by
  rcases parse_eq_error_iff.mp h with hscan | hread
  · rcases eq_empty_or_badCharacter_of_scan hscan with hfault | ⟨_, _, hfault⟩ <;> cases hfault
  · exact hread

/-- If an opening parenthesis is reported, it is the last one in the line without a counterpart, and
if a closing one is reported, all that are opened before it are closed before it.  If an expression
is cut after one of its lexemes, then the error of what is left is as follows, where no variable is
named like a function: the name of a function is unknown; else the innermost parenthesis that is
still open is reported; else an operand is missing after an operator; and else there is no error. -/
theorem parse_paren_faults (m : Memory) (line : String) :
    (∀ position, m.parse line = .error (.unpairedParen position .opening) →
      ∃ lexemes paren, scan line = .ok lexemes ∧ LastOpen paren lexemes ∧
        paren.position = position) ∧
    (∀ position, m.parse line = .error (.unpairedParen position .closing) →
      ∃ before paren after, scan line = .ok (before ++ paren :: after) ∧
        paren.token = .closeParen ∧ paren.position = position ∧ AllClosed before) ∧
    ((∀ function : Primitive, m.bindings.contains function.name = false) →
      ∀ e front l ahead, m.parse line = .ok (.expression e) →
        scan line = .ok (front ++ l :: ahead) →
          let cut := slice line 0 l.stop
          ((∃ function : Primitive, l.token = .identifier function.name) →
            m.parse cut = .error (.unknownName l.position l.text)) ∧
          ((∀ function : Primitive, l.token ≠ .identifier function.name) →
            (∀ paren, LastOpen paren (front ++ [l]) →
              m.parse cut = .error (.unpairedParen paren.position .opening)) ∧
            ((∀ paren, ¬LastOpen paren (front ++ [l])) →
              (l.isOperator = true →
                m.parse cut =
                  .error (.invalid "input ends where an operand is expected"
                    (some ⟨cut.length, 1⟩))) ∧
              (l.isOperator = false → ∃ e', m.parse cut = .ok (.expression e'))))) := by
  refine ⟨?_, ?_, ?_⟩
  · intro position h
    obtain ⟨lexemes, fault, hscan, hread, hfault⟩ := exists_lexemes_of_unpairedParen h
    obtain ⟨paren, rfl, hposition⟩ := SyntaxFault.exists_unclosed_of_lineError hfault
    obtain ⟨before, value, rfl, -, hvalue⟩ :=
      Statement.exists_read_of_paren hscan hread (.inl rfl)
    exact ⟨_, paren, hscan, (Expr.lastOpen_of_read_unclosed hvalue).append_left before, hposition⟩
  · intro position h
    obtain ⟨lexemes, fault, hscan, hread, hfault⟩ := exists_lexemes_of_unpairedParen h
    obtain ⟨paren, rfl, hposition⟩ := SyntaxFault.exists_unopened_of_lineError hfault
    obtain ⟨before, value, rfl, hbefore, hvalue⟩ :=
      Statement.exists_read_of_paren hscan hread (.inr rfl)
    obtain ⟨between, after, rfl, htoken, hbetween⟩ := Expr.exists_balanced_of_read_unopened hvalue
    rw [← List.append_assoc] at hscan
    exact ⟨_, paren, after, hscan, htoken, hposition, (hbefore.append hbetween).allClosed⟩
  · intro hunbound e front l ahead hparse hscan cut
    obtain ⟨lexemes, hlexemes, hread⟩ := parse_eq_ok_iff.mp hparse
    obtain rfl : front ++ l :: ahead = lexemes := Except.ok.inj (hscan.symm.trans hlexemes)
    obtain ⟨hlet, hexpr⟩ := Statement.read_eq_expression_iff.mp hread
    have hcut : m.parse cut =
        ((Expr.read m (front ++ [l])).map .expression).mapError (SyntaxFault.lineError cut) := by
      rw [parse_of_scan (scan_cut hscan), Statement.read_of_ne_letWord]
      intro first rest hfirst
      exact hlet first (rest ++ ahead) (by rw [← List.cons_append, ← hfirst]; simp)
    rw [hcut]
    refine ⟨?_, fun hplain => ?_⟩
    · rintro ⟨function, htoken⟩
      rw [Expr.read_cut_function hexpr htoken (hunbound function)]
      rfl
    · obtain ⟨hopen, hclosed⟩ := Expr.read_cut hexpr hplain
      refine ⟨fun paren hparen => ?_, fun hnone => ⟨fun hoperator => ?_, fun hoperator => ?_⟩⟩
      · rw [hopen paren hparen]
        rfl
      · rw [(hclosed hnone).1 hoperator]
        rfl
      · obtain ⟨e', he'⟩ := (hclosed hnone).2 hoperator
        rw [he']
        exact ⟨e', rfl⟩

/-- What is reported of `1 - abs(2)` if it ends after the minus sign, the name or the argument. -/
theorem parse_paren_faults_of_call :
    fresh.parse "1 -" =
      .error (.invalid "input ends where an operand is expected" (some ⟨3, 1⟩)) ∧
    fresh.parse "1 - abs" = .error (.unknownName 4 "abs") ∧
    fresh.parse "1 - abs(2" = .error (.unpairedParen 7 .opening) ∧
    ∃ lexemes paren, scan "1 - abs(2" = .ok lexemes ∧ LastOpen paren lexemes ∧
      paren.position = 7 := by
  have hunbound : ∀ function : Primitive, fresh.bindings.contains function.name = false := by
    intro function
    cases function <;> decide
  have hvalue : fresh.valueOf "1 - abs(2)" = .ok (.ofBits 0xbff0000000000000) := by decide +kernel
  obtain ⟨e, hparse, -⟩ := eval_of_valueOf hvalue
  have hscan : scan "1 - abs(2)" = .ok [⟨.number 1, "1", 0⟩, ⟨.operator .sub, "-", 2⟩,
      ⟨.identifier "abs", "abs", 4⟩, ⟨.openParen, "(", 7⟩, ⟨.number 2, "2", 8⟩,
      ⟨.closeParen, ")", 9⟩] := by decide +kernel
  have hminus : slice "1 - abs(2)" 0 (Lexeme.stop ⟨.operator .sub, "-", 2⟩) = "1 -" := by
    decide +kernel
  have hname : slice "1 - abs(2)" 0 (Lexeme.stop ⟨.identifier "abs", "abs", 4⟩) = "1 - abs" := by
    decide +kernel
  have hargument : slice "1 - abs(2)" 0 (Lexeme.stop ⟨.number 2, "2", 8⟩) = "1 - abs(2" := by
    decide +kernel
  have hcut := (parse_paren_faults fresh "1 - abs(2)").2.2 hunbound e
  have hfirst := hcut [⟨.number 1, "1", 0⟩] _ _ hparse hscan
  have hsecond := hcut [⟨.number 1, "1", 0⟩, ⟨.operator .sub, "-", 2⟩] _ _ hparse hscan
  have hthird := hcut [⟨.number 1, "1", 0⟩, ⟨.operator .sub, "-", 2⟩,
    ⟨.identifier "abs", "abs", 4⟩, ⟨.openParen, "(", 7⟩] _ _ hparse hscan
  rw [hminus] at hfirst
  rw [hname] at hsecond
  rw [hargument] at hthird
  have hclosed : AllClosed [⟨.number 1, "1", 0⟩, ⟨.operator .sub, "-", 2⟩] :=
    (Balanced.other (by simp) (by simp) (.singleton (by simp) (by simp))).allClosed
  have htwo : Balanced [⟨.number 2, "2", 8⟩] := .singleton (by simp) (by simp)
  have hopen := (hthird.2 (by simp)).1 ⟨.openParen, "(", 7⟩
    ⟨[_, _, _], [_], rfl, rfl, htwo.not_closedIn, htwo.allClosed⟩
  exact ⟨((hfirst.2 (by simp)).2 fun paren hparen => hparen.not_allClosed hclosed).1 rfl,
    hsecond.1 ⟨.abs, rfl⟩, hopen, (parse_paren_faults fresh "1 - abs(2").1 7 hopen⟩

end Memory

end Calculator
