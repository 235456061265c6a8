import Calculator.Proofs.Grammar.Runs
import Calculator.Proofs.Memory.Parsed
import Calculator.Proofs.Scanning.Operators

/-!
# Operators side by side in a line

What stands before the expression of a line has no operators and ends no operand, so the runs of
the line are those of its expression.  A line is blamed for operators side by side exactly for its
leftmost run that is not legal, and a line that is parsed has none; but operators that are not
legal, put in place of one of its runs, are blamed (`Memory.parse_operator_runs`).
-/

namespace Calculator

variable {m : Memory} {line : String} {ls head value before run after : List Lexeme}
  {first last : Lexeme}

namespace Statement.Opens

theorem isOperator_eq_false (h : Opens head value) : ∀ l ∈ head, l.isOperator = false := by
  cases h with
  | expression => simp
  | assignment letWord target equals =>
      simp [Lexeme.isOperator, letWord.2, target.2, equals.2, Token.isOperator, Token.operator?]

theorem not_endsOperand (h : Opens head value) : ¬EndsOperand head := by
  cases h with
  | expression => exact not_endsOperand_nil
  | assignment letWord target equals => simp [EndsOperand, Lexeme.endsOperand, equals.2]

/-- Another expression may stand at the same place, if it begins alike or with an operator. -/
theorem of_head
    {other : List Lexeme} (h : Opens head value)
    (hother : ∀ l ∈ other.head?, l ∈ value.head? ∨ l.isOperator = true) : Opens head other := by
  cases h with
  | expression hlet =>
      refine .expression fun l hl => ?_
      rcases hother l hl with hvalue | hoperator
      · exact hlet l hvalue
      · intro htoken
        rw [Lexeme.isOperator, htoken] at hoperator
        cases hoperator
  | assignment letWord target equals hname => exact .assignment letWord target equals hname other

end Statement.Opens

/-! ## Runs behind what stands before the expression -/

/-- Behind lexemes without operators, of which the last ends no operand, the first run that is not
legal is the first one of those that follow. -/
theorem FirstIllegalRun.append
    (h : FirstIllegalRun value before run after) (hhead : ∀ l ∈ head, l.isOperator = false)
    (hends : ¬EndsOperand head) : FirstIllegalRun (head ++ value) (head ++ before) run after where
  toOperatorRun := (OperatorRun.append_iff hhead).mpr ⟨before, rfl, h.toOperatorRun⟩
  illegal := fun hlegal => h.illegal ((legalRun_append_iff hends).mp hlegal)
  leftmost := fun before' run' after' hrun hillegal => by
    obtain ⟨front, rfl, hfront⟩ := (OperatorRun.append_iff hhead).mp hrun
    have hle := h.leftmost front run' after' hfront fun hlegal =>
      hillegal ((legalRun_append_iff hends).mpr hlegal)
    rw [List.length_append, List.length_append]
    exact Nat.add_le_add_left hle _

namespace Statement

theorem exists_firstIllegalRun
    (hscan : scan line = .ok ls) (h : Statement.read m line ls = .error (.operatorRun first last)) :
    ∃ before run after, FirstIllegalRun ls before run after ∧ 2 ≤ run.length ∧
      first ∈ run.head? ∧ last ∈ run.getLast? := by
  rcases opens_cases hscan with ⟨letWord, hread⟩ | ⟨name, fault, hread⟩ | ⟨head, value, hopens, rfl⟩
  · cases h.symm.trans hread
  · cases h.symm.trans hread
  obtain ⟨make, hread⟩ := read_of_opens hopens hscan
  have hvalue := Except.map_eq_error_iff.mp (hread.symm.trans h)
  obtain ⟨front, run, after, hrun, hreported⟩ := Expr.exists_firstIllegalRun hvalue
  exact ⟨head ++ front, run, after,
    hrun.append hopens.isOperator_eq_false hopens.not_endsOperand, hreported⟩

/-- A line that is read is made up of what stands before its expression and an expression that is
read. -/
theorem exists_opens_of_read
    {s : Statement} (hscan : scan line = .ok ls) (h : Statement.read m line ls = .ok s) :
    ∃ head value e, ls = head ++ value ∧ Opens head value ∧ Expr.read m value = .ok e := by
  rcases opens_cases hscan with ⟨letWord, hread⟩ | ⟨name, fault, hread⟩ | ⟨head, value, hopens, rfl⟩
  · cases h.symm.trans hread
  · cases h.symm.trans hread
  obtain ⟨make, hread⟩ := read_of_opens hopens hscan
  obtain ⟨e, he, -⟩ := Except.map_eq_ok_iff.mp (hread.symm.trans h)
  exact ⟨head, value, e, rfl, hopens, he⟩

theorem legalRun_of_read
    {s : Statement} (hscan : scan line = .ok ls) (h : Statement.read m line ls = .ok s)
    (hrun : OperatorRun ls before run after) : LegalRun before run := by
  obtain ⟨head, value, e, rfl, hopens, he⟩ := exists_opens_of_read hscan h
  obtain ⟨front, rfl, hfront⟩ := (OperatorRun.append_iff hopens.isOperator_eq_false).mp hrun
  exact (legalRun_append_iff hopens.not_endsOperand).mpr (Expr.legalRun_of_read he hfront)

/-- Operators that are not legal are reported in place of a run of a line that is read. -/
theorem read_of_illegal_run
    {s : Statement} {other : String} {ops after' : List Lexeme} (hscan : scan line = .ok ls)
    (h : Statement.read m line ls = .ok s) (hrun : OperatorRun ls before run after)
    (hother : scan other = .ok (before ++ (ops ++ after')))
    (hops : OperatorRun (before ++ (ops ++ after')) before ops after')
    (hillegal : ¬LegalRun before ops) (hmany : 2 ≤ ops.length) (hfirst : first ∈ ops.head?)
    (hlast : last ∈ ops.getLast?) :
    Statement.read m other (before ++ (ops ++ after')) = .error (.operatorRun first last) := by
  obtain ⟨head, value, e, rfl, hopens, he⟩ := exists_opens_of_read hscan h
  have hhead := hopens.isOperator_eq_false
  obtain ⟨front, rfl, hfront⟩ := (OperatorRun.append_iff hhead).mp hrun
  rw [List.append_assoc] at hother hops ⊢
  obtain ⟨front', hfront', hopsValue⟩ := (OperatorRun.append_iff hhead).mp hops
  obtain rfl := List.append_cancel_left hfront'
  have hvalue := Expr.read_of_illegal_run he hfront hopsValue
    (fun hlegal => hillegal ((legalRun_append_iff hopens.not_endsOperand).mpr hlegal))
    hmany hfirst hlast
  have hopens' : Opens head (front ++ (ops ++ after')) := hopens.of_head fun l hl => by
    rw [hfront.cut]
    cases front with
    | cons other front => exact .inl hl
    | nil =>
        obtain ⟨op, others, rfl⟩ := List.exists_cons_of_ne_nil hops.nonempty
        cases hl
        exact .inr (hops.operators l List.mem_cons_self)
  obtain ⟨make, hread⟩ := read_of_opens hopens' hother
  rw [hread, hvalue]
  rfl

end Statement

/-! ## Lines -/

theorem SyntaxFault.exists_operatorRun_of_lineError
    {fault : SyntaxFault} {position : Nat} {text : String}
    (h : fault.lineError line = .adjacentOperators position text) :
    ∃ first last, fault = .operatorRun first last ∧ first.position = position ∧
      slice line first.position last.stop = text := by
  cases fault with
  | operatorRun first last =>
      cases h
      exact ⟨first, last, rfl, rfl, rfl⟩
  | endOfInput | unclosed | unopened | unexpected | tooDeep | unknownFunction | wrongCount
  | unknownName | letWithoutValue | badName => cases h

namespace Memory

/-- If operators side by side are reported, they are the leftmost run that is not legal, from its
first operator to the end of its last, and it has several operators.  No line with a run that is not
legal is parsed.  If several operators that are not legal there are put in place of a run of a line
that is parsed, they are reported. -/
theorem parse_operator_runs (m : Memory) (line : String) :
    (∀ position text, m.parse line = .error (.adjacentOperators position text) →
      ∃ ls before run after first last, scan line = .ok ls ∧
        FirstIllegalRun ls before run after ∧ 2 ≤ run.length ∧
        first ∈ run.head? ∧ last ∈ run.getLast? ∧ first.position = position ∧
        slice line first.position last.stop = text) ∧
    ∀ s ls before run after, m.parse line = .ok s → scan line = .ok ls →
      OperatorRun ls before run after →
        LegalRun before run ∧
        ∀ first last replacement ops start finish,
          first ∈ run.head? → last ∈ run.getLast? → scan replacement = .ok ops →
          (∀ l ∈ ops, l.isOperator = true) → 2 ≤ ops.length → ¬LegalRun before ops →
          start ∈ ops.head? → finish ∈ ops.getLast? →
            let other := spliced line first.position last.stop replacement
            let position := first.position + start.position
            m.parse other = .error (.adjacentOperators position
              (slice other position (first.position + finish.stop))) := by
  constructor
  · intro position text h
    rcases parse_eq_error_iff.mp h with hscan | ⟨ls, fault, hscan, hread, hfault⟩
    · rcases eq_empty_or_badCharacter_of_scan hscan with hblank | ⟨_, _, hbad⟩
      · cases hblank
      · cases hbad
    · obtain ⟨first, last, rfl, hposition, htext⟩ :=
        SyntaxFault.exists_operatorRun_of_lineError hfault
      obtain ⟨before, run, after, hrun, hmany, hfirst, hlast⟩ :=
        Statement.exists_firstIllegalRun hscan hread
      exact ⟨ls, before, run, after, first, last, hscan, hrun, hmany, hfirst, hlast, hposition,
        htext⟩
  · intro s ls before run after hparse hscan hrun
    obtain ⟨lexemes, hlexemes, hread⟩ := parse_eq_ok_iff.mp hparse
    obtain rfl : ls = lexemes := Except.ok.inj (hscan.symm.trans hlexemes)
    refine ⟨Statement.legalRun_of_read hscan hread hrun, ?_⟩
    intro first last replacement ops start finish hfirst hlast hops hoperators hmany hillegal
      hstart hfinish other position
    have hother := scan_spliced (hrun.cut ▸ hscan) hfirst hlast hops hoperators hmany
    let shifted := ops.map (·.relocate (first.position + ·))
    have hshifted : ∀ l ∈ shifted, l.isOperator = true := by
      intro l hl
      obtain ⟨origin, horigin, rfl⟩ := List.mem_map.mp hl
      exact hoperators origin horigin
    have hmanyShifted : 2 ≤ shifted.length := by rwa [List.length_map]
    have hrunOther := hrun.replace hshifted (List.ne_nil_of_length_pos (by omega))
    have hstartShifted : start.relocate (first.position + ·) ∈ shifted.head? := by
      rw [List.head?_map, Option.mem_def.mp hstart]
      rfl
    have hfinishShifted : finish.relocate (first.position + ·) ∈ shifted.getLast? := by
      rw [List.getLast?_map, Option.mem_def.mp hfinish]
      rfl
    have hblamed := Statement.read_of_illegal_run hscan hread hrun hother (hrunOther _)
      (fun hlegal => hillegal hlegal.of_map_relocate) hmanyShifted hstartShifted hfinishShifted
    rw [parse_of_scan hother, hblamed, ← finish.stop_relocate_add]
    rfl

/-- In `4 * -(3 - 1)` the run of two operators is legal, and ` ^ /` in its place is not. -/
theorem parse_operator_runs_of_product :
    let line := "4 * -(3 - 1)"
    let other := "4  ^ /(3 - 1)"
    let four : Lexeme := ⟨.number 4, "4", 0⟩
    (∃ s, fresh.parse line = .ok s) ∧
    LegalRun [four] [⟨.operator .mul, "*", 2⟩, ⟨.operator .sub, "-", 4⟩] ∧
    fresh.parse other = .error (.adjacentOperators 3 "^ /") ∧
    ∃ ls before run after first last, scan other = .ok ls ∧ FirstIllegalRun ls before run after ∧
      2 ≤ run.length ∧ first ∈ run.head? ∧ last ∈ run.getLast? ∧ first.position = 3 ∧
      slice other first.position last.stop = "^ /" := by
  intro line other four
  let times : Lexeme := ⟨.operator .mul, "*", 2⟩
  let minus : Lexeme := ⟨.operator .sub, "-", 4⟩
  let power : Lexeme := ⟨.operator .pow, "^", 1⟩
  let slash : Lexeme := ⟨.operator .div, "/", 3⟩
  let behind : List Lexeme := [⟨.openParen, "(", 5⟩, ⟨.number 3, "3", 6⟩,
    ⟨.operator .sub, "-", 8⟩, ⟨.number 1, "1", 10⟩, ⟨.closeParen, ")", 11⟩]
  have hvalue : fresh.valueOf line = .ok (.ofBits 0xc020000000000000) := by decide +kernel
  obtain ⟨e, hparse, -⟩ := eval_of_valueOf hvalue
  have hscan : scan line = .ok ([four] ++ ([times, minus] ++ behind)) := by decide +kernel
  have hops : scan " ^ /" = .ok [power, slash] := by decide +kernel
  have hrun : OperatorRun ([four] ++ ([times, minus] ++ behind)) [four] [times, minus] behind := by
    refine ⟨rfl, List.cons_ne_nil _ _, by decide, ?_, ?_⟩ <;>
      · rintro _ ⟨⟩
        rfl
  have hillegal : ¬LegalRun [four] [power, slash] := by
    rintro (_ | ⟨_, _, -, hminus⟩ | _)
    cases hminus
  obtain ⟨hlegal, hreplaced⟩ := (parse_operator_runs fresh line).2 _ _ _ _ _ hparse hscan hrun
  have hblamed := hreplaced times minus " ^ /" [power, slash] power slash rfl rfl hops (by decide)
    (by decide) hillegal rfl rfl
  have hspliced : spliced line times.position minus.stop " ^ /" = other := by decide +kernel
  have htext : slice other 3 (times.position + slash.stop) = "^ /" := by decide +kernel
  have hother : fresh.parse other = .error (.adjacentOperators 3 "^ /") := by
    rw [hspliced] at hblamed
    rw [← htext]
    exact hblamed
  exact ⟨⟨_, hparse⟩, hlegal, hother, (parse_operator_runs fresh other).1 3 "^ /" hother⟩

end Memory

end Calculator
