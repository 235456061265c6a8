import Calculator.Proofs.Grammar.Blame
import Calculator.Proofs.Memory.Parsed
import Calculator.Proofs.Memory.Spacing
import Calculator.Proofs.Memory.Table
import Calculator.Proofs.Memory.Variable
import Calculator.Proofs.Scanning.Front

/-!
# An assignment is its right-hand side

Writing `let`, a name and `=` in front of an expression changes its result in no way, except that
every position in an error is counted from further to the left (`LineError.shift`).  What stands in
front is three lexemes, which the scan passes (`scan_assigning`); then the same lexemes are read as
without them, at other positions, and the tree that is read has the same value.
-/

namespace Calculator

/-- What stands in front of the value of an assignment. -/
def assigning (name : String) : String :=
  "let " ++ name ++ " = "

/-- How a lexeme is refused that cannot stand at its place. -/
def unexpectedReason (text : String) (position : Nat) : String :=
  s!"unexpected '{text}' at position {position}"

/-- The error of a line with every position in it shifted, also the one that is quoted when the
lexeme at the place of the error cannot stand there. -/
def LineError.shift (line : String) (shift : Nat) : LineError → LineError
  | .invalid reason (some span) =>
    let text := slice line span.position (span.position + span.length)
    let shifted :=
      if reason = unexpectedReason text span.position then
        unexpectedReason text (shift + span.position)
      else
        reason
    .invalid shifted (some (span.relocate (shift + ·)))
  | fault => fault.relocate (shift + ·)

variable {m : Memory} {name line : String} {shift : Nat} {ls : List Lexeme}

/-! ## Scanning what stands in front -/

/-- The three lexemes in front of the value of an assignment. -/
theorem exists_cut_assigning (hname : Name.check name = .ok ()) :
    ∃ (letWord : Terminal .letWord) (target : Terminal (.identifier name))
      (equals : Terminal .equals),
      LongestMatch (assigning name).toList 0 (assigning name).toList.length
        [letWord.1, target.1, equals.1] := by
  have htext : assigning name = spaced "" [("let", " "), (name, " "), ("=", " ")] := by
    rw [← String.toList_inj]
    simp [assigning, spaced, String.toList_append]
  have hcuts : Cuts (assigning name).toList
      ([⟨.letWord, "let", 0⟩, ⟨.identifier name, name, 0⟩, ⟨.equals, "=", 0⟩].map
        Lexeme.word) := by
    rw [htext]
    refine cuts_spaced (by decide) (by simp [isSkipped]) (by simp) rfl ?_
    simp only [List.forall_mem_cons, List.not_mem_nil, false_imp_iff, implies_true, and_true]
    exact ⟨.letWord, Name.spells_of_check hname, .equals⟩
  obtain ⟨lexemes, hmatch, hwords⟩ := hcuts
  obtain ⟨letWord, rest, rfl, hlet, hrest⟩ := List.map_eq_cons_iff.mp hwords
  obtain ⟨target, rest, rfl, htarget, hrest⟩ := List.map_eq_cons_iff.mp hrest
  obtain ⟨equals, rest, rfl, hequals, hrest⟩ := List.map_eq_cons_iff.mp hrest
  obtain rfl := List.map_eq_nil_iff.mp hrest
  exact ⟨⟨letWord, congrArg Prod.fst hlet⟩, ⟨target, congrArg Prod.fst htarget⟩,
    ⟨equals, congrArg Prod.fst hequals⟩, hmatch⟩

theorem seam_assigning : Seam (assigning name).toList line.toList := by
  refine .of_parts_left fun c hc => ?_
  have hlast : (assigning name).toList.getLast? = some ' ' := by
    rw [assigning, String.toList_append, List.getLast?_append]
    rfl
  obtain rfl := Option.mem_some_iff.mp (hlast ▸ hc)
  exact parts_of_isSkipped rfl

/-- The lexemes of a line follow the three in front of it, or its error comes up further to the
right. -/
theorem scan_assigning
    (hname : Name.check name = .ok ()) (hvisible : line.toList.all isSkipped = false) :
    ∃ (letWord : Terminal .letWord) (target : Terminal (.identifier name))
      (equals : Terminal .equals),
      scan (assigning name ++ line) =
        (relocateScan ((assigning name).length + ·) (scan line)).map
          (letWord.1 :: target.1 :: equals.1 :: ·) := by
  obtain ⟨letWord, target, equals, hmatch⟩ := exists_cut_assigning hname
  have hfront : (assigning name ++ line).toList.all isSkipped = false := by
    rw [String.toList_append, List.all_append, hvisible, Bool.and_false]
  refine ⟨letWord, target, equals, ?_⟩
  have hscan : ∀ text : String, text.toList.all isSkipped = false →
      scan text = scanFrom 0 text.toList := by
    intro text htext
    rw [scan, htext, if_neg Bool.false_ne_true]
  rw [hscan _ hfront, hscan _ hvisible, String.toList_append,
    scanFrom_append hmatch seam_assigning, String.length_toList]
  rfl

/-! ## Shifting errors -/

/-- An error without a place stays as it is. -/
theorem LineError.relocate_eq_shift
    {fault : LineError} (h : fault.span = none) :
    fault.relocate (shift + ·) = fault.shift line shift := by
  cases fault with
  | invalid reason span =>
      obtain rfl : span = none := h
      rfl
  | empty | badName | infinite => rfl
  | badCharacter | unpairedParen | adjacentOperators | badCall | unknownName => cases h

theorem LineError.shift_unexpected
    {text : String} {span : Span}
    (h : slice line span.position (span.position + span.length) = text) :
    LineError.shift line shift (.invalid (unexpectedReason text span.position) (some span)) =
      .invalid (unexpectedReason text (shift + span.position))
        (some (span.relocate (shift + ·))) := by
  simp only [LineError.shift, h, if_pos]

theorem slice_append (before line : String) (start stop : Nat) :
    slice (before ++ line) (before.length + start) (before.length + stop) =
      slice line start stop := by
  rw [slice, slice, String.toList_append, ← String.length_toList, List.drop_length_add_append,
    Nat.add_sub_add_left]

theorem unexpectedReason_ne
    {reason : String} (h : reason.toList.head? ≠ some 'u') (text : String) (position : Nat) :
    reason ≠ unexpectedReason text position := by
  rintro rfl
  apply h
  show ("unexpected '" ++ text ++ "' at position " ++ toString position).toList.head? = some 'u'
  simp [String.toList_append]

/-- A fault at lexemes that are moved to the right says the same with its positions shifted. -/
theorem SyntaxFault.lineError_relocate
    (before : String) (hscan : scan line = .ok ls) {fault : SyntaxFault} (h : fault.Blames ls) :
    (fault.relocate (before.length + ·)).lineError (before ++ line) =
      (fault.lineError line).shift line before.length := by
  have hkept : ∀ {reason : String} (span : Span), reason.toList.head? ≠ some 'u' →
      LineError.shift line before.length (.invalid reason (some span)) =
        .invalid reason (some (span.relocate (before.length + ·))) := by
    intro reason span hreason
    simp only [LineError.shift, if_neg (unexpectedReason_ne hreason _ _)]
  cases fault with
  | endOfInput =>
      rw [lineError, hkept _ (by simp)]
      simp [lineError, Span.relocate, String.length_append]
  | tooDeep lexeme =>
      rw [lineError, hkept _ (by decide)]
      rfl
  | letWithoutValue letWord =>
      rw [lineError, hkept _ (by simp)]
      rfl
  | operatorRun first last =>
      show LineError.adjacentOperators _ (slice (before ++ line) (before.length + first.position)
        (last.relocate (before.length + ·)).stop) = _
      rw [last.stop_relocate_add, slice_append]
      rfl
  | unexpected lexeme =>
      obtain ⟨-, hmatch⟩ := scan_eq_ok_iff.mp hscan
      have htext := hmatch.slice_eq h
      have hpos := hmatch.position_lt_stop h
      have hstop : lexeme.position + max lexeme.text.length 1 = lexeme.stop := by
        have := lexeme.stop_eq
        rw [String.length_toList] at this
        omega
      have hquoted : slice line lexeme.span.position
          (lexeme.span.position + lexeme.span.length) = lexeme.text := by
        rw [← htext, ← hstop]
        rfl
      exact (LineError.shift_unexpected hquoted).symm
  | unclosed | unopened | unknownFunction | wrongCount | unknownName | badName => rfl

/-! ## Reading the value -/

/-- After a name and `=` an expression is read. -/
theorem Statement.read_assignment
    {letWord : Terminal .letWord} {target : Terminal (.identifier name)} {equals : Terminal .equals}
    (hname : Name.check name = .ok ())
    (hscan : scan line = .ok (letWord.1 :: target.1 :: equals.1 :: ls)) :
    Statement.read m line (letWord.1 :: target.1 :: equals.1 :: ls) =
      (Expr.read m ls).map (.assignment name) := by
  obtain ⟨-, hmatch⟩ := scan_eq_ok_iff.mp hscan
  obtain ⟨-, -, -, hrest⟩ := LongestMatch.cons_iff.mp hmatch
  rw [Statement.read, if_pos letWord.2, readAssignment_of_check hname hrest]

namespace Memory

/-- The two lines are parsed into the same tree, moved to the right, or refused alike. -/
theorem parse_assigning
    (hname : Name.check name = .ok ()) (hvisible : line.toList.all isSkipped = false)
    (hlet : ∀ first rest, scan line = .ok (first :: rest) → first.token ≠ .letWord) :
    (∃ e, m.parse line = .ok (.expression e) ∧
      m.parse (assigning name ++ line) =
        .ok (.assignment name (e.relocate ((assigning name).length + ·)))) ∨
    ∃ fault, m.parse line = .error fault ∧
      m.parse (assigning name ++ line) =
        .error (fault.shift line (assigning name).length) := by
  obtain ⟨letWord, target, equals, hfront⟩ := scan_assigning hname hvisible
  rcases hscan : scan line with fault | ls <;> rw [hscan] at hfront
  · refine .inr ⟨fault, by rw [parse, hscan], ?_⟩
    rw [parse, hfront]
    rcases eq_empty_or_badCharacter_of_scan hscan with rfl | ⟨position, c, rfl⟩
    · rw [scan_eq_empty_iff, hvisible] at hscan
      cases hscan
    · rfl
  · have hread : Statement.read m line ls = (Expr.read m ls).map .expression :=
      Statement.read_of_ne_letWord fun first rest hls => hlet first rest (hls ▸ hscan)
    have hassigned := Statement.read_assignment (m := m) hname hfront
    rw [Expr.read_relocate] at hassigned
    rw [parse_of_scan hscan, parse_of_scan hfront, hread, hassigned]
    rcases hexpr : Expr.read m ls with fault | e
    · have hblames : fault.Blames ls := Expr.blames_of_read List.suffix_rfl hexpr
      exact .inr ⟨fault.lineError line, rfl,
        congrArg Except.error (SyntaxFault.lineError_relocate (assigning name) hscan hblames)⟩
    · exact .inl ⟨e, rfl, rfl⟩

/-- An assignment gives what its right-hand side gives on a line of its own: the same value, or the
same error with all its positions shifted by what stands in front.  If there is a value, the
memories that the two lines leave differ in the target only, which then is a line of that value. -/
theorem evaluate_assigning
    {m : Memory} {name line : String} (hname : Name.check name = .ok ())
    (hvisible : ∃ c ∈ line.toList, c ∉ [' ', '\t', '\r', '\n', '\x0c'])
    (hlet : ∀ first rest, scan line = .ok (first :: rest) → first.token ≠ .letWord) :
    (m.evaluate (assigning name ++ line)).1 =
      (m.evaluate line).1.mapError (LineError.shift line (assigning name).length) ∧
    ∀ v, (m.evaluate line).1 = .ok v →
      (m.evaluate (assigning name ++ line)).2 = (m.evaluate line).2.bound name v ∧
      ((m.evaluate (assigning name ++ line)).2.evaluate name).1 = .ok v := by
  have hskipped : line.toList.all isSkipped = false := by
    obtain ⟨c, hc, hblank⟩ := hvisible
    rw [mem_blanks_iff] at hblank
    exact List.all_eq_false.mpr ⟨c, hc, hblank⟩
  rcases parse_assigning (m := m) hname hskipped hlet with
    ⟨e, hline, hassigned⟩ | ⟨fault, hline, hassigned⟩
  · have hmoved := m.evalFinite_relocate ((assigning name).length + ·) e
    rw [evaluate_of_parse hline, evaluate_of_parse hassigned]
    simp only [Statement.value, hmoved]
    rcases hvalue : m.evalFinite e with fault | v
    · have hspan : fault.span = none := span_eq_none_of_evalFinite hline hvalue
      refine ⟨congrArg Except.error (LineError.relocate_eq_shift hspan), ?_⟩
      rintro v ⟨⟩
    · refine ⟨rfl, ?_⟩
      rintro _ ⟨⟩
      have hfinite : v.isFinite = true := (evalFinite_eq_ok_iff.mp hvalue).2
      have hbound : (m.bindings.insert name v).get? name = some v := by
        rw [Bindings.get?_insert, if_pos rfl]
      exact ⟨rfl, congrArg Prod.fst (evaluate_of_check hname hbound hfinite)⟩
  · rw [evaluate_of_parse_error hline, evaluate_of_parse_error hassigned]
    refine ⟨rfl, ?_⟩
    rintro v ⟨⟩

/-- The error of a right-hand side quotes its position, which is shifted too. -/
theorem evaluate_assigning_of_unexpected :
    let line := "2 * , 3"
    assigning "x" = "let x = " ∧
    (fresh.evaluate line).1 =
      .error (.invalid "unexpected ',' at position 4" (some ⟨4, 1⟩)) ∧
    (fresh.evaluate (assigning "x" ++ line)).1 =
      .error (.invalid "unexpected ',' at position 12" (some ⟨12, 1⟩)) := by
  intro line
  have hline : (fresh.evaluate line).1 =
      .error (.invalid "unexpected ',' at position 4" (some ⟨4, 1⟩)) := by decide +kernel
  have hlet : ∀ first rest, scan line = .ok (first :: rest) → first.token ≠ .letWord := by
    intro first rest hscan
    have hfirst : (scan line).toOption.bind (·.head?.map Lexeme.token) = some (.number 2) := by
      decide +kernel
    rw [hscan] at hfirst
    rw [Option.some.inj hfirst]
    simp
  have hassigned : (fresh.evaluate (assigning "x" ++ line)).1 =
      (fresh.evaluate line).1.mapError (LineError.shift line (assigning "x").length) :=
    (evaluate_assigning (by decide) ⟨'2', by decide, by decide⟩ hlet).1
  rw [hline] at hassigned
  exact ⟨rfl, hline, hassigned.trans (by decide +kernel)⟩

end Memory

end Calculator
