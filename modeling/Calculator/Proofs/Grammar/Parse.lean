import Calculator.Proofs.Grammar.Soundness
import Calculator.Proofs.Grammar.Target

/-!
# Lines are parsed by the grammar

A line is parsed exactly if its lexemes have an admissible derivation.  There is at most one, and
the statement that is parsed is its tree.
-/

theorem Except.map_eq_ok_iff
    {ε α β : Type} {x : Except ε α} {f : α → β} {b : β} :
    x.map f = .ok b ↔ ∃ a, x = .ok a ∧ f a = b := by
  cases x <;> simp [Except.map]

theorem Except.map_eq_error_iff
    {ε α β : Type} {x : Except ε α} {f : α → β} {e : ε} :
    x.map f = .error e ↔ x = .error e := by
  cases x <;> simp [Except.map]

namespace Calculator

variable {m : Memory} {line : String}

/-- An expression does not begin with `let`. -/
theorem Derivation.yield_ne_letWord
    (d : Derivation .expr) (letWord : Terminal .letWord) (ls : List Lexeme) :
    d.yield ≠ letWord.1 :: ls := by
  obtain ⟨l, ls', hcons, -, hl⟩ := d.exists_cons_of_expr
  rw [hcons]
  intro h
  rw [(List.cons.inj h).1] at hl
  exact hl letWord.2

/-! ## Assignments -/

/-- After a name that a variable may have and `=` an expression is read. -/
theorem Statement.readAssignment_of_check
    {start stop : Nat} {name : String} {letWord : Lexeme} {target : Terminal (.identifier name)}
    {equals : Terminal .equals} {value : List Lexeme} (hname : Name.check name = .ok ())
    (h : LongestMatch line.toList start stop (target.1 :: equals.1 :: value)) :
    readAssignment m line letWord (target.1 :: equals.1 :: value) =
      (Expr.read m value).map (.assignment name) := by
  have hfault := Name.check_eq_ok_iff.mp hname
  have htarget : target.1.isEquals = false := by simp [Lexeme.isEquals, target.2]
  have hequals : equals.1.isEquals = true := by simp [Lexeme.isEquals, equals.2]
  simp only [readAssignment, List.dropWhile_cons, htarget, hequals, Bool.not_false, Bool.not_true,
    if_true, Bool.false_eq_true, if_false, targetText_of_name h, hfault]

theorem Statement.readAssignment_eq_ok_iff
    {start stop : Nat} {letWord : Lexeme} {lexemes : List Lexeme} {s : Statement}
    (h : LongestMatch line.toList start stop lexemes) :
    readAssignment m line letWord lexemes = .ok s ↔
      ∃ (name : String) (target : Terminal (.identifier name)) (equals : Terminal .equals)
        (value : Derivation .expr), lexemes = target.1 :: equals.1 :: value.yield ∧
        Name.check name = .ok () ∧ value.Admissible m 0 ∧ .assignment name value.tree = s := by
  constructor
  · intro hread
    unfold readAssignment at hread
    split at hread
    · cases hread
    · rename_i equals value hvalue
      dsimp only at hread
      split at hread
      · cases hread
      · rename_i hfault
        obtain ⟨target, hlexemes⟩ := exists_target_of_fault? h hvalue rfl hfault
        obtain ⟨e, hexpr, rfl⟩ := Except.map_eq_ok_iff.mp hread
        obtain ⟨d, rfl, hadm, rfl⟩ := Expr.read_eq_ok_iff.mp hexpr
        exact ⟨_, target, ⟨equals, token_of_dropWhile hvalue⟩, d, hlexemes,
          Name.check_eq_ok_iff.mpr hfault, hadm, rfl⟩
  · rintro ⟨name, target, equals, value, rfl, hname, hadm, rfl⟩
    rw [readAssignment_of_check hname h, value.read_yield hadm]
    rfl

/-- The lexemes of a line are read as a statement exactly if they have an admissible derivation. -/
theorem Statement.read_eq_ok_iff
    {lexemes : List Lexeme} {s : Statement} (hscan : scan line = .ok lexemes) :
    Statement.read m line lexemes = .ok s ↔
      ∃ d : LineDerivation, d.yield = lexemes ∧ d.Admissible m ∧ d.tree = s := by
  obtain ⟨hne, hmatch⟩ := scan_eq_ok_iff.mp hscan
  obtain ⟨first, rest, rfl⟩ := List.exists_cons_of_ne_nil hne
  obtain ⟨-, -, -, hrest⟩ := LongestMatch.cons_iff.mp hmatch
  unfold Statement.read
  by_cases hlet : first.token = .letWord
  · simp only [hlet, if_true]
    rw [readAssignment_eq_ok_iff hrest]
    constructor
    · rintro ⟨name, target, equals, value, rfl, hname, hadm, rfl⟩
      exact ⟨.assignment ⟨first, hlet⟩ name target equals value, rfl, ⟨hname, hadm⟩, rfl⟩
    · rintro ⟨d, hyield, hadm, rfl⟩
      cases d with
      | expression value =>
          exact absurd hyield (value.yield_ne_letWord ⟨first, hlet⟩ rest)
      | assignment letWord name target equals value =>
          exact ⟨name, target, equals, value, (List.cons.inj hyield).2.symm, hadm.1, hadm.2, rfl⟩
  · simp only [hlet, if_false]
    constructor
    · intro hread
      obtain ⟨e, hexpr, rfl⟩ := Except.map_eq_ok_iff.mp hread
      obtain ⟨d, hyield, hadm, rfl⟩ := Expr.read_eq_ok_iff.mp hexpr
      exact ⟨.expression d, hyield, hadm, rfl⟩
    · rintro ⟨d, hyield, hadm, rfl⟩
      cases d with
      | expression value =>
          have hexpr := Expr.read_eq_ok_iff.mpr ⟨value, hyield, hadm, rfl⟩
          exact Except.map_eq_ok_iff.mpr ⟨value.tree, hexpr, rfl⟩
      | assignment letWord name target equals value =>
          rw [← (List.cons.inj hyield).1] at hlet
          exact absurd letWord.2 hlet

/-- Without `let` a line is an expression. -/
theorem Statement.read_of_ne_letWord
    {ls : List Lexeme} (hlet : ∀ first rest, ls = first :: rest → first.token ≠ .letWord) :
    Statement.read m line ls = (Expr.read m ls).map .expression := by
  cases ls with
  | nil => rfl
  | cons first rest => rw [Statement.read, if_neg (hlet first rest rfl)]

theorem Statement.read_eq_expression_iff
    {ls : List Lexeme} {e : Expr} :
    Statement.read m line ls = .ok (.expression e) ↔
      (∀ first rest, ls = first :: rest → first.token ≠ .letWord) ∧ Expr.read m ls = .ok e := by
  constructor
  · intro h
    have hlet : ∀ first rest, ls = first :: rest → first.token ≠ .letWord := by
      rintro first rest rfl hfirst
      rw [Statement.read, if_pos hfirst, readAssignment] at h
      split at h
      · cases h
      · dsimp only at h
        split at h
        · cases h
        · obtain ⟨value, -, hvalue⟩ := Except.map_eq_ok_iff.mp h
          cases hvalue
    rw [read_of_ne_letWord hlet, Except.map_eq_ok_iff] at h
    obtain ⟨value, hvalue, heq⟩ := h
    cases heq
    exact ⟨hlet, hvalue⟩
  · rintro ⟨hlet, hread⟩
    rw [read_of_ne_letWord hlet, hread]
    rfl

/-! ## What stands before the expression -/

/-- The lexemes `head` stand before the expression of a line: none, or the word `let`, a name that a
variable may have and `=`. -/
inductive Statement.Opens : List Lexeme → List Lexeme → Prop where
  | expression {value : List Lexeme} (hlet : ∀ first ∈ value.head?, first.token ≠ .letWord) :
      Opens [] value
  | assignment {name : String} (letWord : Terminal .letWord) (target : Terminal (.identifier name))
      (equals : Terminal .equals) (hname : Name.check name = .ok ()) (value : List Lexeme) :
      Opens [letWord.1, target.1, equals.1] value

/-- After what stands before it the expression decides. -/
theorem Statement.read_of_opens
    {head value : List Lexeme} (h : Opens head value) (hscan : scan line = .ok (head ++ value)) :
    ∃ make : Expr → Statement,
      Statement.read m line (head ++ value) = (Expr.read m value).map make := by
  cases h with
  | expression hlet =>
      refine ⟨.expression, read_of_ne_letWord ?_⟩
      rintro first rest rfl
      exact hlet first rfl
  | @assignment name letWord target equals hname =>
      obtain ⟨-, hmatch⟩ := scan_eq_ok_iff.mp hscan
      obtain ⟨-, -, -, hrest⟩ := LongestMatch.cons_iff.mp hmatch
      refine ⟨.assignment name, ?_⟩
      rw [List.cons_append, Statement.read, if_pos letWord.2]
      exact readAssignment_of_check hname hrest

/-- A line without an expression is an assignment without `=` or with a bad name. -/
theorem Statement.opens_cases
    {ls : List Lexeme} (hscan : scan line = .ok ls) :
    (∃ letWord, Statement.read m line ls = .error (.letWithoutValue letWord)) ∨
      (∃ name fault, Statement.read m line ls = .error (.badName name fault)) ∨
      ∃ head value, Opens head value ∧ ls = head ++ value := by
  cases ls with
  | nil => exact .inr (.inr ⟨[], [], .expression (by simp), rfl⟩)
  | cons first rest =>
      by_cases hlet : first.token = .letWord
      · obtain ⟨-, hmatch⟩ := scan_eq_ok_iff.mp hscan
        obtain ⟨-, -, -, hrest⟩ := LongestMatch.cons_iff.mp hmatch
        rw [Statement.read, if_pos hlet, readAssignment]
        split
        · exact .inl ⟨first, rfl⟩
        · rename_i equals value hdrop
          dsimp only
          split
          · exact .inr (.inl ⟨_, _, rfl⟩)
          · rename_i hfault
            obtain ⟨target, htarget⟩ := exists_target_of_fault? hrest hdrop rfl hfault
            have hopens := Opens.assignment ⟨first, hlet⟩ target
              ⟨equals, token_of_dropWhile hdrop⟩ (Name.check_eq_ok_iff.mpr hfault) value
            exact .inr (.inr ⟨_, value, hopens, congrArg (first :: ·) htarget⟩)
      · refine .inr (.inr ⟨[], first :: rest, .expression ?_, rfl⟩)
        rintro _ ⟨⟩
        exact hlet

theorem Memory.parse_of_scan
    {ls : List Lexeme} (hscan : scan line = .ok ls) :
    m.parse line = (Statement.read m line ls).mapError (SyntaxFault.lineError line) := by
  rw [parse, hscan]

theorem Memory.parse_eq_ok_iff
    {s : Statement} :
    m.parse line = .ok s ↔
      ∃ lexemes, scan line = .ok lexemes ∧ Statement.read m line lexemes = .ok s := by
  unfold parse
  cases scan line with
  | error fault => simp
  | ok lexemes =>
      cases hread : Statement.read m line lexemes <;> simp [hread, Except.mapError]

/-- A line is parsed as an expression exactly if its lexemes are those of one. -/
theorem Memory.parse_eq_expression_iff
    {e : Expr} :
    m.parse line = .ok (.expression e) ↔
      ∃ d : Derivation .expr, scan line = .ok d.yield ∧ d.Admissible m 0 ∧ d.tree = e := by
  rw [parse_eq_ok_iff]
  constructor
  · rintro ⟨lexemes, hscan, hread⟩
    obtain ⟨d, rfl, hadm, htree⟩ := (Statement.read_eq_ok_iff hscan).mp hread
    rcases d with d | ⟨letWord, name, target, equals, value⟩
    · cases htree
      exact ⟨d, hscan, hadm, rfl⟩
    · cases htree
  · rintro ⟨d, hscan, hadm, rfl⟩
    exact ⟨d.yield, hscan, (Statement.read_eq_ok_iff hscan).mpr ⟨.expression d, rfl, hadm, rfl⟩⟩

/-- Only names that variables may have are assigned to. -/
theorem Memory.check_of_parse_assignment
    {name : String} {e : Expr} (h : m.parse line = .ok (.assignment name e)) :
    Name.check name = .ok () := by
  obtain ⟨lexemes, hscan, hread⟩ := parse_eq_ok_iff.mp h
  obtain ⟨d, -, hadm, htree⟩ := (Statement.read_eq_ok_iff hscan).mp hread
  cases d with
  | expression value => cases htree
  | assignment letWord target terminal equals value =>
      cases htree
      exact hadm.1

namespace LineDerivation

theorem eq_of_yield_eq
    (d d' : LineDerivation) (h : d.yield = d'.yield) : d = d' := by
  cases d with
  | expression value =>
      cases d' with
      | expression value' => rw [value.eq_of_yield_eq value' h]
      | assignment letWord name target equals value' =>
          exact absurd h (value.yield_ne_letWord letWord _)
  | assignment letWord name target equals value =>
      cases d' with
      | expression value' => exact absurd h.symm (value'.yield_ne_letWord letWord _)
      | assignment letWord' name' target' equals' value' =>
          simp only [yield, List.cons.injEq] at h
          obtain ⟨hlet, htarget, hequals, hvalue⟩ := h
          cases Terminal.token_eq htarget
          obtain rfl := Subtype.ext hlet
          obtain rfl := Subtype.ext htarget
          obtain rfl := Subtype.ext hequals
          rw [value.eq_of_yield_eq value' hvalue]

end LineDerivation

/-- A line is parsed exactly if its lexemes have an admissible derivation in the grammar, and then
the statement is the tree of that derivation.  No lexemes have two derivations. -/
theorem Memory.parse_iff_derivation (m : Memory) (line : String) :
    (∀ s, m.parse line = .ok s ↔
      ∃ d : LineDerivation, scan line = .ok d.yield ∧ d.Admissible m ∧ d.tree = s) ∧
    ∀ d d' : LineDerivation, d.yield = d'.yield → d = d' := by
  refine ⟨?_, LineDerivation.eq_of_yield_eq⟩
  intro s
  rw [parse_eq_ok_iff]
  constructor
  · rintro ⟨lexemes, hscan, hread⟩
    obtain ⟨d, rfl, hadm, htree⟩ := (Statement.read_eq_ok_iff hscan).mp hread
    exact ⟨d, hscan, hadm, htree⟩
  · rintro ⟨d, hscan, hadm, htree⟩
    exact ⟨d.yield, hscan, (Statement.read_eq_ok_iff hscan).mpr ⟨d, rfl, hadm, htree⟩⟩

end Calculator
