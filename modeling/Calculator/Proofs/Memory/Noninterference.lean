import Calculator.Proofs.Memory.Parsed

/-!
# What a line depends on

Two memories that agree on the names written in a line are indistinguishable to it.  Reading takes
nothing from the memory but what the names in operand position stand for, and the value of a parsed
tree takes nothing but the values of its names, which are written in the line
(`Expr.Grounded`).
-/

namespace Calculator

/-- The memories do not differ in what is bound to the names among the lexemes, nor in the previous
answer if its name is among them. -/
structure Memory.AgreesOn (m m' : Memory) (lexemes : List Lexeme) : Prop where
  bindings : ∀ l ∈ lexemes, ∀ name, l.token = .identifier name →
    m.bindings.get? name = m'.bindings.get? name
  answer : (∃ l ∈ lexemes, l.token = .identifier Name.answer) → m.answer = m'.answer

/-- The memory `after` has the value as its previous answer, and at most one name is bound to it
anew. -/
structure Memory.Records (m : Memory) (target? : Option String) (v : Float) (after : Memory) :
    Prop where
  answer : after.answer = some v
  bindings : ∀ name, after.bindings.get? name =
    if target? = some name then some v else m.bindings.get? name

/-- The name that a statement binds. -/
def Statement.target? : Statement → Option String
  | .expression _ => none
  | .assignment name _ => some name

variable {m m' : Memory} {ls lexemes : List Lexeme} {line : String}

theorem Memory.AgreesOn.of_subset
    (h : m.AgreesOn m' lexemes) (hsubset : ls ⊆ lexemes) : m.AgreesOn m' ls where
  bindings := fun l hl => h.bindings l (hsubset hl)
  answer := fun ⟨l, hl, htoken⟩ => h.answer ⟨l, hsubset hl, htoken⟩

/-! ## Reading -/

theorem Memory.AgreesOn.resolve?
    (h : m.AgreesOn m' lexemes) {l : Lexeme} (hl : l ∈ lexemes) {name : String}
    (htoken : l.token = .identifier name) (position : Nat) :
    m.resolve? name position = m'.resolve? name position := by
  unfold Memory.resolve? Bindings.contains
  by_cases hanswer : name = Name.answer
  · rw [if_pos hanswer, if_pos hanswer, h.answer ⟨l, hl, hanswer ▸ htoken⟩]
  · rw [if_neg hanswer, if_neg hanswer, h.bindings l hl name htoken]

namespace Unfinished

theorem readOperand_of_agreesOn
    (h : m.AgreesOn m' lexemes) {l : Lexeme} (hl : l ∈ lexemes) (u : Unfinished)
    (ahead : List Lexeme) : u.readOperand m l ahead = u.readOperand m' l ahead := by
  unfold readOperand
  split
  · rfl
  · rename_i name htoken
    rw [h.resolve? hl htoken]
  all_goals rfl

theorem step_of_agreesOn
    (h : m.AgreesOn m' lexemes) {l : Lexeme} (hl : l ∈ lexemes) (u : Unfinished)
    (ahead : List Lexeme) : u.step m l ahead = u.step m' l ahead := by
  have hoperand := readOperand_of_agreesOn h hl u ahead
  unfold step
  rw [hoperand]

theorem read_of_agreesOn
    (h : m.AgreesOn m' ls) (u : Unfinished) : u.read m ls = u.read m' ls := by
  induction ls generalizing u with
  | nil => rfl
  | cons l ahead ih =>
      have hahead := h.of_subset (List.subset_cons_self l ahead)
      rw [read, read, step_of_agreesOn h List.mem_cons_self]
      split
      · exact ih hahead _
      · rfl

end Unfinished

theorem Expr.read_of_agreesOn (h : m.AgreesOn m' ls) : Expr.read m ls = Expr.read m' ls :=
  Unfinished.read_of_agreesOn h .start

namespace Statement

theorem readAssignment_of_agreesOn
    (h : m.AgreesOn m' ls) (line : String) (letWord : Lexeme) :
    readAssignment m line letWord ls = readAssignment m' line letWord ls := by
  unfold readAssignment
  split
  · rfl
  · rename_i equals value hdrop
    have hsuffix : equals :: value <:+ ls := hdrop ▸ List.dropWhile_suffix _
    have hvalue : value <:+ ls := (List.suffix_cons equals value).trans hsuffix
    simp only [Expr.read_of_agreesOn (h.of_subset hvalue.subset)]

theorem read_of_agreesOn
    (h : m.AgreesOn m' ls) : Statement.read m line ls = Statement.read m' line ls := by
  cases ls with
  | nil => rfl
  | cons first rest =>
      have hrest := h.of_subset (List.subset_cons_self first rest)
      have hassignment := readAssignment_of_agreesOn hrest line first
      have hexpr := Expr.read_of_agreesOn h
      simp only [Statement.read, hassignment, hexpr]

end Statement

namespace Memory

theorem parse_of_agreesOn
    (h : ∀ lexemes, scan line = .ok lexemes → m.AgreesOn m' lexemes) :
    m.parse line = m'.parse line := by
  unfold parse
  split
  · rename_i lexemes hscan
    rw [Statement.read_of_agreesOn (h lexemes hscan)]
  · rfl

/-! ## Values -/

theorem evalAll_congr
    {es : List Expr} (h : ∀ e ∈ es, m.eval e = m'.eval e) : m.evalAll es = m'.evalAll es := by
  induction es with
  | nil => rfl
  | cons first rest ih =>
      obtain ⟨hfirst, hrest⟩ := List.forall_mem_cons.mp h
      rw [evalAll, evalAll, hfirst, ih hrest]

/-- A tree has the same value in memories that agree on the lexemes it was read from. -/
theorem eval_of_agreesOn
    (h : m.AgreesOn m' ls) {e : Expr} (hgrounded : e.Every (Expr.Grounded m ls)) :
    m.eval e = m'.eval e := by
  induction e using Expr.inductionOnChildren with
  | node e ih =>
    obtain ⟨hroot, hchildren⟩ := Expr.every_iff.mp hgrounded
    have hbelow : ∀ child ∈ e.children, m.eval child = m'.eval child :=
      fun child hchild => ih child hchild (hchildren child hchild)
    cases e with
    | number position value => rfl
    | constant position name value => rfl
    | reference position name =>
        obtain ⟨-, l, hl, htoken⟩ := hroot
        rw [eval, eval, h.bindings l hl name htoken]
    | answer position => rw [eval, eval, h.answer hroot.2]
    | negate position operand => rw [eval, eval, hbelow operand (by simp)]
    | binary position op left right =>
        rw [eval, eval, hbelow left (by simp), hbelow right (by simp)]
    | call position name arguments =>
        have harguments : m.evalAll arguments = m'.evalAll arguments := evalAll_congr hbelow
        rw [eval, eval, harguments]

theorem evalFinite_of_agreesOn
    (h : ∀ lexemes, scan line = .ok lexemes → m.AgreesOn m' lexemes) {s : Statement}
    (hparse : m.parse line = .ok s) : m.evalFinite s.value = m'.evalFinite s.value := by
  obtain ⟨lexemes, hscan, hgrounded⟩ := every_grounded_of_parse hparse
  rw [evalFinite, evalFinite, eval_of_agreesOn (h lexemes hscan) hgrounded]

/-! ## Changes -/

theorem records_commit
    (m : Memory) (s : Statement) (v : Float) : m.Records s.target? v (s.commit m v) := by
  cases s with
  | expression e => exact ⟨rfl, fun name => rfl⟩
  | assignment target e =>
      refine ⟨rfl, fun name => ?_⟩
      have hget := m.bindings.get?_insert target name v
      simpa [Statement.target?, Statement.commit, eq_comm] using hget

/-- In memories that agree on the names in a line, the line is parsed alike and has the same value
or error, and evaluating it makes the same change in both: none if it fails, else the value becomes
the previous answer and is bound to at most one name, the same in both. -/
theorem evaluate_noninterference
    {m m' : Memory} {line : String}
    (h : ∀ lexemes, scan line = .ok lexemes → m.AgreesOn m' lexemes) :
    m.parse line = m'.parse line ∧ m.valueOf line = m'.valueOf line ∧
    (m.evaluate line).1 = (m'.evaluate line).1 ∧
    (∀ fault, (m.evaluate line).1 = .error fault →
      (m.evaluate line).2 = m ∧ (m'.evaluate line).2 = m') ∧
    ∀ v, (m.evaluate line).1 = .ok v → ∃ target? : Option String,
      m.Records target? v (m.evaluate line).2 ∧ m'.Records target? v (m'.evaluate line).2 := by
  have hparse := parse_of_agreesOn h
  cases hline : m.parse line with
  | error fault =>
      have hline' : m'.parse line = .error fault := hparse ▸ hline
      rw [evaluate_of_parse_error hline, evaluate_of_parse_error hline', valueOf, valueOf, hline,
        hline']
      exact ⟨rfl, rfl, rfl, fun _ _ => ⟨rfl, rfl⟩, fun _ hv => nomatch hv⟩
  | ok s =>
      have hline' : m'.parse line = .ok s := hparse ▸ hline
      have hvalue := evalFinite_of_agreesOn h hline
      have hvalueOf : m.valueOf line = m'.valueOf line := by
        rw [valueOf, valueOf, hline, hline']
        cases s with
        | expression e => exact hvalue
        | assignment target e => rfl
      rw [evaluate_of_parse hline, evaluate_of_parse hline', ← hvalue, hvalueOf, hline']
      cases m.evalFinite s.value with
      | error fault => exact ⟨rfl, rfl, rfl, fun _ _ => ⟨rfl, rfl⟩, fun _ hv => nomatch hv⟩
      | ok v =>
          refine ⟨rfl, rfl, rfl, fun _ hfault => (nomatch hfault), ?_⟩
          rintro _ ⟨⟩
          exact ⟨s.target?, m.records_commit s v, m'.records_commit s v⟩

/-- A variable and a previous answer that the line does not name make no difference. -/
theorem product_noninterference :
    let line := "let z = 3 * x"
    let m : Memory := ⟨Bindings.empty.insert "x" 2, none⟩
    let m' : Memory := ⟨(Bindings.empty.insert "x" 2).insert "xz" 5, some 1⟩
    (m.evaluate line).1 = .ok 6 ∧ (m'.evaluate line).1 = .ok 6 ∧
      ∃ target? : Option String,
        m.Records target? 6 (m.evaluate line).2 ∧ m'.Records target? 6 (m'.evaluate line).2 := by
  intro line m m'
  have hscan : scan line = .ok
      [⟨.letWord, "let", 0⟩, ⟨.identifier "z", "z", 4⟩, ⟨.equals, "=", 6⟩, ⟨.number 3, "3", 8⟩,
        ⟨.operator .mul, "*", 10⟩, ⟨.identifier "x", "x", 12⟩] := by decide +kernel
  have hagrees : ∀ lexemes, scan line = .ok lexemes → m.AgreesOn m' lexemes := by
    intro lexemes hlexemes
    obtain rfl := Except.ok.inj (hlexemes.symm.trans hscan)
    have hx : m.bindings.get? "x" = m'.bindings.get? "x" := by decide +kernel
    have hz : m.bindings.get? "z" = m'.bindings.get? "z" := by decide +kernel
    exact ⟨by simp [hx, hz], by simp [Name.answer]⟩
  have hvalue : (m.evaluate line).1 = .ok 6 := by decide +kernel
  obtain ⟨-, -, hsame, -, hchange⟩ := evaluate_noninterference hagrees
  exact ⟨hvalue, hsame ▸ hvalue, hchange 6 hvalue⟩

end Memory

end Calculator
