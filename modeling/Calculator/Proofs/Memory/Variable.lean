import Calculator.Proofs.Memory.Evaluation
import Calculator.Proofs.Scanning.Seams
import Calculator.Proofs.VariableName

/-!
# A variable is read by its name

The names that variables may have are spelt by one rule and words are cut from a line by another.
Both agree (`Name.check_iff_single_word`): a name passes the check exactly if, written as a line of
its own, it is one identifier that does not begin with an underscore and is not taken.  Hence a
bound name is always readable, and nothing comes before the variable when the name is looked up.
-/

namespace Calculator

open Text

/-! ## Names as words -/

theorem Token.spells_identifier_iff {name : String} :
    (Token.identifier name).Spells name.toList ↔
      (∃ first rest, name.toList = first :: rest ∧ beginsWord first = true ∧
        ∀ c ∈ rest, continuesWord c = true) ∧ name ≠ "let" := by
  have hlet : name.toList = ['l', 'e', 't'] ↔ name = "let" := by
    rw [← String.toList_inj]
    rfl
  constructor
  · intro h
    generalize hword : name.toList = word at h
    cases h with
    | @identifier first rest hfirst hrest hne =>
        exact ⟨⟨first, rest, rfl, hfirst, hrest⟩, fun hname => hne (hword ▸ hlet.mpr hname)⟩
  · rintro ⟨⟨first, rest, hword, hfirst, hrest⟩, hne⟩
    have hspells := Spells.identifier hfirst hrest (hword ▸ fun h => hne (hlet.mp h))
    rwa [← hword, String.ofList_toList] at hspells

/-- A line is a single lexeme and no blanks exactly if it spells that lexeme. -/
theorem Lexeme.ofLine_eq_single_iff {token : Token} {line : String} :
    Lexeme.ofLine line = .ok [⟨token, line, 0⟩, ⟨.endOfInput, "", line.length⟩] ↔
      token.Spells line.toList := by
  constructor
  · intro h
    obtain ⟨cut, hscan, hcut⟩ := ofLine_eq_ok_iff.mp h
    obtain rfl : cut = [⟨token, line, 0⟩] := (List.append_inj_left' hcut rfl).symm
    exact ((scan_eq_ok_iff.mp hscan).2.longest _ List.mem_cons_self).spells
  · intro h
    have hmatch := LongestMatch.of_spells h
    rw [String.ofList_toList, String.length_toList] at hmatch
    exact ofLine_eq_ok_iff.mpr ⟨_, scan_eq_ok_iff.mpr ⟨by simp, hmatch⟩, rfl⟩

namespace Name

variable {name : String}

theorem isConstant_eq_false_iff :
    isConstant name = false ↔ ∀ constant : NamedConstant, constant.name ≠ name := by
  simp [isConstant, NamedConstant.find?, NamedConstant.mem_all]

theorem isPrimitive_eq_false_iff :
    isPrimitive name = false ↔ ∀ function : Primitive, function.name ≠ name := by
  simp [isPrimitive, Primitive.find?, Primitive.mem_all]

theorem isAlpha_iff {c : Char} : c.isAlpha = true ↔ beginsWord c = true ∧ c ≠ '_' := by
  constructor
  · intro h
    refine ⟨by simp [beginsWord, h], ?_⟩
    rintro rfl
    cases h
  · rintro ⟨h, hne⟩
    simpa [beginsWord, hne] using h

/-- A name that a variable may have is an identifier. -/
theorem spells_of_check (h : check name = .ok ()) :
    (Token.identifier name).Spells name.toList := by
  obtain ⟨⟨first, rest, hword, hfirst, hrest⟩, -, -, -, hlet⟩ :=
    fault?_eq_none_iff.mp (check_eq_ok_iff.mp h)
  have hbegins := (isAlpha_iff.mp hfirst).1
  exact Token.spells_identifier_iff.mpr ⟨⟨first, rest, hword, hbegins, hrest⟩, hlet⟩

theorem check_iff_spells :
    check name = .ok () ↔
      (Token.identifier name).Spells name.toList ∧ name.toList.head? ≠ some '_' ∧
        (∀ constant : NamedConstant, constant.name ≠ name) ∧
        (∀ function : Primitive, function.name ≠ name) ∧ name ≠ answer := by
  rw [check_eq_ok_iff, fault?_eq_none_iff, Token.spells_identifier_iff, isConstant_eq_false_iff,
    isPrimitive_eq_false_iff]
  constructor
  · rintro ⟨⟨first, rest, hword, hfirst, hrest⟩, hconstant, hprimitive, hanswer, hlet⟩
    obtain ⟨hbegins, hne⟩ := isAlpha_iff.mp hfirst
    exact ⟨⟨⟨first, rest, hword, hbegins, hrest⟩, hlet⟩, by simpa [hword] using hne, hconstant,
      hprimitive, hanswer⟩
  · rintro ⟨⟨⟨first, rest, hword, hfirst, hrest⟩, hlet⟩, hne, hconstant, hprimitive, hanswer⟩
    have hfirst : first.isAlpha = true :=
      isAlpha_iff.mpr ⟨hfirst, by simpa [hword] using hne⟩
    exact ⟨⟨first, rest, hword, hfirst, hrest⟩, hconstant, hprimitive, hanswer, hlet⟩

end Name

/-! ## Reading a variable -/

namespace Memory

variable {m : Memory} {name : String} {v : Float}

theorem resolve?_of_check
    (hname : Name.check name = .ok ()) (hbound : m.bindings.get? name = some v) (position : Nat) :
    m.resolve? name position = some (.reference position name) := by
  obtain ⟨-, hconstant, -, hanswer, -⟩ := Name.fault?_eq_none_iff.mp (Name.check_eq_ok_iff.mp hname)
  have hfind : NamedConstant.find? name = none := by
    simpa [Name.isConstant] using hconstant
  rw [resolve?, if_neg hanswer, hfind, Bindings.contains, hbound]
  rfl

theorem parse_of_check
    (hname : Name.check name = .ok ()) (hbound : m.bindings.get? name = some v) :
    m.parse name = .ok (.expression (.reference 0 name)) := by
  obtain ⟨cut, hscan, hcut⟩ :=
    Lexeme.ofLine_eq_ok_iff.mp (Lexeme.ofLine_eq_single_iff.mpr (Name.spells_of_check hname))
  obtain rfl : cut = [⟨.identifier name, name, 0⟩] := (List.append_inj_left' hcut rfl).symm
  have hresolve := resolve?_of_check hname hbound 0
  have hread : Expr.read m [⟨.identifier name, name, 0⟩] = .ok (.reference 0 name) := by
    simp [Expr.read, Unfinished.read, Unfinished.step, Unfinished.start, Unfinished.readOperand,
      isCallAhead, hresolve, Unfinished.complete, Unfinished.finish, Pending.empty,
      Pending.completeSum, Pending.completeProduct, Pending.completePowers, Pending.completeHalf]
  rw [parse, hscan]
  simp [Statement.read, hread, Except.map, Except.mapError]

/-- A line that is the name of a variable has its value. -/
theorem evaluate_of_check
    (hname : Name.check name = .ok ()) (hbound : m.bindings.get? name = some v)
    (hfinite : v.isFinite = true) : m.evaluate name = (.ok v, { m with answer := some v }) := by
  refine evaluate_eq_ok_iff.mpr ⟨_, parse_of_check hname hbound, ?_, hfinite, rfl⟩
  simp only [Statement.value, eval, hbound]

end Memory

/-- A name may be given to a variable exactly if the line that it makes is one identifier and
nothing else, the identifier does not begin with an underscore, and no constant, function or the
previous answer has that name.  Such a name, once it is bound to a finite value, is a line of that
value. -/
theorem Name.check_iff_single_word (name : String) :
    (check name = .ok () ↔
      Lexeme.ofLine name =
          .ok [⟨.identifier name, name, 0⟩, ⟨.endOfInput, "", name.length⟩] ∧
        name.toList.head? ≠ some '_' ∧
        (∀ constant : NamedConstant, constant.name ≠ name) ∧
        (∀ function : Primitive, function.name ≠ name) ∧ name ≠ answer) ∧
    ∀ (m : Memory) (v : Float), check name = .ok () → m.bindings.get? name = some v →
      v.isFinite = true → m.evaluate name = (.ok v, { m with answer := some v }) := by
  constructor
  · rw [Lexeme.ofLine_eq_single_iff]
    exact check_iff_spells
  · intro m v hname hbound hfinite
    exact Memory.evaluate_of_check hname hbound hfinite

/-- A name that only begins like the keyword is a variable like any other. -/
theorem Name.check_iff_single_word_of_prefix :
    let m : Memory := ⟨Bindings.empty.insert "letter" 2, none⟩
    check "letter" = .ok () ∧ m.bindings.get? "letter" = some 2 ∧ (2 : Float).isFinite = true ∧
      m.evaluate "letter" = (.ok 2, { m with answer := some 2 }) := by
  intro m
  have hname : check "letter" = .ok () := by decide
  have hbound : m.bindings.get? "letter" = some 2 := rfl
  have hfinite : (2 : Float).isFinite = true := by decide
  exact ⟨hname, hbound, hfinite, (check_iff_single_word "letter").2 m 2 hname hbound hfinite⟩

end Calculator
