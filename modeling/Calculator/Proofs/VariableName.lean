import Calculator.Name

/-!
# Names that variables may have

A name passes the check exactly if it is spelt as a word that begins with a letter and is not taken
by anything else.
-/

namespace Calculator.Name

theorem check_eq_ok_iff {name : String} : check name = .ok () ↔ fault? name = none := by
  unfold check
  cases fault? name <;> simp

theorem spellingFault?_eq_none_iff {text : List Char} :
    spellingFault? text = none ↔
      ∃ first rest, text = first :: rest ∧ first.isAlpha = true ∧
        ∀ c ∈ rest, Text.continuesWord c = true := by
  constructor
  · intro h
    cases text with
    | nil => cases h
    | cons first rest =>
        by_cases hfirst : first.isAlpha = true
        · exact ⟨first, rest, rfl, hfirst, by simpa [spellingFault?, hfirst] using h⟩
        · simp [spellingFault?, hfirst] at h
  · rintro ⟨first, rest, rfl, hfirst, hrest⟩
    simpa [spellingFault?, hfirst] using hrest

theorem takenFault?_eq_none_iff {name : String} :
    takenFault? name = none ↔
      isConstant name = false ∧ isPrimitive name = false ∧ name ≠ answer ∧ name ≠ "let" := by
  unfold takenFault? reserved
  cases isConstant name <;> cases isPrimitive name <;> simp

/-- The names that pass the check. -/
theorem fault?_eq_none_iff {name : String} :
    fault? name = none ↔
      (∃ first rest, name.toList = first :: rest ∧ first.isAlpha = true ∧
        ∀ c ∈ rest, Text.continuesWord c = true) ∧
      isConstant name = false ∧ isPrimitive name = false ∧ name ≠ answer ∧ name ≠ "let" := by
  rw [fault?, Option.or_eq_none_iff, spellingFault?_eq_none_iff, takenFault?_eq_none_iff]

end Calculator.Name
