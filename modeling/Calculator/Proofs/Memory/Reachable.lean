import Calculator.Proofs.Grammar.Parse
import Calculator.Proofs.Memory.Evaluation
import Calculator.Tabulation

/-!
# Memories that can be reached

From a fresh memory, whatever is done with it, only names that variables may have are bound, and
only to finite values, and the previous answer is finite.  One action keeps this invariant
(`Sound.perform`), hence any number of actions does (`Sound.run`).
-/

namespace Calculator

/-- What can be done with a memory. -/
inductive Action where
  | evaluate (line : String)
  | valueOf (line : String)
  | parse (line : String)
  | tabulate (line name : String) (grid : Grid)
  | clearBindings
  | reset
  /-- Unbinds one name in the table of variables. -/
  | remove (name : String)
  /-- Empties the table of variables. -/
  | clearTable

namespace Memory

/-- The memory after an action. -/
def perform (m : Memory) : Action → Memory
  | .evaluate line => (m.evaluate line).2
  | .valueOf _ => m
  | .parse _ => m
  | .tabulate line name grid => (m.tabulate line name grid).2
  | .clearBindings => m.clearBindings
  | .reset => .fresh
  | .remove name => { m with bindings := (m.bindings.remove name).2 }
  | .clearTable => { m with bindings := .empty }

/-- The memory after some actions, one after the other. -/
def run (m : Memory) (actions : List Action) : Memory :=
  actions.foldl perform m

/-- Variables have names that they may have and finite values, and the previous answer is finite. -/
structure Sound (m : Memory) : Prop where
  names : ∀ name value, m.bindings.get? name = some value → Name.check name = .ok ()
  values : ∀ name value, m.bindings.get? name = some value → value.isFinite = true
  answer : ∀ value, m.answer = some value → value.isFinite = true

variable {m : Memory}

theorem tabulate_snd (m : Memory) (line name : String) (grid : Grid) :
    (m.tabulate line name grid).2 = m := by
  unfold tabulate
  split
  · rfl
  · rfl
  · exact samples_snd m line name grid.values

/-! ## Actions on the table of variables -/

theorem sound_fresh : Sound fresh where
  names := by simp [fresh]
  values := by simp [fresh]
  answer := by simp [fresh]

theorem Sound.unbindAll (h : m.Sound) : Sound { m with bindings := .empty } where
  names := by simp
  values := by simp
  answer := h.answer

theorem Sound.unbind (h : m.Sound) (name : String) :
    Sound { m with bindings := m.bindings.erase name } := by
  have hget : ∀ other value, (m.bindings.erase name).get? other = some value →
      m.bindings.get? other = some value := by
    intro other value hother
    rw [Bindings.get?_erase] at hother
    split at hother
    · cases hother
    · exact hother
  constructor
  · exact fun other value hother => h.names other value (hget other value hother)
  · exact fun other value hother => h.values other value (hget other value hother)
  · exact h.answer

theorem Sound.bind
    (h : m.Sound) {name : String} {v : Float} (hname : Name.check name = .ok ())
    (hfinite : v.isFinite = true) : Sound ⟨m.bindings.insert name v, some v⟩ := by
  constructor
  · intro other value hother
    rw [Bindings.get?_insert] at hother
    split at hother
    · rename_i heq
      exact heq ▸ hname
    · exact h.names other value hother
  · intro other value hother
    rw [Bindings.get?_insert] at hother
    split at hother
    · cases hother
      exact hfinite
    · exact h.values other value hother
  · rintro value ⟨⟩
    exact hfinite

/-! ## Lines -/

theorem Sound.evaluate (h : m.Sound) (line : String) : Sound (m.evaluate line).2 := by
  rcases hresult : m.evaluate line with ⟨fault | v, after⟩
  · obtain rfl := eq_of_evaluate_error hresult
    exact h
  · obtain ⟨s, hparse, -, hfinite, rfl⟩ := evaluate_eq_ok_iff.mp hresult
    cases s with
    | expression e =>
        constructor
        · exact h.names
        · exact h.values
        · rintro value ⟨⟩
          exact hfinite
    | assignment name e => exact h.bind (check_of_parse_assignment hparse) hfinite

/-! ## Any number of actions -/

theorem Sound.perform (h : m.Sound) (action : Action) : Sound (m.perform action) := by
  cases action with
  | evaluate line => exact h.evaluate line
  | valueOf line => exact h
  | parse line => exact h
  | tabulate line name grid =>
      rw [Memory.perform, tabulate_snd]
      exact h
  | clearBindings => exact h.unbindAll
  | reset => exact sound_fresh
  | remove name => exact h.unbind name
  | clearTable => exact h.unbindAll

theorem Sound.run (h : m.Sound) (actions : List Action) : Sound (m.run actions) := by
  induction actions generalizing m with
  | nil => exact h
  | cons action actions ih => exact ih (h.perform action)

/-- However a memory is reached from a fresh one, its variables have names that pass the check, so
that none is a constant, a built-in function or a word of the language, and all values in it are
finite. -/
theorem run_fresh_bindings_and_answer (actions : List Action) :
    (∀ name value, (fresh.run actions).bindings.get? name = some value →
      Name.check name = .ok () ∧ Name.isConstant name = false ∧ Name.isPrimitive name = false ∧
        name ≠ Name.answer ∧ name ≠ "let" ∧ value.isFinite = true) ∧
    ∀ value, (fresh.run actions).answer = some value → value.isFinite = true := by
  have hsound := sound_fresh.run actions
  refine ⟨?_, hsound.answer⟩
  intro name value hget
  have hcheck := hsound.names name value hget
  obtain ⟨-, hconstant, hprimitive, hanswer, hlet⟩ :=
    Name.fault?_eq_none_iff.mp (Name.check_eq_ok_iff.mp hcheck)
  exact ⟨hcheck, hconstant, hprimitive, hanswer, hlet, hsound.values name value hget⟩

end Memory

end Calculator
