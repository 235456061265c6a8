import Calculator.Memory.Evaluate

/-!
# What a line leaves behind

A line either fails and changes nothing, or its value is finite, becomes the previous answer and, if
the line is an assignment, the value of its target.  So it is enough to say which memory a statement
leaves for a given value (`Statement.commit`), and when a statement has a finite value.
-/

namespace Calculator

/-- A value is finite unless it is infinite or not a number. -/
theorem isFinite_iff {x : Float} : x.isFinite = true ↔ x.isNaN = false ∧ x.isInf = false := by
  have hkinds : ∀ u : Float.Model.UnpackedFloat, u.isFinite = (!u.isNaN && !u.isInf) := by
    intro u
    cases u <;> rfl
  have hx : x.isFinite = (!x.isNaN && !x.isInf) := hkinds x.toModel.unpack
  simp [hx]

theorem isNaN_eq_false_of_isInf {x : Float} (h : x.isInf = true) : x.isNaN = false := by
  have hkinds : ∀ u : Float.Model.UnpackedFloat, (u.isNaN && u.isInf) = false := by
    intro u
    cases u <;> rfl
  have hx : (x.isNaN && x.isInf) = false := hkinds x.toModel.unpack
  simpa [h] using hx

/-! ## The value of a line has to be finite -/

theorem settle_eq_ok_iff_isFinite {x y : Float} :
    settle x = .ok y ↔ x = y ∧ x.isFinite = true := by
  rw [settle_eq_ok_iff, isFinite_iff]

theorem settle_of_isNaN {x : Float} (h : x.isNaN = true) :
    settle x = .error (.invalid "computation produced an invalid result" none) := by
  rw [settle, if_pos h]

theorem settle_of_isInf {x : Float} (h : x.isInf = true) : settle x = .error .infinite := by
  rw [settle, isNaN_eq_false_of_isInf h, if_neg (by decide), if_pos h]

namespace Statement

/-- The tree whose value a statement has. -/
def value : Statement → Expr
  | .expression e => e
  | .assignment _ e => e

/-- The memory after a statement that has the given value. -/
def commit (m : Memory) (v : Float) : Statement → Memory
  | .expression _ => { m with answer := some v }
  | .assignment name _ => ⟨m.bindings.insert name v, some v⟩

end Statement

namespace Memory

variable {m : Memory} {line : String} {s : Statement}

theorem evalFinite_eq_ok_iff
    {e : Expr} {v : Float} :
    m.evalFinite e = .ok v ↔ m.eval e = .ok v ∧ v.isFinite = true := by
  unfold evalFinite
  cases m.eval e with
  | error fault => simp [Except.bind]
  | ok x =>
      simp only [Except.bind, settle_eq_ok_iff_isFinite, Except.ok.injEq]
      constructor
      · rintro ⟨rfl, hfinite⟩
        exact ⟨rfl, hfinite⟩
      · rintro ⟨rfl, hfinite⟩
        exact ⟨rfl, hfinite⟩

theorem eval_of_valueOf
    {v : Float} (h : m.valueOf line = .ok v) :
    ∃ e, m.parse line = .ok (.expression e) ∧ m.eval e = .ok v := by
  unfold valueOf at h
  rcases hparse : m.parse line with fault | ⟨e⟩ | ⟨target, e⟩ <;> rw [hparse] at h
  · cases h
  · exact ⟨e, rfl, (evalFinite_eq_ok_iff.mp h).1⟩
  · cases h

/-- Of the two writes of a line, to the bindings and to the answer, both happen or neither. -/
theorem evaluate_of_parse
    (h : m.parse line = .ok s) :
    m.evaluate line =
      match m.evalFinite s.value with
      | .ok v => (.ok v, s.commit m v)
      | .error fault => (.error fault, m) := by
  unfold evaluate
  rw [h]
  cases s with
  | expression e =>
      cases hvalue : m.evalFinite e <;> simp [execute, Statement.value, Statement.commit, hvalue]
  | assignment name e =>
      cases hvalue : m.evalFinite e <;> simp [execute, Statement.value, Statement.commit, hvalue]

theorem evaluate_of_parse_error
    {fault : LineError} (h : m.parse line = .error fault) :
    m.evaluate line = (.error fault, m) := by
  rw [evaluate, h]

theorem evaluate_of_settle_error
    {x : Float} {fault : LineError} (h : m.parse line = .ok s) (hvalue : m.eval s.value = .ok x)
    (hsettle : settle x = .error fault) : m.evaluate line = (.error fault, m) := by
  rw [evaluate_of_parse h, evalFinite, hvalue, Except.bind, hsettle]

/-- A line is evaluated exactly if it is parsed and its tree has a finite value. -/
theorem evaluate_eq_ok_iff
    {v : Float} {after : Memory} :
    m.evaluate line = (.ok v, after) ↔
      ∃ s, m.parse line = .ok s ∧ m.eval s.value = .ok v ∧ v.isFinite = true ∧
        s.commit m v = after := by
  constructor
  · intro h
    cases hparse : m.parse line with
    | error fault =>
        rw [evaluate_of_parse_error hparse] at h
        cases h
    | ok s =>
        rw [evaluate_of_parse hparse] at h
        cases hvalue : m.evalFinite s.value with
        | error fault =>
            rw [hvalue] at h
            cases h
        | ok x =>
            rw [hvalue] at h
            cases h
            obtain ⟨heval, hfinite⟩ := evalFinite_eq_ok_iff.mp hvalue
            exact ⟨s, rfl, heval, hfinite, rfl⟩
  · rintro ⟨s, hparse, heval, hfinite, rfl⟩
    rw [evaluate_of_parse hparse, evalFinite_eq_ok_iff.mpr ⟨heval, hfinite⟩]

/-- A line that fails changes nothing. -/
theorem eq_of_evaluate_error
    {fault : LineError} {after : Memory} (h : m.evaluate line = (.error fault, after)) :
    after = m := by
  cases hparse : m.parse line with
  | error fault =>
      rw [evaluate_of_parse_error hparse] at h
      cases h
      rfl
  | ok s =>
      rw [evaluate_of_parse hparse] at h
      cases hvalue : m.evalFinite s.value with
      | error fault =>
          rw [hvalue] at h
          cases h
          rfl
      | ok x =>
          rw [hvalue] at h
          cases h

/-- What a line leaves behind: the memory as it was if the line fails; else a finite previous
answer, and the bindings as they were except for the target of an assignment.  A line fails exactly
if it is not parsed, its tree has no value, or the value is infinite or not a number. -/
theorem evaluate_all_or_nothing (m : Memory) (line : String) :
    ((∃ fault, m.evaluate line = (.error fault, m)) ∨
      ∃ v after, m.evaluate line = (.ok v, after) ∧ v.isFinite = true ∧ after.answer = some v ∧
        ((∃ e, m.parse line = .ok (.expression e) ∧ after.bindings = m.bindings) ∨
          ∃ name e, m.parse line = .ok (.assignment name e) ∧
            ∀ other, after.bindings.get? other =
              if other = name then some v else m.bindings.get? other)) ∧
    (∀ v, (m.evaluate line).1 = .ok v ↔
      ∃ s, m.parse line = .ok s ∧ m.eval s.value = .ok v ∧ v.isFinite = true) ∧
    ∀ s x, m.parse line = .ok s → m.eval s.value = .ok x →
      (x.isInf = true → m.evaluate line = (.error .infinite, m)) ∧
      (x.isNaN = true → m.evaluate line =
        (.error (.invalid "computation produced an invalid result" none), m)) := by
  refine ⟨?_, ?_, ?_⟩
  · rcases hresult : m.evaluate line with ⟨fault | v, after⟩
    · obtain rfl := eq_of_evaluate_error hresult
      exact .inl ⟨fault, rfl⟩
    · obtain ⟨s, hparse, -, hfinite, rfl⟩ := evaluate_eq_ok_iff.mp hresult
      refine .inr ⟨v, _, rfl, hfinite, ?_⟩
      cases s with
      | expression e => exact ⟨rfl, .inl ⟨e, hparse, rfl⟩⟩
      | assignment name e =>
          refine ⟨rfl, .inr ⟨name, e, hparse, fun other => ?_⟩⟩
          exact m.bindings.get?_insert name other v
  · intro v
    constructor
    · intro hfirst
      have hresult : m.evaluate line = (.ok v, (m.evaluate line).2) := Prod.ext hfirst rfl
      obtain ⟨s, hparse, heval, hfinite, -⟩ := evaluate_eq_ok_iff.mp hresult
      exact ⟨s, hparse, heval, hfinite⟩
    · rintro ⟨s, hparse, heval, hfinite⟩
      rw [evaluate_eq_ok_iff.mpr ⟨s, hparse, heval, hfinite, rfl⟩]
  · intro s x hparse heval
    constructor
    · intro hinf
      exact evaluate_of_settle_error hparse heval (settle_of_isInf hinf)
    · intro hnan
      exact evaluate_of_settle_error hparse heval (settle_of_isNaN hnan)

end Memory

end Calculator
