import Calculator.Proofs.Memory.Reachable

/-!
# Tables are made of independent evaluations

A table is taken in one go over the same memory, with one binding changed and put back for each
sample.  Still each sample is what evaluating the line would give in the memory as it was, with the
variable bound to the value of that sample (`Sample.Matches`), and nothing of it is left behind.
-/

namespace Calculator

namespace Memory

variable {m : Memory} {line : String}

/-- The memory with a name bound to a value, in place of its former value. -/
def bound (m : Memory) (name : String) (x : Float) : Memory :=
  { m with bindings := m.bindings.insert name x }

/-- The line is not an assignment, and evaluating it gives the value. -/
def HasValue (m : Memory) (line : String) (v : Float) : Prop :=
  (m.evaluate line).1 = .ok v ∧ ∀ target e, m.parse line ≠ .ok (.assignment target e)

/-- Evaluation for a table differs from evaluation only in that assignments are refused. -/
theorem valueOf_eq_ok_iff {v : Float} : m.valueOf line = .ok v ↔ m.HasValue line v := by
  unfold HasValue
  cases hparse : m.parse line with
  | error fault => simp [valueOf, evaluate_of_parse_error hparse, hparse]
  | ok s =>
      rw [evaluate_of_parse hparse]
      cases s with
      | expression e =>
          simp only [valueOf, hparse, Statement.value]
          cases m.evalFinite e <;> simp
      | assignment target e => simp [valueOf, hparse]

theorem isFinite_of_valueOf
    {v : Float} (h : m.valueOf line = .ok v) : v.isFinite = true := by
  obtain ⟨hvalue, -⟩ := valueOf_eq_ok_iff.mp h
  have hevaluate : m.evaluate line = (.ok v, (m.evaluate line).2) := Prod.ext hvalue rfl
  obtain ⟨_, -, -, hfinite, -⟩ := evaluate_eq_ok_iff.mp hevaluate
  exact hfinite

end Memory

/-! ## One sample -/

/-- The sample has the value that the line has where the variable is bound to `x`, and is not a
number if the line has none there. -/
def Sample.Matches (m : Memory) (line name : String) (s : Sample) : Prop :=
  (∃ v, (m.bound name s.x).HasValue line v ∧ v.isFinite = true ∧ s.y = v) ∨
    (∀ v, ¬(m.bound name s.x).HasValue line v) ∧ s.y = Binary64.nan

namespace Memory

variable {m : Memory} {line name : String}

theorem sample_fst
    (m : Memory) (line name : String) (x : Float) :
    (m.sample line name x).1 =
      match (m.bound name x).valueOf line with
      | .ok y => ⟨x, y⟩
      | .error _ => ⟨x, Binary64.nan⟩ :=
  rfl

@[simp]
theorem x_sample
    (m : Memory) (line name : String) (x : Float) : (m.sample line name x).1.x = x := by
  rw [sample_fst]
  split <;> rfl

theorem sample_eq_iff
    {s : Sample} : (m.sample line name s.x).1 = s ↔ s.Matches m line name := by
  obtain ⟨x, y⟩ := s
  rw [sample_fst, Sample.Matches]
  simp only [← valueOf_eq_ok_iff]
  cases hvalue : (m.bound name x).valueOf line with
  | error fault =>
      constructor
      · rintro ⟨⟩
        exact .inr ⟨fun v hv => (nomatch hv), rfl⟩
      · rintro (⟨v, hv, -⟩ | ⟨-, rfl⟩)
        · exact nomatch hv
        · rfl
  | ok v =>
      constructor
      · rintro ⟨⟩
        exact .inl ⟨y, rfl, isFinite_of_valueOf hvalue, rfl⟩
      · rintro (⟨_, ⟨⟩, -, rfl⟩ | ⟨hnone, -⟩)
        · rfl
        · exact absurd rfl (hnone v)

/-! ## Whole tables -/

theorem tabulate_fst_of_check
    {grid : Grid} (hname : Name.check name = .ok ()) (hgrid : grid.check = .ok ()) :
    (m.tabulate line name grid).1 =
      .ok (grid.values.map fun x => (m.sample line name x).1) := by
  unfold tabulate
  rw [hname, hgrid, ← samples_fst]

theorem map_sample_eq_iff
    {xs : List Float} {table : List Sample} :
    xs.map (fun x => (m.sample line name x).1) = table ↔
      table.map Sample.x = xs ∧ ∀ s ∈ table, s.Matches m line name := by
  constructor
  · rintro rfl
    constructor
    · rw [List.map_map]
      exact List.map_id'' (x_sample m line name) xs
    · intro s hs
      obtain ⟨x, -, rfl⟩ := List.mem_map.mp hs
      apply sample_eq_iff.mp
      rw [x_sample]
  · rintro ⟨rfl, hmatches⟩
    rw [List.map_map]
    have hsame : ∀ s ∈ table, (m.sample line name s.x).1 = id s :=
      fun s hs => sample_eq_iff.mpr (hmatches s hs)
    exact (List.map_congr_left hsame).trans (List.map_id table)

/-- A table leaves the memory as it was.  It is refused only for the name of the variable or for
the grid.  Else it has one sample for each value of the grid, in order, and each is what evaluating
the line gives in the memory as it was, with the variable bound to that value. -/
theorem tabulate_eq_independent_evaluations
    (m : Memory) (line name : String) (grid : Grid) :
    (m.tabulate line name grid).2 = m ∧
    (∀ fault, (m.tabulate line name grid).1 = .error fault ↔
      Name.check name = .error fault ∨
        Name.check name = .ok () ∧ grid.check = .error fault) ∧
    ∀ table, (m.tabulate line name grid).1 = .ok table ↔
      Name.check name = .ok () ∧ grid.check = .ok () ∧ table.length = grid.count ∧
        table.map Sample.x = grid.values ∧ ∀ s ∈ table, s.Matches m line name := by
  refine ⟨tabulate_snd m line name grid, ?_⟩
  cases hname : Name.check name with
  | error fault => simp [tabulate, hname]
  | ok _ =>
      cases hgrid : grid.check with
      | error fault => simp [tabulate, hname, hgrid]
      | ok _ =>
          rw [tabulate_fst_of_check hname hgrid]
          refine ⟨by simp, fun table => ?_⟩
          rw [Except.ok.injEq, map_sample_eq_iff]
          constructor
          · rintro ⟨hxs, hmatches⟩
            have hlength : table.length = grid.count := by
              rw [← List.length_map Sample.x, hxs, grid.length_values]
            exact ⟨rfl, rfl, hlength, hxs, hmatches⟩
          · rintro ⟨-, -, -, hxs, hmatches⟩
            exact ⟨hxs, hmatches⟩

end Memory

end Calculator
