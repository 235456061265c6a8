import Calculator.Memory.Evaluate

/-!
# Tabulation

An expression is tabulated at evenly spaced values of one variable. Each value is bound only while
its sample is taken, and the former binding comes back after it, so that the memory is in the end
what it was before: `withBinding_snd` says so of one sample, `samples_snd` of any number.
-/

namespace Calculator

/-- An interval and the number of samples to take in it, both ends included. -/
structure Grid where
  start : Float
  stop : Float
  count : Nat
  deriving DecidableEq

/-- A point of a table; `y` is not a number where the expression has no value. -/
structure Sample where
  x : Float
  y : Float
  deriving DecidableEq

def Sample.isDefined (s : Sample) : Bool :=
  s.y.isFinite

namespace Grid

/-- Accepts a finite interval that is not empty, with two samples or more. -/
def check (g : Grid) : Except LineError Unit :=
  if !(g.start.isFinite && g.stop.isFinite) then
    .error (.invalid "plot bounds must be finite" none)
  else if g.stop ≤ g.start then
    .error (.invalid "plot start must be below plot end" none)
  else if g.count < 2 then
    .error (.invalid "a plot needs at least two samples" none)
  else
    .ok ()

/-- The value at an index; the last one is the end of the interval exactly. -/
def value (g : Grid) (index : Nat) : Float :=
  if index + 1 = g.count then
    g.stop
  else
    g.start + (g.stop - g.start) * Binary64.ofNat index / Binary64.ofNat (g.count - 1)

def values (g : Grid) : List Float :=
  (List.range g.count).map g.value

@[simp] theorem length_values (g : Grid) : g.values.length = g.count := by
  simp [values]

end Grid

namespace Memory

/-- Reads something of the memory while a name is bound to a value, then puts the former binding
back. -/
def withBinding {α : Type} (m : Memory) (name : String) (value : Float) (read : Memory → α) :
    α × Memory :=
  let (former, bindings) := m.bindings.set name value
  let bound := { m with bindings := bindings }
  (read bound, { bound with bindings := bound.bindings.put name former })

def sample (m : Memory) (line name : String) (x : Float) : Sample × Memory :=
  m.withBinding name x fun bound =>
    match bound.valueOf line with
    | .ok y => ⟨x, y⟩
    | .error _ => ⟨x, Binary64.nan⟩

def samples (m : Memory) (line name : String) : List Float → List Sample × Memory
  | [] => ([], m)
  | x :: rest =>
    let (first, afterFirst) := m.sample line name x
    let (others, afterAll) := afterFirst.samples line name rest
    (first :: others, afterAll)

/-- The table of the expression on a line over a grid of values of a variable. -/
def tabulate (m : Memory) (line name : String) (grid : Grid) :
    Except LineError (List Sample) × Memory :=
  match Name.check name, grid.check with
  | .error fault, _ => (.error fault, m)
  | .ok (), .error fault => (.error fault, m)
  | .ok (), .ok () =>
    let (samples, after) := m.samples line name grid.values
    (.ok samples, after)

theorem withBinding_snd {α : Type} (m : Memory) (name : String) (value : Float)
    (read : Memory → α) : (m.withBinding name value read).2 = m := by
  simp [withBinding, Bindings.set, Bindings.put_insert_get?]

theorem sample_snd (m : Memory) (line name : String) (x : Float) :
    (m.sample line name x).2 = m :=
  withBinding_snd m name x _

theorem samples_snd (m : Memory) (line name : String) (xs : List Float) :
    (m.samples line name xs).2 = m := by
  induction xs with
  | nil => rfl
  | cons x rest ih => simp [samples, sample_snd, ih]

/-- No sample depends on those before it. -/
theorem samples_fst (m : Memory) (line name : String) (xs : List Float) :
    (m.samples line name xs).1 = xs.map fun x => (m.sample line name x).1 := by
  induction xs with
  | nil => rfl
  | cons x rest ih => simp [samples, sample_snd, ih]

end Memory

end Calculator
