import Calculator.Memory.Parse

/-!
# Evaluation

A tree is evaluated from the left to the right, and the first fault ends it. Infinities and values
that are not numbers pass through a tree; only the value of a whole line has to be finite. A line
that fails changes nothing; one that succeeds becomes the previous answer.
-/

namespace Calculator

/-- Accepts a finite value as the result of a line. -/
def settle (x : Float) : Except LineError Float :=
  if x.isNaN then
    .error (.invalid "computation produced an invalid result" none)
  else if x.isInf then
    .error .infinite
  else
    .ok x

theorem settle_eq_ok_iff {x y : Float} :
    settle x = .ok y ↔ x = y ∧ x.isNaN = false ∧ x.isInf = false := by
  unfold settle
  generalize x.isNaN = nan
  generalize x.isInf = inf
  cases nan <;> cases inf <;> simp

namespace Memory

mutual

/-- The value of a tree, which may be infinite or not a number. -/
def eval (m : Memory) : Expr → Except LineError Float
  | .number _ value => .ok value
  | .constant _ _ value => .ok value
  | .reference position name =>
    match m.bindings.get? name with
    | some value => .ok value
    | none => .error (.unknownName position name)
  | .answer position =>
    match m.answer with
    | some value => .ok value
    | none => .error (.unknownName position Name.answer)
  | .negate _ operand =>
    match m.eval operand with
    | .ok value => .ok (-value)
    | .error fault => .error fault
  | .binary _ op left right =>
    match m.eval left with
    | .ok leftValue =>
      match m.eval right with
      | .ok rightValue => .ok (op.apply leftValue rightValue)
      | .error fault => .error fault
    | .error fault => .error fault
  | .call position name arguments =>
    match Primitive.find? name with
    | some function =>
      match m.evalAll arguments with
      | .ok values => function.apply values position
      | .error fault => .error fault
    | none => .error (.badCall position name "unknown function")

/-- The values of some trees, or the first fault. -/
def evalAll (m : Memory) : List Expr → Except LineError (List Float)
  | [] => .ok []
  | first :: rest =>
    match m.eval first with
    | .ok value =>
      match m.evalAll rest with
      | .ok values => .ok (value :: values)
      | .error fault => .error fault
    | .error fault => .error fault

end

def evalFinite (m : Memory) (expr : Expr) : Except LineError Float :=
  (m.eval expr).bind settle

/-- The value of a statement, and the memory after it. -/
def execute (m : Memory) : Statement → Except LineError Float × Memory
  | .expression expr => (m.evalFinite expr, m)
  | .assignment name expr =>
    match m.evalFinite expr with
    | .ok value => (.ok value, { m with bindings := m.bindings.insert name value })
    | .error fault => (.error fault, m)

/-- The value of a line, and the memory after it. -/
def evaluate (m : Memory) (line : String) : Except LineError Float × Memory :=
  match m.parse line with
  | .error fault => (.error fault, m)
  | .ok statement =>
    match m.execute statement with
    | (.ok value, after) => (.ok value, { after with answer := some value })
    | (.error fault, after) => (.error fault, after)

/-- The value of the expression on a line, which must not be an assignment. -/
def valueOf (m : Memory) (line : String) : Except LineError Float :=
  match m.parse line with
  | .error fault => .error fault
  | .ok (.expression expr) => m.evalFinite expr
  | .ok (.assignment _ _) => .error (.invalid "assignments cannot be plotted" none)

end Memory

end Calculator
