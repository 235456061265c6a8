import Calculator.Memory.Evaluate
import Calculator.Proofs.Expr.Nodes
import Calculator.Proofs.Grammar.Relocation

/-!
# Evaluating does not look at positions

If the nodes of a tree are moved, its value stays the same, and an error is the same one with its
place moved along (`Memory.eval_relocate`).
-/

namespace Calculator

def Span.relocate (f : Nat → Nat) (span : Span) : Span :=
  { span with position := f span.position }

/-- The error with its place changed. -/
def LineError.relocate (f : Nat → Nat) : LineError → LineError
  | .empty => .empty
  | .badCharacter position character => .badCharacter (f position) character
  | .unpairedParen position side => .unpairedParen (f position) side
  | .adjacentOperators position text => .adjacentOperators (f position) text
  | .badCall position name details => .badCall (f position) name details
  | .badName name reason => .badName name reason
  | .unknownName position name => .unknownName (f position) name
  | .infinite => .infinite
  | .invalid reason span => .invalid reason (span.map (·.relocate f))

def Statement.relocate (f : Nat → Nat) : Statement → Statement
  | .expression e => .expression (e.relocate f)
  | .assignment name e => .assignment name (e.relocate f)

variable {m : Memory} {f : Nat → Nat}

theorem Primitive.apply_relocate
    (function : Primitive) (values : List Float) (position : Nat) :
    function.apply values (f position) =
      (function.apply values position).mapError (LineError.relocate f) := by
  unfold apply
  split
  · split
    · rfl
    · split <;> rfl
  · rfl
  · rfl

namespace Memory

theorem evalAll_relocate
    {es : List Expr}
    (h : ∀ e ∈ es, m.eval (e.relocate f) = (m.eval e).mapError (LineError.relocate f)) :
    m.evalAll (es.map (·.relocate f)) = (m.evalAll es).mapError (LineError.relocate f) := by
  induction es with
  | nil => rfl
  | cons first rest ih =>
      obtain ⟨hfirst, hrest⟩ := List.forall_mem_cons.mp h
      rw [List.map_cons, evalAll, evalAll, hfirst, ih hrest]
      rcases m.eval first with fault | value
      · rfl
      · rcases m.evalAll rest with fault | values <;> rfl

/-- A tree that is moved has the same value, or the same error at the place moved to. -/
theorem eval_relocate (m : Memory) (f : Nat → Nat) (e : Expr) :
    m.eval (e.relocate f) = (m.eval e).mapError (LineError.relocate f) := by
  induction e using Expr.inductionOnChildren with
  | node e ih =>
    cases e with
    | number position value => rfl
    | constant position name value => rfl
    | reference position name =>
        simp only [Expr.relocate, eval]
        rcases m.bindings.get? name with _ | value <;> rfl
    | answer position =>
        simp only [Expr.relocate, eval]
        rcases m.answer with _ | value <;> rfl
    | negate position operand =>
        rw [Expr.relocate, eval, eval, ih operand (by simp)]
        rcases m.eval operand with fault | value <;> rfl
    | binary position op left right =>
        rw [Expr.relocate, eval, eval, ih left (by simp), ih right (by simp)]
        rcases m.eval left with fault | leftValue
        · rfl
        · rcases m.eval right with fault | rightValue <;> rfl
    | call position name arguments =>
        have harguments := evalAll_relocate ih
        simp only [Expr.children] at harguments
        rw [Expr.relocate, Expr.relocateAll_eq_map, eval, eval, harguments]
        rcases Primitive.find? name with _ | function
        · rfl
        · rcases m.evalAll arguments with fault | values
          · rfl
          · exact function.apply_relocate values position

theorem evalFinite_relocate (m : Memory) (f : Nat → Nat) (e : Expr) :
    m.evalFinite (e.relocate f) = (m.evalFinite e).mapError (LineError.relocate f) := by
  rw [evalFinite, evalFinite, eval_relocate]
  rcases m.eval e with fault | value
  · rfl
  · show settle value = (settle value).mapError (LineError.relocate f)
    unfold settle
    split
    · rfl
    · split <;> rfl

end Memory

end Calculator
