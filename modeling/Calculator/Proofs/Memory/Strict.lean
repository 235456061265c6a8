import Calculator.Proofs.Expr.Nodes
import Calculator.Proofs.Grammar.Levels
import Calculator.Proofs.Grammar.Slices
import Calculator.Tabulation

/-!
# Operations with a domain

Reading an argument by its number, multiplying machine words and subtracting one from a count all
have a domain.  The strict versions here of application, evaluation and tabulation use these
operations one by one and have no result as soon as one of them is outside its domain.  They always
have a result, the same as before: the number of arguments and their values are checked before they
are used (`Primitive.applyStrict_eq`), also in trees that no line stands for
(`Memory.evalStrict_eq`).
-/

namespace Calculator

/-! ## Machine words -/

/-- A product of 64-bit words, if it is one. -/
def wordProduct? (a b : Nat) : Option Nat :=
  if a * b < 2 ^ 64 then some (a * b) else none

/-- The product of the numbers from one to `n`, multiplied from the left to the right. -/
def wordFactorial? : Nat → Option Nat
  | 0 => some 1
  | n + 1 => (wordFactorial? n).bind (wordProduct? · (n + 1))

theorem factorial_le_factorial {k n : Nat} (h : k ≤ n) : factorial k ≤ factorial n := by
  induction h with
  | refl => exact Nat.le_refl _
  | step _ ih => exact Nat.le_trans ih (Nat.le_mul_of_pos_left _ (Nat.succ_pos _))

theorem wordFactorial?_eq {n : Nat} (h : n ≤ largestFactorial) :
    wordFactorial? n = some (factorial n) := by
  induction n with
  | zero => rfl
  | succ n ih =>
      have hlargest : factorial largestFactorial < 2 ^ 64 := by decide
      have hproduct : factorial n * (n + 1) = factorial (n + 1) := Nat.mul_comm _ _
      have hfits : factorial n * (n + 1) < 2 ^ 64 := by
        rw [hproduct]
        exact Nat.lt_of_le_of_lt (factorial_le_factorial h) hlargest
      rw [wordFactorial?, ih (Nat.le_of_succ_le h), Option.bind_some, wordProduct?, if_pos hfits,
        hproduct]

/-! ## Arguments -/

namespace Operation

/-- What is wrong with the arguments, of which only the first is looked at. -/
def guard? (operation : Operation) (values : List Float) : Option (Option DomainFault) :=
  match operation with
  | .unary domainFault? _ => values[0]?.map domainFault?
  | .binary _ => some none

/-- What is computed of the first argument, or of the first two. -/
def rule? (operation : Operation) (values : List Float) : Option Float :=
  match operation with
  | .unary _ rule => values[0]?.map rule
  | .binary rule =>
    match values[0]?, values[1]? with
    | some x, some y => some (rule x y)
    | _, _ => none

end Operation

/-- The factorial of the first argument as a product of words; not a number if the argument is not a
natural number. -/
def factorialRule? (values : List Float) : Option Float :=
  match values[0]? with
  | none => none
  | some x =>
    match Binary64.toNat? x with
    | some n => (wordFactorial? n).map Binary64.ofNat
    | none => some Binary64.nan

namespace Primitive

def rule? (function : Primitive) (values : List Float) : Option Float :=
  if function = .factorial then factorialRule? values else function.operation.rule? values

/-- The number of arguments is checked first, then whether each is a number, then the domain. -/
def applyStrict (function : Primitive) (values : List Float) (position : Nat) :
    Option (Except LineError Float) :=
  if values.length ≠ function.arity then
    some (.error (.badCall position function.name
      s!"expects {function.arity} arguments, found {values.length}"))
  else if values.any Float.isNaN then
    some (.ok Binary64.nan)
  else
    match function.operation.guard? values with
    | none => none
    | some (some fault) => some (.error (.invalid fault.message none))
    | some none => (function.rule? values).map .ok

theorem factorialRule?_eq {x : Float} (h : DomainFault.ofFactorial x = none) :
    factorialRule? [x] = some (factorialRule x) := by
  unfold DomainFault.ofFactorial at h
  split at h
  · cases h
  · rename_i n hn
    split at h
    · cases h
    · rename_i hlarge
      have hle : n ≤ largestFactorial := Nat.le_of_not_lt hlarge
      have hword := wordFactorial?_eq hle
      simp [factorialRule?, factorialRule, hn, hle, hword]

/-- The rule of a function finds its argument, which the guard has accepted. -/
theorem rule?_unary
    {function : Primitive} {domainFault? : Float → Option DomainFault} {rule : Float → Float}
    (hoperation : function.operation = .unary domainFault? rule) {x : Float}
    (hguard : domainFault? x = none) : function.rule? [x] = some (rule x) := by
  by_cases hfactorial : function = .factorial
  · subst hfactorial
    obtain ⟨rfl, rfl⟩ := Operation.unary.inj hoperation
    rw [rule?, if_pos rfl, factorialRule?_eq hguard]
  · rw [rule?, if_neg hfactorial, hoperation]
    rfl

theorem rule?_binary
    {function : Primitive} {rule : Float → Float → Float}
    (hoperation : function.operation = .binary rule) (x y : Float) :
    function.rule? [x, y] = some (rule x y) := by
  have hfactorial : function ≠ .factorial := by
    rintro rfl
    cases hoperation
  rw [rule?, if_neg hfactorial, hoperation]
  rfl

/-- Whatever the arguments and their number, none is read that is not there, and no product
overflows. -/
theorem applyStrict_eq (function : Primitive) (values : List Float) (position : Nat) :
    function.applyStrict values position = some (function.apply values position) := by
  unfold applyStrict apply
  by_cases hcount : values.length = function.arity
  · rw [if_neg (not_not_intro hcount)]
    rcases hoperation : function.operation with ⟨domainFault?, rule⟩ | rule
    · have harity : values.length = 1 := by rw [hcount, arity, hoperation, Operation.arity]
      obtain ⟨x, rfl⟩ := List.length_eq_one_iff.mp harity
      have hany : [x].any Float.isNaN = x.isNaN := by
        rw [List.any_cons, List.any_nil, Bool.or_false]
      dsimp only
      rw [hany]
      generalize x.isNaN = nan
      rcases nan with _ | _
      · cases hguard : domainFault? x with
        | some fault => simp [Operation.guard?, hguard]
        | none => simp [Operation.guard?, hguard, rule?_unary hoperation hguard]
      · simp
    · have harity : values.length = 2 := by rw [hcount, arity, hoperation, Operation.arity]
      obtain ⟨x, y, rfl⟩ := List.length_eq_two.mp harity
      have hany : [x, y].any Float.isNaN = (x.isNaN || y.isNaN) := by
        rw [List.any_cons, List.any_cons, List.any_nil, Bool.or_false]
      dsimp only
      rw [hany]
      generalize (x.isNaN || y.isNaN) = nan
      rcases nan with _ | _
      · simp [Operation.guard?, rule?_binary hoperation]
      · simp
  · rw [if_pos hcount]
    have harity : function.arity = function.operation.arity := rfl
    split
    · rename_i hoperation
      simp [harity, hoperation, Operation.arity] at hcount
    · rename_i hoperation
      simp [harity, hoperation, Operation.arity] at hcount
    · rw [harity]

end Primitive

/-! ## Trees -/

namespace Memory

mutual

/-- The value of a tree by strict application. -/
def evalStrict (m : Memory) : Expr → Option (Except LineError Float)
  | .negate _ operand =>
    match m.evalStrict operand with
    | some (.ok value) => some (.ok (-value))
    | other => other
  | .binary _ op left right =>
    match m.evalStrict left with
    | some (.ok leftValue) =>
      match m.evalStrict right with
      | some (.ok rightValue) => some (.ok (op.apply leftValue rightValue))
      | other => other
    | other => other
  | .call position name arguments =>
    match Primitive.find? name with
    | some function =>
      match m.evalAllStrict arguments with
      | some (.ok values) => function.applyStrict values position
      | some (.error fault) => some (.error fault)
      | none => none
    | none => some (.error (.badCall position name "unknown function"))
  | leaf => some (m.eval leaf)

def evalAllStrict (m : Memory) : List Expr → Option (Except LineError (List Float))
  | [] => some (.ok [])
  | first :: rest =>
    match m.evalStrict first with
    | some (.ok value) =>
      match m.evalAllStrict rest with
      | some (.ok values) => some (.ok (value :: values))
      | other => other
    | some (.error fault) => some (.error fault)
    | none => none

end

theorem evalAllStrict_eq
    {m : Memory} {es : List Expr} (h : ∀ e ∈ es, m.evalStrict e = some (m.eval e)) :
    m.evalAllStrict es = some (m.evalAll es) := by
  induction es with
  | nil => simp [evalAllStrict, evalAll]
  | cons first rest ih =>
      obtain ⟨hfirst, hrest⟩ := List.forall_mem_cons.mp h
      rw [evalAllStrict, hfirst, ih hrest, evalAll]
      cases m.eval first with
      | error fault => rfl
      | ok value => cases m.evalAll rest <;> rfl

/-- Any tree is evaluated within the domain of all operations. -/
theorem evalStrict_eq (m : Memory) (e : Expr) : m.evalStrict e = some (m.eval e) := by
  induction e using Expr.inductionOnChildren with
  | node e ih =>
      rcases e with _ | _ | _ | _ | ⟨position, operand⟩ | ⟨position, op, left, right⟩ |
        ⟨position, name, arguments⟩
      case negate =>
        rw [evalStrict, ih operand (by simp), eval]
        cases m.eval operand <;> rfl
      case binary =>
        rw [evalStrict, ih left (by simp), ih right (by simp), eval]
        cases m.eval left with
        | error fault => rfl
        | ok value => cases m.eval right <;> rfl
      case call =>
        have harguments : m.evalAllStrict arguments = some (m.evalAll arguments) :=
          evalAllStrict_eq ih
        rw [evalStrict, harguments, eval]
        cases Primitive.find? name with
        | none => rfl
        | some function =>
            cases m.evalAll arguments with
            | error fault => rfl
            | ok values => exact function.applyStrict_eq values position
      all_goals simp [evalStrict]

end Memory

/-! ## Tables -/

/-- One less than the number of samples, if there are two or more. -/
def Grid.lastIndex? (g : Grid) : Option Nat :=
  if 2 ≤ g.count then some (g.count - 1) else none

def Grid.values? (g : Grid) : Option (List Float) :=
  g.lastIndex?.map fun last => (List.range g.count).map fun index =>
    if index + 1 = g.count then
      g.stop
    else
      g.start + (g.stop - g.start) * Binary64.ofNat index / Binary64.ofNat last

theorem Grid.values?_eq {g : Grid} (h : g.check = .ok ()) : g.values? = some g.values := by
  have hcount : 2 ≤ g.count := by
    unfold Grid.check at h
    split at h
    · cases h
    · split at h
      · cases h
      · split at h
        · cases h
        · omega
  rw [values?, lastIndex?, if_pos hcount]
  rfl

/-- A table whose grid is checked before its values are computed. -/
def Memory.tabulateStrict (m : Memory) (line name : String) (grid : Grid) :
    Option (Except LineError (List Sample) × Memory) :=
  match Name.check name, grid.check with
  | .error fault, _ => some (.error fault, m)
  | .ok (), .error fault => some (.error fault, m)
  | .ok (), .ok () =>
    grid.values?.map fun values =>
      let (samples, after) := m.samples line name values
      (.ok samples, after)

theorem Memory.tabulateStrict_eq (m : Memory) (line name : String) (grid : Grid) :
    m.tabulateStrict line name grid = some (m.tabulate line name grid) := by
  unfold tabulateStrict tabulate
  cases Name.check name with
  | error fault => rfl
  | ok _ =>
      cases hcheck : grid.check with
      | error fault => rfl
      | ok _ =>
          rw [Grid.values?_eq hcheck]
          rfl

/-! ## All of them -/

/-- No operation is used outside its domain.  The three texts that are cut out of a line can be cut
out: what comes before a character that is refused, the target of an assignment, and a run of
operators.  The count of levels stays between zero and the limit, whatever is read.  Any tree, any
call and any table has the value that it has by strict operations. -/
theorem Memory.no_operation_outside_domain (m : Memory) (line : String) :
    (∀ position c, scan line = .error (.badCharacter position c) → Sliceable line 0 position) ∧
    (∀ letWord first rest equals value, scan line = .ok (letWord :: first :: rest) →
      (first :: rest).dropWhile (!·.isEquals) = equals :: value →
        Sliceable line first.position equals.position) ∧
    (∀ lexemes first last, scan line = .ok lexemes →
      Statement.read m line lexemes = .error (.operatorRun first last) →
        Sliceable line first.position last.stop) ∧
    (∀ ls count u rest, Unfinished.Arrives m ls count u rest →
      u.read m rest = Expr.read m ls ∧ count = u.depth ∧ count ≤ maxDepth ∧
        (∀ token, 0 ≤ count - u.leaves token) ∧
        ∀ e, u.finish = .ok e → count - u.leaves none = 0) ∧
    (∀ e, m.evalStrict e = some (m.eval e)) ∧
    (∀ function values position,
      Primitive.applyStrict function values position = some (function.apply values position)) ∧
    ∀ name grid, m.tabulateStrict line name grid = some (m.tabulate line name grid) := by
  refine ⟨?_, ?_, ?_, ?_, m.evalStrict_eq, Primitive.applyStrict_eq, m.tabulateStrict_eq line⟩
  · exact fun _ _ hscan => sliceable_of_badCharacter hscan
  · exact fun _ _ _ _ _ hscan hequals => sliceable_target hscan hequals
  · exact fun _ _ _ hscan hread => sliceable_of_operatorRun hscan hread
  · exact fun _ _ _ _ harrives => ⟨harrives.read_eq, harrives.count_bounds⟩

/-- A line that is refused for a character of two bytes, and one that is refused for a run of
operators inside two levels of nesting. -/
theorem Memory.no_operation_outside_domain_of_run :
    let plus : Lexeme := ⟨.operator .add, "+", 5⟩
    let times : Lexeme := ⟨.operator .mul, "*", 6⟩
    let lexemes : List Lexeme :=
      [⟨.number 2, "2", 0⟩, ⟨.operator .pow, "^", 1⟩, ⟨.openParen, "(", 2⟩, ⟨.number 1, "1", 3⟩,
        plus, times]
    scan "2^é" = .error (.badCharacter 2 'é') ∧ Sliceable "2^é" 0 2 ∧
      scan "2^(1 +*" = .ok lexemes ∧
      Statement.read fresh "2^(1 +*" lexemes = .error (.operatorRun plus times) ∧
      Sliceable "2^(1 +*" plus.position times.stop ∧
      ∃ count u, Unfinished.Arrives fresh lexemes count u [plus, times] ∧ count = 2 ∧
        u.leaves (some plus.token) = 0 ∧ 0 ≤ count - u.leaves (some plus.token) := by
  intro plus times lexemes
  have hbad : scan "2^é" = .error (.badCharacter 2 'é') := by decide +kernel
  have hscan : scan "2^(1 +*" = .ok lexemes := by decide +kernel
  have hread : Statement.read fresh "2^(1 +*" lexemes = .error (.operatorRun plus times) := rfl
  obtain ⟨-, -, hrun, harrives, -⟩ := no_operation_outside_domain fresh "2^(1 +*"
  refine ⟨hbad, (no_operation_outside_domain fresh _).1 _ _ hbad, hscan, hread,
    hrun _ _ _ hscan hread, ?_⟩
  have hsteps : Unfinished.Arrives fresh lexemes _ _ [plus, times] :=
    .step (.step (.step (.step .start rfl) rfl) rfl) rfl
  obtain ⟨-, hcount, -, hleaves, -⟩ := harrives _ _ _ _ hsteps
  exact ⟨_, _, hsteps, hcount, rfl, hleaves _⟩

end Calculator
