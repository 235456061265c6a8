import Calculator.Proofs.Memory.Parsed

/-!
# The first fault of a tree

The stages of an evaluation come in a fixed order (`Expr.stages`): the name of a called function is
looked up before the arguments, and each node is worked out after its children.  Which stages fail
is said without the evaluation, but for the values of arguments (`Stage.Fails`).  The error of a
tree is that of the first stage that fails (`Memory.eval_reportsFirst`), so a tree has a value if
no stage fails, and this depends on one node at a time (`Expr.Evaluable`).
-/

namespace Calculator

/-! ## Arguments that a function refuses -/

namespace Primitive

variable {function : Primitive} {values : List Float} {position : Nat} {fault : LineError}

/-- Why a function refuses some values, if none of them is a NaN. -/
def domainFault? (function : Primitive) (values : List Float) : Option DomainFault :=
  match function.operation, values with
  | .unary domainFault? _, [x] => domainFault? x
  | _, _ => none

theorem apply_of_length_ne (h : values.length ≠ function.arity) :
    function.apply values position = .error (.badCall position function.name
      s!"expects {function.arity} arguments, found {values.length}") := by
  unfold apply
  split
  · rename_i hoperation
    simp [arity, hoperation, Operation.arity] at h
  · rename_i hoperation
    simp [arity, hoperation, Operation.arity] at h
  · rfl

theorem apply_of_domainFault?
    {d : DomainFault} (hnan : ∀ x ∈ values, x.isNaN = false)
    (h : function.domainFault? values = some d) :
    function.apply values position = .error (.invalid d.message none) := by
  unfold domainFault? at h
  split at h
  · rename_i domainFault? rule x hoperation
    have hx : x.isNaN = false := hnan x List.mem_cons_self
    simp only [apply, hoperation, hx, h, Bool.false_eq_true, if_false]
  · cases h

/-- A function fails on a wrong number of values, or on values outside its domain. -/
theorem apply_eq_error_iff :
    function.apply values position = .error fault ↔
      values.length ≠ function.arity ∧ fault = .badCall position function.name
        s!"expects {function.arity} arguments, found {values.length}" ∨
      ∃ d, (∀ x ∈ values, x.isNaN = false) ∧ function.domainFault? values = some d ∧
        fault = .invalid d.message none := by
  constructor
  · intro h
    by_cases hlength : values.length = function.arity
    · right
      obtain ⟨domainFault?, rule, x, d, hoperation, rfl, hnan, hdomain, rfl⟩ :=
        eq_of_apply_eq_error hlength h
      exact ⟨d, List.forall_mem_singleton.mpr hnan,
        by simp [Primitive.domainFault?, hoperation, hdomain], rfl⟩
    · left
      rw [apply_of_length_ne hlength] at h
      cases h
      exact ⟨hlength, rfl⟩
  · rintro (⟨hlength, rfl⟩ | ⟨d, hnan, hdomain, rfl⟩)
    · exact apply_of_length_ne hlength
    · exact apply_of_domainFault? hnan hdomain

end Primitive

/-! ## Stages -/

/-- A point of an evaluation. -/
inductive Stage where
  /-- The function of a call is looked up. -/
  | callee (position : Nat) (name : String)
  /-- A node is worked out from the values of its children. -/
  | node (e : Expr)

namespace Expr

mutual

/-- The stages of an evaluation, in the order in which it comes to them. -/
def stages : Expr → List Stage
  | .number position value => [.node (.number position value)]
  | .constant position name value => [.node (.constant position name value)]
  | .reference position name => [.node (.reference position name)]
  | .answer position => [.node (.answer position)]
  | .negate position operand => operand.stages ++ [.node (.negate position operand)]
  | .binary position op left right =>
    left.stages ++ (right.stages ++ [.node (.binary position op left right)])
  | .call position name arguments =>
    .callee position name :: (stagesAll arguments ++ [.node (.call position name arguments)])

def stagesAll : List Expr → List Stage
  | [] => []
  | first :: rest => first.stages ++ stagesAll rest

end

@[simp]
theorem stagesAll_eq_flatMap (es : List Expr) : stagesAll es = es.flatMap stages := by
  induction es with
  | nil => rfl
  | cons first rest ih => rw [stagesAll, ih, List.flatMap_cons]

end Expr

namespace Stage

/-- The stage fails with a fault, if the evaluation comes to it. -/
inductive Fails (m : Memory) : Stage → LineError → Prop where
  | unknownFunction {position : Nat} {name : String} (h : Primitive.find? name = none) :
      Fails m (.callee position name) (.badCall position name "unknown function")
  | unbound {position : Nat} {name : String} (h : m.bindings.get? name = none) :
      Fails m (.node (.reference position name)) (.unknownName position name)
  | noAnswer {position : Nat} (h : m.answer = none) :
      Fails m (.node (.answer position)) (.unknownName position Name.answer)
  | wrongCount {position : Nat} {name : String} {arguments : List Expr} {function : Primitive}
      (hfunction : Primitive.find? name = some function)
      (hcount : arguments.length ≠ function.arity) :
      Fails m (.node (.call position name arguments)) (.badCall position name
        s!"expects {function.arity} arguments, found {arguments.length}")
  | outsideDomain {position : Nat} {name : String} {arguments : List Expr} {function : Primitive}
      {values : List Float} {d : DomainFault}
      (hfunction : Primitive.find? name = some function)
      (hvalues : List.Forall₂ (fun e value => m.eval e = .ok value) arguments values)
      (hnan : ∀ x ∈ values, x.isNaN = false) (hdomain : function.domainFault? values = some d) :
      Fails m (.node (.call position name arguments)) (.invalid d.message none)

def Passes (m : Memory) (stage : Stage) : Prop :=
  ∀ fault, ¬stage.Fails m fault

variable {m : Memory} {position : Nat} {name : String} {fault : LineError}

theorem fails_callee_iff :
    (callee position name).Fails m fault ↔
      Primitive.find? name = none ∧ fault = .badCall position name "unknown function" := by
  constructor
  · intro hfails
    cases hfails with
    | unknownFunction h => exact ⟨h, rfl⟩
  · rintro ⟨h, rfl⟩
    exact .unknownFunction h

theorem passes_callee_iff :
    (callee position name).Passes m ↔ (Primitive.find? name).isSome = true := by
  simp [Passes, fails_callee_iff, Option.isSome_iff_ne_none]

theorem fails_reference_iff :
    (node (.reference position name)).Fails m fault ↔
      m.bindings.get? name = none ∧ fault = .unknownName position name := by
  constructor
  · intro hfails
    cases hfails with
    | unbound h => exact ⟨h, rfl⟩
  · rintro ⟨h, rfl⟩
    exact .unbound h

theorem passes_reference_iff :
    (node (.reference position name)).Passes m ↔ (m.bindings.get? name).isSome = true := by
  simp [Passes, fails_reference_iff, Option.isSome_iff_ne_none]

theorem fails_answer_iff :
    (node (.answer position)).Fails m fault ↔
      m.answer = none ∧ fault = .unknownName position Name.answer := by
  constructor
  · intro hfails
    cases hfails with
    | noAnswer h => exact ⟨h, rfl⟩
  · rintro ⟨h, rfl⟩
    exact .noAnswer h

theorem passes_answer_iff :
    (node (.answer position)).Passes m ↔ m.answer.isSome = true := by
  simp [Passes, fails_answer_iff, Option.isSome_iff_ne_none]

theorem fails_call_iff
    {arguments : List Expr} {function : Primitive}
    (hfunction : Primitive.find? name = some function) :
    (node (.call position name arguments)).Fails m fault ↔
      arguments.length ≠ function.arity ∧ fault = .badCall position name
        s!"expects {function.arity} arguments, found {arguments.length}" ∨
      ∃ values d, List.Forall₂ (fun e value => m.eval e = .ok value) arguments values ∧
        (∀ x ∈ values, x.isNaN = false) ∧ function.domainFault? values = some d ∧
        fault = .invalid d.message none := by
  constructor
  · intro hfails
    cases hfails with
    | wrongCount hother hcount =>
        cases hfunction.symm.trans hother
        exact .inl ⟨hcount, rfl⟩
    | outsideDomain hother hvalues hnan hdomain =>
        cases hfunction.symm.trans hother
        exact .inr ⟨_, _, hvalues, hnan, hdomain, rfl⟩
  · rintro (⟨hcount, rfl⟩ | ⟨values, d, hvalues, hnan, hdomain, rfl⟩)
    · exact .wrongCount hfunction hcount
    · exact .outsideDomain hfunction hvalues hnan hdomain

theorem passes_call_iff
    {arguments : List Expr} {function : Primitive}
    (hfunction : Primitive.find? name = some function) :
    (node (.call position name arguments)).Passes m ↔
      arguments.length = function.arity ∧
        ∀ values, List.Forall₂ (fun e value => m.eval e = .ok value) arguments values →
          (∃ x ∈ values, x.isNaN = true) ∨ function.domainFault? values = none := by
  simp only [Passes, fails_call_iff hfunction]
  constructor
  · intro h
    refine ⟨by_contra fun hcount => h _ (.inl ⟨hcount, rfl⟩), fun values hvalues => ?_⟩
    by_contra hrefused
    obtain ⟨hnan, hdomain⟩ := not_or.mp hrefused
    obtain ⟨d, hd⟩ := Option.ne_none_iff_exists'.mp hdomain
    have hfalse : ∀ x ∈ values, x.isNaN = false :=
      fun x hx => Bool.eq_false_iff.mpr fun hxnan => hnan ⟨x, hx, hxnan⟩
    exact h _ (.inr ⟨values, d, hvalues, hfalse, hd, rfl⟩)
  · rintro ⟨hcount, hvalues⟩ fault (⟨hother, -⟩ | ⟨values, d, hforall, hnan, hdomain, -⟩)
    · exact hother hcount
    · rcases hvalues values hforall with ⟨x, hx, hxnan⟩ | hnone
      · exact absurd hxnan (Bool.eq_false_iff.mp (hnan x hx))
      · cases hnone.symm.trans hdomain

end Stage

/-- The first of the stages that fails, fails with the fault. -/
inductive FirstFault (m : Memory) : List Stage → LineError → Prop where
  | here {stage : Stage} {later : List Stage} {fault : LineError} (h : stage.Fails m fault) :
      FirstFault m (stage :: later) fault
  | later {stage : Stage} {later : List Stage} {fault : LineError} (hpass : stage.Passes m)
      (h : FirstFault m later fault) : FirstFault m (stage :: later) fault

namespace FirstFault

variable {m : Memory} {fault : LineError} {stage : Stage} {stages stages' : List Stage}

@[simp]
theorem not_nil : ¬FirstFault m [] fault :=
  nofun

theorem cons_iff :
    FirstFault m (stage :: stages) fault ↔
      stage.Fails m fault ∨ stage.Passes m ∧ FirstFault m stages fault := by
  constructor
  · rintro (h | ⟨hpass, h⟩)
    · exact .inl h
    · exact .inr ⟨hpass, h⟩
  · rintro (h | ⟨hpass, h⟩)
    · exact .here h
    · exact .later hpass h

theorem append_iff :
    FirstFault m (stages ++ stages') fault ↔
      FirstFault m stages fault ∨ (∀ s ∈ stages, s.Passes m) ∧ FirstFault m stages' fault := by
  induction stages with
  | nil => simp
  | cons stage stages ih =>
      simp only [List.cons_append, cons_iff, ih, List.forall_mem_cons]
      tauto

theorem forall_not_iff : (∀ fault, ¬FirstFault m stages fault) ↔ ∀ s ∈ stages, s.Passes m := by
  induction stages with
  | nil => simp
  | cons stage stages ih =>
      simp only [cons_iff, List.forall_mem_cons, ← ih, not_or, not_and, forall_and]
      exact and_congr_right fun hpass => ⟨fun h fault => h fault hpass, fun h fault _ => h fault⟩

end FirstFault

/-! ## Evaluations that report the first fault -/

/-- The computation fails if one of the stages does, with the fault of the first. -/
def ReportsFirst {α : Type} (m : Memory) (stages : List Stage) (x : Except LineError α) : Prop :=
  ∀ fault, x = .error fault ↔ FirstFault m stages fault

namespace ReportsFirst

variable {α β : Type} {m : Memory} {stage : Stage} {stages stages' : List Stage}
  {x : Except LineError α} {y : Except LineError β}

theorem exists_eq_ok_iff (h : ReportsFirst m stages x) :
    (∃ a, x = .ok a) ↔ ∀ s ∈ stages, s.Passes m := by
  rw [← FirstFault.forall_not_iff]
  cases x <;> simp [← h _]

theorem singleton_iff :
    ReportsFirst m [stage] x ↔ ∀ fault, x = .error fault ↔ stage.Fails m fault := by
  simp [ReportsFirst, FirstFault.cons_iff]

theorem of_fails
    {fault : LineError} (h : ∀ other, stage.Fails m other ↔ other = fault) :
    ReportsFirst m [stage] (.error fault : Except LineError α) :=
  singleton_iff.mpr fun other => by simp [h, eq_comm]

theorem of_passes (h : stage.Passes m) (a : α) : ReportsFirst m [stage] (.ok a) :=
  singleton_iff.mpr fun fault => ⟨nofun, fun hfault => absurd hfault (h fault)⟩

/-- Only if the earlier stages pass is there more to compute. -/
theorem append
    (hx : ReportsFirst m stages x) (herror : ∀ fault, x = .error fault → y = .error fault)
    (hok : ∀ a, x = .ok a → ReportsFirst m stages' y) : ReportsFirst m (stages ++ stages') y := by
  intro fault
  rw [FirstFault.append_iff, ← hx fault, ← hx.exists_eq_ok_iff]
  cases hcase : x with
  | error other =>
      rw [herror other hcase]
      simp
  | ok a => simpa using hok a hcase fault

end ReportsFirst

namespace Memory

variable {m : Memory}

/-- The stages of some trees, one tree after the other. -/
theorem evalAll_reportsFirst
    {es : List Expr} (h : ∀ e ∈ es, ReportsFirst m e.stages (m.eval e)) :
    ReportsFirst m (Expr.stagesAll es) (m.evalAll es) := by
  induction es with
  | nil => exact fun fault => ⟨nofun, nofun⟩
  | cons first rest ih =>
      obtain ⟨hfirst, hrest⟩ := List.forall_mem_cons.mp h
      refine hfirst.append ?_ ?_
      · intro fault hfault
        exact evalAll_cons_eq_error_iff.mpr (.inl hfault)
      · intro value hvalue fault
        rw [← ih hrest fault, evalAll_cons_eq_error_iff]
        simp [hvalue]

/-- A function with values for all arguments fails as the call does. -/
theorem apply_reportsFirst
    {position : Nat} {name : String} {arguments : List Expr} {function : Primitive}
    {values : List Float} (hfunction : Primitive.find? name = some function)
    (hvalues : m.evalAll arguments = .ok values) :
    ReportsFirst m [.node (.call position name arguments)] (function.apply values position) := by
  have hunique : ∀ others, List.Forall₂ (fun e value => m.eval e = .ok value) arguments others ↔
      others = values := by
    intro others
    rw [← evalAll_eq_ok_iff, hvalues, Except.ok.injEq, eq_comm]
  rw [ReportsFirst.singleton_iff]
  intro fault
  have hlength : arguments.length = values.length := ((hunique values).mpr rfl).length_eq
  simp only [Stage.fails_call_iff hfunction, hunique, Primitive.apply_eq_error_iff,
    Primitive.name_of_find? hfunction, hlength, exists_eq_left, exists_and_left]

/-- The name of a call comes before the arguments, all else about it after them. -/
theorem eval_call_reportsFirst
    {position : Nat} {name : String} {arguments : List Expr}
    (h : ∀ e ∈ arguments, ReportsFirst m e.stages (m.eval e)) :
    ReportsFirst m (Expr.call position name arguments).stages
      (m.eval (.call position name arguments)) := by
  rw [Expr.stages, ← List.singleton_append, eval]
  cases hfunction : Primitive.find? name with
  | none =>
      have hcallee : ReportsFirst m [.callee position name]
          (.error (.badCall position name "unknown function") : Except LineError Float) :=
        .of_fails (by simp [Stage.fails_callee_iff, hfunction])
      exact hcallee.append (fun _ h => h) fun _ h => by cases h
  | some function =>
      have hcallee : (Stage.callee position name).Passes m :=
        Stage.passes_callee_iff.mpr (by simp [hfunction])
      refine (ReportsFirst.of_passes hcallee ()).append (fun _ h => by cases h) fun _ _ => ?_
      refine (evalAll_reportsFirst h).append ?_ ?_
      · intro fault hfault
        rw [hfault]
      · intro values hvalues
        rw [hvalues]
        exact apply_reportsFirst hfunction hvalues

theorem eval_reportsFirst (m : Memory) (e : Expr) : ReportsFirst m e.stages (m.eval e) := by
  induction e using Expr.inductionOnChildren with
  | node e ih =>
    cases e with
    | number position value | constant position name value =>
        exact .of_passes (by rintro _ ⟨⟩) _
    | reference position name =>
        rw [Expr.stages, eval]
        cases hvalue : m.bindings.get? name with
        | none => exact .of_fails (by simp [Stage.fails_reference_iff, hvalue])
        | some value => exact .of_passes (Stage.passes_reference_iff.mpr (by simp [hvalue])) _
    | answer position =>
        rw [Expr.stages, eval]
        cases hvalue : m.answer with
        | none => exact .of_fails (by simp [Stage.fails_answer_iff, hvalue])
        | some value => exact .of_passes (Stage.passes_answer_iff.mpr (by simp [hvalue])) _
    | negate position operand =>
        refine (ih operand (by simp)).append ?_ ?_
        · intro fault hfault
          simp [eval, hfault]
        · intro value hvalue
          rw [eval, hvalue]
          exact .of_passes (by rintro _ ⟨⟩) _
    | binary position op left right =>
        refine (ih left (by simp)).append ?_ fun leftValue hleft => ?_
        · intro fault hfault
          simp [eval, hfault]
        · refine (ih right (by simp)).append ?_ ?_
          · intro fault hfault
            simp [eval, hleft, hfault]
          · intro rightValue hright
            rw [eval, hleft, hright]
            exact .of_passes (by rintro _ ⟨⟩) _
    | call position name arguments => exact eval_call_reportsFirst ih

end Memory

/-! ## Nodes without a fault -/

namespace Expr

variable {m : Memory}

/-- What a node asks for, if its children have values: a name must be known, and a call must be of
a built-in, with as many arguments as it takes and none outside its domain, unless a NaN is among
them. -/
def Evaluable (m : Memory) : Expr → Prop
  | .reference _ name => (m.bindings.get? name).isSome = true
  | .answer _ => m.answer.isSome = true
  | .call _ name arguments =>
    ∃ function, Primitive.find? name = some function ∧ arguments.length = function.arity ∧
      ∀ values, List.Forall₂ (fun e value => m.eval e = .ok value) arguments values →
        (∃ x ∈ values, x.isNaN = true) ∨ function.domainFault? values = none
  | _ => True

/-- The stages of the root alone. -/
@[simp]
def ownStages : Expr → List Stage
  | .call position name arguments =>
    [.callee position name, .node (.call position name arguments)]
  | e => [.node e]

theorem forall_mem_stages_iff
    {P : Stage → Prop} (e : Expr) :
    (∀ s ∈ e.stages, P s) ↔
      (∀ s ∈ e.ownStages, P s) ∧ ∀ child ∈ e.children, ∀ s ∈ child.stages, P s := by
  cases e with
  | number | constant | reference | answer => simp [stages]
  | negate => simp [stages, or_imp, forall_and, and_comm]
  | binary =>
      simp only [stages, ownStages, children, List.forall_mem_append, List.forall_mem_cons]
      tauto
  | call =>
      simp only [stages, stagesAll_eq_flatMap, ownStages, children, List.forall_mem_append,
        List.forall_mem_cons, List.forall_mem_flatMap]
      tauto

theorem passes_ownStages_iff (e : Expr) : (∀ s ∈ e.ownStages, s.Passes m) ↔ e.Evaluable m := by
  cases e with
  | number position value | constant position name value | negate position operand
  | binary position op left right =>
      simp only [ownStages, List.forall_mem_singleton]
      exact iff_of_true (by rintro _ ⟨⟩) trivial
  | reference position name => simp [Evaluable, Stage.passes_reference_iff]
  | answer position => simp [Evaluable, Stage.passes_answer_iff]
  | call position name arguments =>
      cases hfunction : Primitive.find? name with
      | none => simp [Evaluable, Stage.passes_callee_iff, hfunction]
      | some function =>
          simp [Evaluable, Stage.passes_callee_iff, hfunction, Stage.passes_call_iff hfunction]

theorem passes_stages_iff (e : Expr) :
    (∀ s ∈ e.stages, s.Passes m) ↔ e.Every (Evaluable m) := by
  induction e using inductionOnChildren with
  | node e ih =>
    rw [forall_mem_stages_iff, passes_ownStages_iff, every_iff]
    exact and_congr_right fun _ => forall₂_congr ih

end Expr

namespace Memory

theorem exists_eval_eq_ok_iff (m : Memory) (e : Expr) :
    (∃ value, m.eval e = .ok value) ↔ e.Every (Expr.Evaluable m) :=
  (m.eval_reportsFirst e).exists_eq_ok_iff.trans (Expr.passes_stages_iff e)

/-- No fault is swallowed.  A tree has a value if all its nodes can be worked out, and then every
tree within it has one; else its error is that of the first stage that fails. -/
theorem eval_first_fault (m : Memory) (e : Expr) :
    ((∃ value, m.eval e = .ok value) ↔ e.Every (Expr.Evaluable m)) ∧
    (∀ fault, m.eval e = .error fault ↔ FirstFault m e.stages fault) ∧
    ((∃ value, m.eval e = .ok value) → e.Every fun node => ∃ value, m.eval node = .ok value) := by
  refine ⟨m.exists_eval_eq_ok_iff e, m.eval_reportsFirst e, fun hvalue node hnode => ?_⟩
  have hevery := (m.exists_eval_eq_ok_iff e).mp hvalue
  exact (m.exists_eval_eq_ok_iff node).mpr (hevery.of_within hnode)

/-- An unknown function is refused before its arguments and a wrong count after them; a root on the
left is refused before a name on the right. -/
example :
    fresh.eval (.call 0 "sinh" [.reference 5 "x"]) = .error (.badCall 0 "sinh" "unknown function") ∧
    fresh.eval (.call 0 "pow" [.reference 4 "x"]) = .error (.unknownName 4 "x") ∧
    fresh.eval (.binary 9 .add (.call 0 "sqrt" [.negate 5 (.number 6 1)]) (.reference 11 "x")) =
      .error (.invalid (DomainFault.negativeRoot (-1)).message none) :=
  ⟨rfl, rfl, rfl⟩

end Memory

end Calculator
