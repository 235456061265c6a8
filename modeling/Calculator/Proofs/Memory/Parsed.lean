import Mathlib.Data.List.Forall2
import Calculator.Proofs.Grammar.Names

/-!
# What can still fail once a line is parsed

A parsed line stays parsed, into the same tree, in every memory that knows at least as much.  Since
names and argument counts are settled by then, a tree of it has no value only if a function is
called outside its domain (`Memory.Refuses`), and that has no place in the line.
-/

namespace Calculator

/-- Every name that has a value in `m` has one in `m'`, perhaps another. -/
structure Memory.Covers (m' m : Memory) : Prop where
  bindings : ∀ name, m.bindings.contains name = true → m'.bindings.contains name = true
  answer : m.answer.isSome = true → m'.answer.isSome = true

variable {m m' : Memory} {line : String} {s : Statement}

/-! ## Memories that know more -/

theorem Memory.Covers.knows
    (h : m'.Covers m) {name : String} (hknown : m.Knows name) : m'.Knows name := by
  unfold Memory.Knows at hknown ⊢
  split
  · rename_i hanswer
    rw [if_pos hanswer] at hknown
    exact h.answer hknown
  · rename_i hanswer
    rw [if_neg hanswer] at hknown
    exact hknown.imp_right (h.bindings name)

namespace Derivation

theorem resolves_of_covers
    (h : m'.Covers m) {c : Category} {d : Derivation c} (hresolves : d.Resolves m) :
    d.Resolves m' := by
  induction d with
  | expr first rest ihFirst ihRest | term first rest ihFirst ihRest
  | power first rest ihFirst ihRest | arguments first rest ihFirst ihRest
  | exprMore op hop sign first rest ihFirst ihRest
  | termMore op hop sign first rest ihFirst ihRest
  | argumentsMore comma first rest ihFirst ihRest =>
      exact ⟨ihFirst hresolves.1, ihRest hresolves.2⟩
  | exprEnd | termEnd | powerEnd | argumentsEnd | number value literal => exact trivial
  | powerMore sign inner ihInner | negative sign inner ihInner | positive inner ihInner
  | group opening inner closing ihInner => exact ihInner hresolves
  | name spelling word => exact h.knows hresolves
  | call spelling word opening args closing ihArgs => exact ⟨hresolves.1, ihArgs hresolves.2⟩

theorem Admissible.of_covers
    (h : m'.Covers m) {c : Category} {d : Derivation c} {around : Nat}
    (hadm : d.Admissible m around) : d.Admissible m' around :=
  ⟨resolves_of_covers h hadm.resolves, hadm.shallow⟩

end Derivation

theorem LineDerivation.Admissible.of_covers
    (h : m'.Covers m) {d : LineDerivation} (hadm : d.Admissible m) : d.Admissible m' := by
  cases d with
  | expression value => exact Derivation.Admissible.of_covers h hadm
  | assignment letWord name target equals value =>
      exact ⟨hadm.1, Derivation.Admissible.of_covers h hadm.2⟩

/-- The derivation of a line does not depend on what its names are bound to. -/
theorem Memory.Covers.parse
    (h : m'.Covers m) (hparse : m.parse line = .ok s) : m'.parse line = .ok s := by
  obtain ⟨lexemes, hscan, hread⟩ := parse_eq_ok_iff.mp hparse
  obtain ⟨d, hyield, hadm, htree⟩ := (Statement.read_eq_ok_iff hscan).mp hread
  apply parse_eq_ok_iff.mpr
  exact ⟨lexemes, hscan, (Statement.read_eq_ok_iff hscan).mpr
    ⟨d, hyield, LineDerivation.Admissible.of_covers h hadm, htree⟩⟩

/-! ## Calls outside a domain -/

/-- With the right number of arguments, a function refuses only what is outside its domain. -/
theorem Primitive.eq_of_apply_eq_error
    {function : Primitive} {values : List Float} {position : Nat} {fault : LineError}
    (hlength : values.length = function.arity)
    (h : function.apply values position = .error fault) :
    ∃ domainFault? rule x d, function.operation = .unary domainFault? rule ∧ values = [x] ∧
      x.isNaN = false ∧ domainFault? x = some d ∧ fault = .invalid d.message none := by
  unfold apply at h
  unfold arity at hlength
  split at h
  · rename_i domainFault? rule x hoperation
    split at h
    · cases h
    · rename_i hnan
      split at h
      · rename_i d hdomain
        cases h
        exact ⟨domainFault?, rule, x, d, hoperation, rfl, Bool.not_eq_true _ ▸ hnan, hdomain, rfl⟩
      · cases h
  · cases h
  · rename_i hunary hbinary
    exfalso
    rcases hoperation : function.operation with ⟨domainFault?, rule⟩ | rule
    · rw [hoperation, Operation.arity] at hlength
      obtain ⟨x, rfl⟩ := List.length_eq_one_iff.mp hlength
      exact hunary domainFault? rule x hoperation rfl
    · rw [hoperation, Operation.arity] at hlength
      obtain ⟨x, y, rfl⟩ := List.length_eq_two.mp hlength
      exact hbinary rule x y hoperation rfl

namespace Memory

/-- Within a tree, a function is called with a value that is outside its domain. -/
inductive Refuses (m : Memory) (e : Expr) (d : DomainFault) : Prop where
  | call {position : Nat} {name : String} {argument : Expr} {function : Primitive}
      {domainFault? : Float → Option DomainFault} {rule : Float → Float} {x : Float}
      (hwithin : Expr.Within (.call position name [argument]) e)
      (hfunction : Primitive.find? name = some function)
      (hoperation : function.operation = .unary domainFault? rule)
      (hargument : m.eval argument = .ok x) (hnan : x.isNaN = false)
      (hdomain : domainFault? x = some d)

theorem Refuses.of_child
    {e child : Expr} {d : DomainFault} (hchild : child ∈ e.children) (h : m.Refuses child d) :
    m.Refuses e d := by
  obtain ⟨hwithin, hfunction, hoperation, hargument, hnan, hdomain⟩ := h
  exact ⟨hwithin.trans (.child hchild .refl), hfunction, hoperation, hargument, hnan, hdomain⟩

/-! ## The values of some trees -/

theorem evalAll_cons_eq_ok_iff
    {first : Expr} {rest : List Expr} {values : List Float} :
    m.evalAll (first :: rest) = .ok values ↔
      ∃ value others, m.eval first = .ok value ∧ m.evalAll rest = .ok others ∧
        values = value :: others := by
  rw [evalAll]
  cases m.eval first with
  | error fault => simp
  | ok value => cases m.evalAll rest <;> simp [eq_comm]

theorem evalAll_eq_ok_iff
    {es : List Expr} {values : List Float} :
    m.evalAll es = .ok values ↔ List.Forall₂ (fun e value => m.eval e = .ok value) es values := by
  induction es generalizing values with
  | nil => simp [evalAll, eq_comm]
  | cons first rest ih => simp only [evalAll_cons_eq_ok_iff, List.forall₂_cons_left_iff, ih]

theorem evalAll_cons_eq_error_iff
    {first : Expr} {rest : List Expr} {fault : LineError} :
    m.evalAll (first :: rest) = .error fault ↔
      m.eval first = .error fault ∨
        ∃ value, m.eval first = .ok value ∧ m.evalAll rest = .error fault := by
  rw [evalAll]
  cases m.eval first with
  | error other => simp
  | ok value => cases m.evalAll rest <;> simp

theorem exists_eval_of_evalAll_eq_error
    {es : List Expr} {fault : LineError} (h : m.evalAll es = .error fault) :
    ∃ e ∈ es, m.eval e = .error fault := by
  induction es with
  | nil => cases h
  | cons first rest ih =>
      rcases evalAll_cons_eq_error_iff.mp h with hfirst | ⟨_, -, hrest⟩
      · exact ⟨first, List.mem_cons_self, hfirst⟩
      · obtain ⟨e, he, hfault⟩ := ih hrest
        exact ⟨e, List.mem_cons_of_mem _ he, hfault⟩

/-! ## Trees of parsed lines -/

/-- A tree whose names are known and whose calls fit fails only by a domain. -/
theorem refuses_of_eval_eq_error
    {ls : List Lexeme} {e : Expr} (hgrounded : e.Every (Expr.Grounded m ls)) {fault : LineError}
    (h : m.eval e = .error fault) : ∃ d, m.Refuses e d ∧ fault = .invalid d.message none := by
  induction e using Expr.inductionOnChildren with
  | node e ih =>
    obtain ⟨hroot, hchildren⟩ := Expr.every_iff.mp hgrounded
    -- A fault of a child is a fault of the whole tree.
    have hpass : ∀ child ∈ e.children, m.eval child = .error fault →
        ∃ d, m.Refuses e d ∧ fault = .invalid d.message none := by
      intro child hchild hfault
      obtain ⟨d, hrefuses, heq⟩ := ih child hchild (hchildren child hchild) hfault
      exact ⟨d, hrefuses.of_child hchild, heq⟩
    cases e with
    | number position value => cases h
    | constant position name value => cases h
    | reference position name =>
        obtain ⟨value, hvalue⟩ := Option.isSome_iff_exists.mp hroot.1
        simp [eval, hvalue] at h
    | answer position =>
        obtain ⟨value, hvalue⟩ := Option.isSome_iff_exists.mp hroot.1
        simp [eval, hvalue] at h
    | negate position operand =>
        apply hpass operand (by simp)
        cases hoperand : m.eval operand <;> simp_all [eval]
    | binary position op left right =>
        cases hleft : m.eval left with
        | error other =>
            apply hpass left (by simp)
            simpa [eval, hleft] using h
        | ok leftValue =>
            apply hpass right (by simp)
            cases hright : m.eval right <;> simp_all [eval]
    | call position name arguments =>
        obtain ⟨function, hfunction, harity⟩ := hroot
        cases hvalues : m.evalAll arguments with
        | error other =>
            obtain ⟨argument, hargument, hfault⟩ := exists_eval_of_evalAll_eq_error hvalues
            apply hpass argument hargument
            simpa [eval, hfunction, hvalues, hfault] using h
        | ok values =>
            have hforall := evalAll_eq_ok_iff.mp hvalues
            have happly : function.apply values position = .error fault := by
              simpa [eval, hfunction, hvalues] using h
            obtain ⟨domainFault?, rule, x, d, hoperation, rfl, hnan, hdomain, rfl⟩ :=
              Primitive.eq_of_apply_eq_error (hforall.length_eq ▸ harity) happly
            obtain ⟨argument, others, hargument, hothers, rfl⟩ :=
              List.forall₂_cons_right_iff.mp hforall
            obtain rfl := List.forall₂_nil_right_iff.mp hothers
            exact ⟨d, ⟨.refl, hfunction, hoperation, hargument, hnan, hdomain⟩, rfl⟩

theorem refuses_of_parse
    (hparse : m.parse line = .ok s) {e : Expr} (hwithin : e.Within s.value) {fault : LineError}
    (h : m.eval e = .error fault) : ∃ d, m.Refuses e d ∧ fault = .invalid d.message none := by
  obtain ⟨lexemes, -, hgrounded⟩ := every_grounded_of_parse hparse
  exact refuses_of_eval_eq_error (hgrounded.of_within hwithin) h

/-! ## Errors with a place -/

theorem span_eq_none_of_settle
    {x : Float} {fault : LineError} (h : settle x = .error fault) : fault.span = none := by
  unfold settle at h
  split at h
  · cases h
    rfl
  · split at h <;> cases h
    rfl

/-- The value of a parsed line is refused without a place. -/
theorem span_eq_none_of_evalFinite
    (hparse : m.parse line = .ok s) {fault : LineError}
    (h : m.evalFinite s.value = .error fault) : fault.span = none := by
  unfold evalFinite at h
  cases hvalue : m.eval s.value with
  | error other =>
      obtain ⟨d, -, rfl⟩ := refuses_of_parse hparse .refl hvalue
      rw [hvalue] at h
      cases h
      rfl
  | ok x =>
      rw [hvalue] at h
      exact span_eq_none_of_settle h

theorem parse_of_evaluate_span
    {fault : LineError} (h : (m.evaluate line).1 = .error fault) (hspan : fault.span ≠ none) :
    m.parse line = .error fault := by
  cases hparse : m.parse line with
  | error other =>
      rw [evaluate_of_parse_error hparse] at h
      cases h
      rfl
  | ok s =>
      rw [evaluate_of_parse hparse] at h
      cases hvalue : m.evalFinite s.value with
      | error other =>
          rw [hvalue] at h
          cases h
          exact absurd (span_eq_none_of_evalFinite hparse hvalue) hspan
      | ok v =>
          rw [hvalue] at h
          cases h

theorem parse_of_valueOf_span
    {fault : LineError} (h : m.valueOf line = .error fault) (hspan : fault.span ≠ none) :
    m.parse line = .error fault := by
  unfold valueOf at h
  split at h
  · rename_i other hparse
    cases h
    exact hparse
  · rename_i e hparse
    exact absurd (span_eq_none_of_evalFinite hparse h) hspan
  · cases h
    exact absurd rfl hspan

theorem parse_eq_error_iff
    {fault : LineError} :
    m.parse line = .error fault ↔
      scan line = .error fault ∨
        ∃ lexemes refusal, scan line = .ok lexemes ∧
          Statement.read m line lexemes = .error refusal ∧ refusal.lineError line = fault := by
  unfold parse
  cases hscan : scan line with
  | error other => simp
  | ok lexemes => cases hread : Statement.read m line lexemes <;> simp [hread, Except.mapError]

/-- A parsed line is parsed into the same tree by every memory that knows at least as much, and
there each tree within it either has a value or fails by the domain of a function, without a place
in the line.  So if the evaluation of a line fails at a place, then the scan or the reading of its
lexemes does. -/
theorem parsed_fails_only_by_domain :
    (∀ (m m' : Memory) (line : String) (s : Statement),
      m'.Covers m → m.parse line = .ok s →
        m'.parse line = .ok s ∧
        ∀ e : Expr, e.Within s.value → ∀ fault, m'.eval e = .error fault →
          ∃ d, m'.Refuses e d ∧ fault = .invalid d.message none) ∧
    ∀ (m : Memory) (line : String) (fault : LineError),
      (m.evaluate line).1 = .error fault → fault.span ≠ none →
        scan line = .error fault ∨
          ∃ lexemes refusal, scan line = .ok lexemes ∧
            Statement.read m line lexemes = .error refusal ∧ refusal.lineError line = fault := by
  refine ⟨?_, ?_⟩
  · intro m m' line s hcovers hparse
    have hparse' := hcovers.parse hparse
    exact ⟨hparse', fun e hwithin fault hfault => refuses_of_parse hparse' hwithin hfault⟩
  · intro m line fault hfault hspan
    exact parse_eq_error_iff.mp (parse_of_evaluate_span hfault hspan)

/-- A root may be outside its domain where the variable has another value, and the name is refused
when the line is read where there is no such variable. -/
theorem root_fails_only_by_domain :
    let line := "sqrt(x) + 1"
    let m : Memory := ⟨Bindings.empty.insert "x" 4, none⟩
    let m' : Memory := ⟨Bindings.empty.insert "x" (-4), some 1⟩
    m'.Covers m ∧
    (∃ s, m.parse line = .ok s ∧ m'.parse line = .ok s ∧
      ∀ e : Expr, e.Within s.value → ∀ fault, m'.eval e = .error fault →
        ∃ d, m'.Refuses e d ∧ fault = .invalid d.message none) ∧
    (fresh.evaluate line).1 = .error (.unknownName 5 "x") ∧
    ∃ lexemes refusal, scan line = .ok lexemes ∧
      Statement.read fresh line lexemes = .error refusal ∧
        refusal.lineError line = .unknownName 5 "x" := by
  intro line m m'
  have hcovers : m'.Covers m := by
    refine ⟨fun name hname => ?_, by decide⟩
    rw [Bindings.contains, Bindings.get?_insert] at hname ⊢
    split <;> simp_all
  have hrefused : (fresh.evaluate line).1 = .error (.unknownName 5 "x") := by decide +kernel
  refine ⟨hcovers, ?_, hrefused, ?_⟩
  · have hok : (m.parse line).isOk = true := by decide +kernel
    cases hparse : m.parse line with
    | error fault =>
        rw [hparse] at hok
        cases hok
    | ok s => exact ⟨s, rfl, parsed_fails_only_by_domain.1 m m' line s hcovers hparse⟩
  · rcases parsed_fails_only_by_domain.2 fresh line _ hrefused (by decide) with hscan | hread
    · have hok : (scan line).isOk = true := by decide +kernel
      rw [hscan] at hok
      cases hok
    · exact hread

end Memory

end Calculator
