import Calculator.Proofs.Memory.Table
import Mathlib.Data.List.Basic
import Mathlib.Data.List.Induction

/-!
# The table of variables and its history

A table of variables lists what its history has left: each name once, in the order of code points,
with the value of the latest operation that set it, unless it was removed later or the table emptied
(`Bindings.Records`).  One operation adds to the history what it does to the table
(`Bindings.get?_edit_eq_some_iff`), so this holds after any number of operations.  Whatever is done
with a memory is a series of operations on its table (`Memory.bindings_use`): an assignment sets its
target, and each sample of a table of values sets a name and then puts back what was there.
-/

namespace Calculator

namespace Bindings

/-! ## Operations on a table -/

/-- An operation on a table of variables. -/
inductive Edit where
  | set (name : String) (value : Float)
  | remove (name : String)
  | clear

/-- What an operation gives back, and the table after it. -/
def edit (b : Bindings) : Edit → Option Float × Bindings
  | .set name value => b.set name value
  | .remove name => b.remove name
  | .clear => (none, .empty)

/-- The table after some operations, one after the other. -/
def after (b : Bindings) (history : List Edit) : Bindings :=
  history.foldl (fun b e => (b.edit e).2) b

/-- The operation decides whether a name is bound, and to what. -/
def Edit.Concerns (name : String) : Edit → Prop
  | .set other _ => name = other
  | .remove other => name = other
  | .clear => True

/-- Nothing after the latest operation that sets the name to the value concerns the name. -/
def LatestSet (history : List Edit) (name : String) (value : Float) : Prop :=
  ∃ before later, history = before ++ .set name value :: later ∧
    ∀ e ∈ later, ¬e.Concerns name

variable {b : Bindings} {history : List Edit} {name : String} {value : Float} {e : Edit}

@[simp]
theorem after_nil (b : Bindings) : b.after [] = b :=
  rfl

theorem after_append (b : Bindings) (history later : List Edit) :
    b.after (history ++ later) = (b.after history).after later :=
  List.foldl_append

theorem not_latestSet_nil : ¬LatestSet [] name value := by
  rintro ⟨before, later, h, -⟩
  simp at h

theorem latestSet_concat_iff :
    LatestSet (history ++ [e]) name value ↔
      e = .set name value ∨ ¬e.Concerns name ∧ LatestSet history name value := by
  constructor
  · rintro ⟨before, later, h, hlater⟩
    rcases List.eq_nil_or_concat' later with rfl | ⟨later, last, rfl⟩
    · exact .inl (List.cons.inj (List.append_inj' h rfl).2).1
    · rw [← List.cons_append, ← List.append_assoc] at h
      obtain ⟨rfl, hlast⟩ := List.append_inj' h rfl
      obtain rfl := (List.cons.inj hlast).1
      exact .inr ⟨hlater e (by simp), before, later, rfl,
        fun other hother => hlater other (List.mem_append_left _ hother)⟩
  · rintro (rfl | ⟨hconcerns, before, later, rfl, hlater⟩)
    · exact ⟨history, [], rfl, by simp⟩
    · refine ⟨before, later ++ [e], by simp, fun other hother => ?_⟩
      rcases List.mem_append.mp hother with hother | hother
      · exact hlater other hother
      · rwa [List.mem_singleton.mp hother]

/-- An operation sets one name, or leaves alone what does not concern it. -/
theorem get?_edit_eq_some_iff :
    (b.edit e).2.get? name = some value ↔
      e = .set name value ∨ ¬e.Concerns name ∧ b.get? name = some value := by
  cases e with
  | set other v =>
      simp only [edit, set, get?_insert, Edit.Concerns, Edit.set.injEq]
      split
      · rename_i heq
        simp [heq]
      · rename_i hne
        simp [hne, Ne.symm hne]
  | remove other =>
      simp only [edit, remove, get?_erase, Edit.Concerns]
      split
      · rename_i heq
        simp [heq]
      · rename_i hne
        simp [hne]
  | clear => simp [edit, Edit.Concerns]

theorem get?_after_eq_some_iff :
    (empty.after history).get? name = some value ↔ LatestSet history name value := by
  induction history using List.reverseRecOn with
  | nil => simp [not_latestSet_nil]
  | append_singleton history e ih =>
      rw [after_append, latestSet_concat_iff, ← ih]
      exact get?_edit_eq_some_iff

/-! ## The list of a table -/

theorem mem_toList_iff : (name, value) ∈ b.toList ↔ b.get? name = some value := by
  rw [get?, List.lookup_eq_some_iff]
  constructor
  · intro h
    obtain ⟨before, later, heq⟩ := List.append_of_mem h
    -- What stands before the entry has a smaller name, so that the look-up does not stop there.
    refine ⟨before, later, heq, fun entry hentry => bne_iff_ne.mpr ?_⟩
    have hsorted := b.sorted
    rw [heq] at hsorted
    have hlt : entry.1 < name :=
      (List.pairwise_append.mp hsorted).2.2 entry hentry (name, value) List.mem_cons_self
    rintro rfl
    exact String.lt_irrefl _ hlt
  · rintro ⟨before, later, heq, -⟩
    rw [heq]
    exact List.mem_append_right _ List.mem_cons_self

theorem contains_iff : b.contains name = true ↔ name ∈ b.toList.map Prod.fst := by
  rw [contains, Option.isSome_iff_exists, List.mem_map]
  constructor
  · rintro ⟨value, hvalue⟩
    exact ⟨(name, value), mem_toList_iff.mpr hvalue, rfl⟩
  · rintro ⟨⟨_, value⟩, hentry, rfl⟩
    exact ⟨value, mem_toList_iff.mp hentry⟩

/-- The numbers of the characters of a name. -/
def codePoints (name : String) : List Nat :=
  name.toList.map Char.toNat

theorem codePoints_lt {name other : String} (h : name < other) :
    codePoints name < codePoints other :=
  List.map_lt (fun _ _ hlt => hlt) h

/-! ## What a table records -/

/-- The table is what a history has left of an empty one. -/
structure Records (b : Bindings) (history : List Edit) : Prop where
  mem_toList : ∀ name value, (name, value) ∈ b.toList ↔ LatestSet history name value
  /-- Names are listed in the order of their code points. -/
  ascending : b.toList.Pairwise fun x y => codePoints x.1 < codePoints y.1
  nodup : (b.toList.map Prod.fst).Nodup
  get? : ∀ name value, b.get? name = some value ↔ (name, value) ∈ b.toList
  contains : ∀ name, b.contains name = true ↔ name ∈ b.toList.map Prod.fst
  size : b.size = b.toList.length
  isEmpty : b.isEmpty = true ↔ b.toList = []
  /-- To set a name and to remove it give its former value, if it had one. -/
  set_fst : ∀ name value former,
    (b.edit (.set name value)).1 = some former ↔ LatestSet history name former
  remove_fst : ∀ name former,
    (b.edit (.remove name)).1 = some former ↔ LatestSet history name former
  /-- No operation changes anything for the names that it does not concern. -/
  frame : ∀ (e : Edit) (name : String), ¬e.Concerns name → ∀ value,
    (name, value) ∈ (b.edit e).2.toList ↔ (name, value) ∈ b.toList

theorem records_after (history : List Edit) : (empty.after history).Records history where
  mem_toList := fun _ _ => mem_toList_iff.trans get?_after_eq_some_iff
  ascending := (empty.after history).sorted.imp codePoints_lt
  nodup := by
    rw [List.Nodup, List.pairwise_map]
    refine (empty.after history).sorted.imp fun {x y} hlt heq => ?_
    rw [heq] at hlt
    exact String.lt_irrefl _ hlt
  get? := fun _ _ => mem_toList_iff.symm
  contains := fun _ => contains_iff
  size := rfl
  isEmpty := List.isEmpty_iff
  set_fst := fun _ _ _ => get?_after_eq_some_iff
  remove_fst := fun _ _ => get?_after_eq_some_iff
  frame := by
    intro e name hconcerns value
    rw [mem_toList_iff, mem_toList_iff, get?_edit_eq_some_iff, and_iff_right hconcerns]
    constructor
    · rintro (rfl | h)
      · exact absurd rfl hconcerns
      · exact h
    · exact .inr

/-! ## Samples -/

/-- The operation that gives a name its former value back, or unbinds it. -/
def Edit.restore (name : String) : Option Float → Edit
  | some value => .set name value
  | none => .remove name

/-- What one sample does to a table. -/
def sampleEdits (b : Bindings) (name : String) (x : Float) : List Edit :=
  [.set name x, .restore name (b.edit (.set name x)).1]

/-- What samples do to a table, one after the other. -/
def sweepEdits (b : Bindings) (name : String) : List Float → List Edit
  | [] => []
  | x :: rest =>
    let first := b.sampleEdits name x
    first ++ (b.after first).sweepEdits name rest

theorem edit_restore (b : Bindings) (name : String) (former : Option Float) :
    (b.edit (.restore name former)).2 = b.put name former := by
  cases former with
  | none => rfl
  | some value => rfl

end Bindings

namespace Memory

variable {m : Memory}

theorem bindings_sample (m : Memory) (line name : String) (x : Float) :
    (m.sample line name x).2.bindings = m.bindings.after (m.bindings.sampleEdits name x) :=
  (Bindings.edit_restore (m.bindings.insert name x) name (m.bindings.get? name)).symm

theorem bindings_samples (m : Memory) (line name : String) (xs : List Float) :
    (m.samples line name xs).2.bindings = m.bindings.after (m.bindings.sweepEdits name xs) := by
  induction xs generalizing m with
  | nil => rfl
  | cons x rest ih =>
      rw [samples, Bindings.sweepEdits, Bindings.after_append, ← bindings_sample m line name x]
      exact ih (m.sample line name x).2

end Memory

/-! ## Everything that is done with a memory -/

/-- What can be done with a memory and with the table of variables in it. -/
inductive Use where
  | action (a : Action)
  | edit (e : Bindings.Edit)

namespace Memory

/-- The memory after an action on it, or after an operation on its table. -/
def use (m : Memory) : Use → Memory
  | .action a => m.perform a
  | .edit e => { m with bindings := (m.bindings.edit e).2 }

/-- The memory after it is used in some ways, one after the other. -/
def useAll (m : Memory) (uses : List Use) : Memory :=
  uses.foldl use m

/-- What is done to the table of variables. -/
def edits (m : Memory) : Use → List Bindings.Edit
  | .action (.evaluate line) =>
    match m.parse line, (m.evaluate line).1 with
    | .ok (.assignment name _), .ok value => [.set name value]
    | _, _ => []
  | .action (.valueOf _) => []
  | .action (.parse _) => []
  | .action (.tabulate _ name grid) =>
    match Name.check name, grid.check with
    | .ok (), .ok () => m.bindings.sweepEdits name grid.values
    | _, _ => []
  | .action .clearBindings => [.clear]
  | .action .reset => [.clear]
  | .action (.remove name) => [.remove name]
  | .action .clearTable => [.clear]
  | .edit e => [e]

/-- What is done to the table of variables by all uses, one after the other. -/
def history (m : Memory) : List Use → List Bindings.Edit
  | [] => []
  | first :: rest => m.edits first ++ (m.use first).history rest

theorem bindings_evaluate (m : Memory) (line : String) :
    (m.evaluate line).2.bindings = m.bindings.after (m.edits (.action (.evaluate line))) := by
  rcases hresult : m.evaluate line with ⟨fault | v, after⟩
  · obtain rfl := eq_of_evaluate_error hresult
    simp [edits, hresult]
  · obtain ⟨s, hparse, -, -, rfl⟩ := evaluate_eq_ok_iff.mp hresult
    cases s with
    | expression e => simp [edits, hparse, Statement.commit]
    | assignment name e =>
        simp only [edits, hparse, hresult]
        rfl

theorem bindings_tabulate (m : Memory) (line name : String) (grid : Grid) :
    (m.tabulate line name grid).2.bindings =
      m.bindings.after (m.edits (.action (.tabulate line name grid))) := by
  simp only [tabulate, edits]
  cases Name.check name with
  | error fault => rfl
  | ok _ =>
      cases grid.check with
      | error fault => rfl
      | ok _ => exact bindings_samples m line name grid.values

theorem bindings_use (m : Memory) (u : Use) :
    (m.use u).bindings = m.bindings.after (m.edits u) := by
  rcases u with a | e
  · cases a with
    | evaluate line => exact bindings_evaluate m line
    | valueOf line => rfl
    | parse line => rfl
    | tabulate line name grid => exact bindings_tabulate m line name grid
    | clearBindings => rfl
    | reset => rfl
    | remove name => rfl
    | clearTable => rfl
  · rfl

theorem bindings_useAll (m : Memory) (uses : List Use) :
    (m.useAll uses).bindings = m.bindings.after (m.history uses) := by
  induction uses generalizing m with
  | nil => rfl
  | cons u rest ih =>
      rw [history, Bindings.after_append, ← bindings_use]
      exact ih (m.use u)

/-- The table of variables records its history: that of a table on its own, that of the table of a
memory which is used in any way, and in the midst of a sweep, where a sample is taken, what was done
to the table up to there. -/
theorem bindings_record_history :
    (∀ history, (Bindings.empty.after history).Records history) ∧
    ∀ uses, (fresh.useAll uses).bindings.Records (fresh.history uses) ∧
      ∀ line name xs x, (((fresh.useAll uses).samples line name xs).2.bound name x).bindings.Records
        (fresh.history uses ++ (fresh.useAll uses).bindings.sweepEdits name xs ++
          [.set name x]) := by
  refine ⟨Bindings.records_after, fun uses => ?_⟩
  have huses : (fresh.useAll uses).bindings = Bindings.empty.after (fresh.history uses) :=
    bindings_useAll fresh uses
  constructor
  · rw [huses]
    exact Bindings.records_after _
  · intro line name xs x
    have hbound : (((fresh.useAll uses).samples line name xs).2.bound name x).bindings =
        ((fresh.useAll uses).samples line name xs).2.bindings.after [.set name x] :=
      rfl
    rw [hbound, bindings_samples, huses, ← Bindings.after_append, ← Bindings.after_append,
      List.append_assoc]
    exact Bindings.records_after _

end Memory

end Calculator
