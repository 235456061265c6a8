import Calculator.Proofs.Expr.Nodes
import Calculator.Proofs.Grammar.Parse
import Calculator.Proofs.Memory.Evaluation

/-!
# Names in parsed trees

All names in a parsed tree are written in the line and known to the memory, and all calls in it fit
their functions.  This is what the side conditions of a derivation come to for the nodes of its tree
(`Derivation.treeEvery_grounded`).
-/

namespace Calculator

/-- What the name of a node needs: to be written in one of the lexemes and known to the memory, or,
in a call, to be that of a function that takes as many arguments. -/
def Expr.Grounded (m : Memory) (ls : List Lexeme) : Expr → Prop
  | .reference _ name =>
    m.bindings.contains name = true ∧ ∃ l ∈ ls, l.token = .identifier name
  | .answer _ => m.answer.isSome = true ∧ ∃ l ∈ ls, l.token = .identifier Name.answer
  | .call _ name arguments =>
    ∃ function, Primitive.find? name = some function ∧ arguments.length = function.arity
  | _ => True

theorem Expr.every_grounded_binary
    {m : Memory} {ls : List Lexeme} {left right : Expr} (position : Nat) (op : Operator)
    (hleft : left.Every (Grounded m ls)) (hright : right.Every (Grounded m ls)) :
    (binary position op left right).Every (Grounded m ls) :=
  every_iff.mpr ⟨trivial, by simpa using ⟨hleft, hright⟩⟩

/-- A known name that is written in one of the lexemes is grounded in them. -/
theorem Expr.every_grounded_ofName
    {m : Memory} {ls : List Lexeme} {name : String} {word : Lexeme} (hword : word ∈ ls)
    (htoken : word.token = .identifier name) (hknown : m.Knows name) (position : Nat) :
    (ofName position name).Every (Grounded m ls) := by
  unfold Memory.Knows at hknown
  unfold ofName
  split
  · rename_i hanswer
    rw [if_pos hanswer] at hknown
    subst hanswer
    exact every_iff.mpr ⟨⟨hknown, word, hword, htoken⟩, by simp⟩
  · rename_i hanswer
    rw [if_neg hanswer, Name.isConstant] at hknown
    split
    · exact every_iff.mpr ⟨trivial, by simp⟩
    · rename_i hconstant
      rw [hconstant] at hknown
      have hbound : m.bindings.contains name = true := by simpa using hknown
      exact every_iff.mpr ⟨⟨hbound, word, hword, htoken⟩, by simp⟩

namespace Derivation

/-- All nodes of the tree have a property.  The rest of a chain passes it on from the operand before
it. -/
def TreeEvery (P : Expr → Prop) : (c : Category) → Derivation c → Prop
  | .expr, d | .term, d | .power, d | .unary, d | .primary, d => Expr.Every P d.tree
  | .exprRest, d | .termRest, d | .powerRest, d =>
    ∀ left : Expr, left.Every P → Expr.Every P (d.tree left)
  | .arguments, d | .argumentsRest, d => ∀ e ∈ d.tree, Expr.Every P e

/-- By induction on the derivation, for lexemes among which its own are. -/
theorem treeEvery_grounded
    {m : Memory} {ls : List Lexeme}
    (hspelt : ∀ l ∈ ls, ∀ name, l.token = .identifier name → l.text = name)
    {c : Category} (d : Derivation c) (hyield : d.yield ⊆ ls) (hresolves : d.Resolves m) :
    d.TreeEvery (Expr.Grounded m ls) := by
  induction d with
  | expr first rest ihFirst ihRest | term first rest ihFirst ihRest
  | power first rest ihFirst ihRest =>
      obtain ⟨hfirst, hrest⟩ := List.append_subset.mp hyield
      exact ihRest hrest hresolves.2 _ (ihFirst hfirst hresolves.1)
  | exprEnd | termEnd | powerEnd => exact fun left hleft => hleft
  | exprMore op hop sign next rest ihNext ihRest | termMore op hop sign next rest ihNext ihRest =>
      obtain ⟨hnext, hrest⟩ := List.append_subset.mp (List.cons_subset.mp hyield).2
      intro left hleft
      have hright := ihNext hnext hresolves.1
      exact ihRest hrest hresolves.2 _
        (Expr.every_grounded_binary sign.1.position op hleft hright)
  | powerMore caret exponent ihExponent =>
      intro base hbase
      have hright := ihExponent (List.cons_subset.mp hyield).2 hresolves
      exact Expr.every_grounded_binary caret.1.position .pow hbase hright
  | positive operand ihOperand => exact ihOperand hyield hresolves
  | negative minus operand ihOperand =>
      have hoperand := ihOperand (List.cons_subset.mp hyield).2 hresolves
      exact Expr.every_iff.mpr ⟨trivial, List.forall_mem_singleton.mpr hoperand⟩
  | number value literal => exact Expr.every_iff.mpr ⟨trivial, by simp⟩
  | name spelling word =>
      have hword : word.1 ∈ ls := hyield (by simp)
      exact Expr.every_grounded_ofName hword word.2 hresolves word.1.position
  | call spelling word opening args closing ihArgs =>
      obtain ⟨hfits, hargs⟩ := hresolves
      have hword : word.1 ∈ ls := hyield (by simp)
      have hinside : args.yield ⊆ ls := fun l hl => hyield (by simp [hl])
      rw [← hspelt word.1 hword spelling word.2] at hfits
      exact Expr.every_iff.mpr ⟨hfits, ihArgs hinside hargs⟩
  | group opening inner closing ihInner =>
      exact ihInner (fun l hl => hyield (by simp [hl])) hresolves
  | arguments first rest ihFirst ihRest =>
      obtain ⟨hfirst, hrest⟩ := List.append_subset.mp hyield
      exact List.forall_mem_cons.mpr ⟨ihFirst hfirst hresolves.1, ihRest hrest hresolves.2⟩
  | argumentsEnd => exact fun e he => absurd he (by simp)
  | argumentsMore comma next rest ihNext ihRest =>
      obtain ⟨hnext, hrest⟩ := List.append_subset.mp (List.cons_subset.mp hyield).2
      exact List.forall_mem_cons.mpr ⟨ihNext hnext hresolves.1, ihRest hrest hresolves.2⟩

end Derivation

/-- The text of an identifier is its name. -/
theorem LongestMatch.text_of_identifier
    {text : List Char} {start stop : Nat} {lexemes : List Lexeme}
    (h : LongestMatch text start stop lexemes) {l : Lexeme} (hl : l ∈ lexemes) {name : String}
    (htoken : l.token = .identifier name) : l.text = name := by
  have hspells := (h.longest l hl).spells
  rw [htoken] at hspells
  exact String.toList_inj.mp (Token.spells_identifier hspells).1

theorem Memory.every_grounded_of_parse
    {m : Memory} {line : String} {s : Statement} (h : m.parse line = .ok s) :
    ∃ lexemes, scan line = .ok lexemes ∧ s.value.Every (Expr.Grounded m lexemes) := by
  obtain ⟨lexemes, hscan, hread⟩ := parse_eq_ok_iff.mp h
  obtain ⟨d, rfl, hadm, rfl⟩ := (Statement.read_eq_ok_iff hscan).mp hread
  have hspelt : ∀ l ∈ d.yield, ∀ name, l.token = .identifier name → l.text = name :=
    fun l hl name htoken => (scan_eq_ok_iff.mp hscan).2.text_of_identifier hl htoken
  refine ⟨d.yield, hscan, ?_⟩
  cases d with
  | expression value =>
      exact value.treeEvery_grounded hspelt (List.Subset.refl _) hadm.resolves
  | assignment letWord name target equals value =>
      refine value.treeEvery_grounded hspelt ?_ hadm.2.resolves
      exact fun l hl => by simp [LineDerivation.yield, hl]

end Calculator
