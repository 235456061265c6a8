import Calculator.Proofs.Grammar.Names

/-!
# Trees keep all tokens

The nodes of a parsed tree, listed in the order in which they are written, are the lexemes of the
expression without its parentheses and commas.  This is shown for derivations (`Derivation.lists`).
For the rest of a chain of operators it says that what that adds to a tree comes after all of the
tree, however the operands are nested.
-/

namespace Calculator

namespace Expr

mutual

/-- The nodes of a tree as they are written, each by its position and its token: an operator
between its operands, a minus sign before its operand, a function before its arguments. -/
@[simp]
def listing : Expr → List (Nat × Token)
  | .number position value => [(position, .number value)]
  | .constant position name _ => [(position, .identifier name)]
  | .reference position name => [(position, .identifier name)]
  | .answer position => [(position, .identifier Name.answer)]
  | .negate position operand => (position, .operator .sub) :: operand.listing
  | .binary position op left right =>
    left.listing ++ (position, .operator op) :: right.listing
  | .call position name arguments => (position, .identifier name) :: listingAll arguments

@[simp]
def listingAll : List Expr → List (Nat × Token)
  | [] => []
  | first :: rest => first.listing ++ listingAll rest

end

@[simp]
theorem listing_ofName (position : Nat) (name : String) :
    (ofName position name).listing = [(position, .identifier name)] := by
  unfold ofName
  split
  · rename_i hanswer
    rw [hanswer, listing]
  · split <;> rw [listing]

end Expr

/-- The lexeme stands for a node of its own. -/
def Lexeme.makesNode (l : Lexeme) : Bool :=
  l.token ∉ [.openParen, .closeParen, .comma]

/-- The positions and tokens of the lexemes that stand for nodes. -/
def marks (ls : List Lexeme) : List (Nat × Token) :=
  (ls.filter Lexeme.makesNode).map fun l => (l.position, l.token)

@[simp]
theorem marks_nil : marks [] = [] := rfl

@[simp]
theorem marks_append (ls ls' : List Lexeme) : marks (ls ++ ls') = marks ls ++ marks ls' := by
  simp [marks]

theorem marks_cons_of_makesNode
    {token : Token} (l : Terminal token) (ls : List Lexeme)
    (h : token ∉ [.openParen, .closeParen, .comma]) :
    marks (l.1 :: ls) = (l.1.position, token) :: marks ls := by
  have hkept : l.1.makesNode = true := by simpa [Lexeme.makesNode, l.2] using h
  rw [marks, List.filter_cons_of_pos hkept, List.map_cons, l.2]
  rfl

theorem marks_cons_of_mem
    {token : Token} (l : Terminal token) (ls : List Lexeme)
    (h : token ∈ [.openParen, .closeParen, .comma]) : marks (l.1 :: ls) = marks ls := by
  have hdropped : l.1.makesNode = false := by
    rw [Lexeme.makesNode, l.2, decide_eq_false_iff_not, not_not]
    exact h
  rw [marks, List.filter_cons_of_neg (by simp [hdropped])]
  rfl

namespace Derivation

/-- The nodes of the tree are the lexemes of the derivation.  The rest of a chain adds its own
after those of the operand before it. -/
def Lists : (c : Category) → Derivation c → Prop
  | .expr, d | .term, d | .power, d | .unary, d | .primary, d =>
    Expr.listing d.tree = marks d.yield
  | .exprRest, d | .termRest, d | .powerRest, d =>
    ∀ left : Expr, Expr.listing (d.tree left) = left.listing ++ marks d.yield
  | .arguments, d | .argumentsRest, d => Expr.listingAll d.tree = marks d.yield

theorem lists
    {ls : List Lexeme} (hspelt : ∀ l ∈ ls, ∀ name, l.token = .identifier name → l.text = name)
    {c : Category} (d : Derivation c) (hyield : d.yield ⊆ ls) : d.Lists := by
  induction d with
  | expr first rest ihFirst ihRest | term first rest ihFirst ihRest
  | power first rest ihFirst ihRest =>
      obtain ⟨hfirst, hrest⟩ := List.append_subset.mp hyield
      have htree := ihRest hrest first.tree
      rw [ihFirst hfirst, ← marks_append] at htree
      exact htree
  | exprEnd | termEnd | powerEnd => exact fun left => (List.append_nil _).symm
  | exprMore op hop sign next rest ihNext ihRest | termMore op hop sign next rest ihNext ihRest =>
      obtain ⟨hnext, hrest⟩ := List.append_subset.mp (List.cons_subset.mp hyield).2
      intro left
      have htree := ihRest hrest (.binary sign.1.position op left next.tree)
      rw [Expr.listing, ihNext hnext, List.append_assoc, List.cons_append, ← marks_append,
        ← marks_cons_of_makesNode sign _ (by simp)] at htree
      exact htree
  | powerMore caret exponent ihExponent =>
      intro base
      rw [tree, Expr.listing, ihExponent (List.cons_subset.mp hyield).2,
        ← marks_cons_of_makesNode caret _ (by simp)]
      rfl
  | positive operand ihOperand => exact ihOperand hyield
  | negative minus operand ihOperand =>
      show Expr.listing (.negate minus.1.position operand.tree) = marks (minus.1 :: operand.yield)
      rw [Expr.listing, ihOperand (List.cons_subset.mp hyield).2,
        ← marks_cons_of_makesNode minus _ (by simp)]
  | number value literal => exact (marks_cons_of_makesNode literal [] (by simp)).symm
  | name spelling word =>
      exact (Expr.listing_ofName _ _).trans (marks_cons_of_makesNode word [] (by simp)).symm
  | call spelling word opening args closing ihArgs =>
      have hword : word.1 ∈ ls := hyield (by simp)
      have hinside : args.yield ⊆ ls := fun l hl => hyield (by simp [hl])
      show (word.1.position, Token.identifier word.1.text) :: Expr.listingAll args.tree =
        marks (word.1 :: opening.1 :: (args.yield ++ [closing.1]))
      rw [hspelt word.1 hword spelling word.2, ihArgs hinside,
        marks_cons_of_makesNode word _ (by simp), marks_cons_of_mem opening _ (by simp),
        marks_append, marks_cons_of_mem closing _ (by simp), marks_nil, List.append_nil]
  | group opening inner closing ihInner =>
      have hinside : inner.yield ⊆ ls := fun l hl => hyield (by simp [hl])
      show Expr.listing inner.tree = marks (opening.1 :: (inner.yield ++ [closing.1]))
      rw [ihInner hinside, marks_cons_of_mem opening _ (by simp), marks_append,
        marks_cons_of_mem closing _ (by simp), marks_nil, List.append_nil]
  | arguments first rest ihFirst ihRest =>
      obtain ⟨hfirst, hrest⟩ := List.append_subset.mp hyield
      show Expr.listing first.tree ++ Expr.listingAll rest.tree = marks (first.yield ++ rest.yield)
      rw [ihFirst hfirst, ihRest hrest, marks_append]
  | argumentsEnd => rfl
  | argumentsMore comma next rest ihNext ihRest =>
      obtain ⟨hnext, hrest⟩ := List.append_subset.mp (List.cons_subset.mp hyield).2
      show Expr.listing next.tree ++ Expr.listingAll rest.tree =
        marks (comma.1 :: (next.yield ++ rest.yield))
      rw [ihNext hnext, ihRest hrest, marks_cons_of_mem comma _ (by simp), marks_append]

end Derivation

/-! ## Parsed lines -/

/-- The tokens before the expression of a statement. -/
def Statement.heading : Statement → List Token
  | .expression _ => []
  | .assignment name _ => [.letWord, .identifier name, .equals]

/-- A lexeme stands in the line as many bytes after its beginning as its position says. -/
theorem LongestMatch.exists_eq_append
    {line : String} {stop : Nat} {lexemes : List Lexeme}
    (h : LongestMatch line.toList 0 stop lexemes) {l : Lexeme} (hl : l ∈ lexemes) :
    ∃ before after : String,
      line = before ++ l.text ++ after ∧ before.utf8ByteSize = l.position := by
  obtain ⟨after, hafter⟩ := (h.longest l hl).front
  have hposition : l.position ≤ stop := Nat.le_trans (Nat.le_add_right _ _) (h.inside l hl).2
  refine ⟨String.ofList (line.toList.take l.position), String.ofList after, ?_,
    h.utf8ByteSize_take hposition⟩
  apply String.toList_inj.mp
  rw [String.toList_append, String.toList_append, String.toList_ofList, String.toList_ofList,
    List.append_assoc, hafter, List.take_append_drop]

theorem LongestMatch.pairwise_marks
    {text : List Char} {start stop : Nat} {ls lexemes : List Lexeme}
    (h : LongestMatch text start stop lexemes) (hsub : ls.Sublist lexemes) :
    (marks ls).Pairwise fun a b => a.1 < b.1 := by
  have hpositions : lexemes.Pairwise fun a b => a.position < b.position := by
    refine h.ordered.imp_of_mem ?_
    intro a b ha _ hab
    exact Nat.lt_of_lt_of_le (h.position_lt_stop ha) hab
  exact List.pairwise_map.mpr (hpositions.sublist (List.filter_sublist.trans hsub))

/-- Parsing keeps all tokens.  The nodes of the tree of a parsed line, in the order in which they
are written, are the lexemes of its expression without parentheses and commas: they have the same
tokens at the same positions.  The positions increase, and they are offsets in bytes. -/
theorem Memory.listing_of_parse
    {m : Memory} {line : String} {s : Statement} (h : m.parse line = .ok s) :
    ∃ front part : List Lexeme,
      Lexeme.ofLine line = .ok (front ++ part ++ [⟨.endOfInput, "", line.length⟩]) ∧
      front.map Lexeme.token = s.heading ∧
      s.value.listing = (part.filter Lexeme.makesNode).map (fun l => (l.position, l.token)) ∧
      s.value.listing.Pairwise (fun a b => a.1 < b.1) ∧
      ∀ l ∈ part, ∃ before after : String,
        line = before ++ l.text ++ after ∧ before.utf8ByteSize = l.position := by
  obtain ⟨lexemes, hscan, hread⟩ := parse_eq_ok_iff.mp h
  obtain ⟨d, rfl, -, rfl⟩ := (Statement.read_eq_ok_iff hscan).mp hread
  have hmatch := (scan_eq_ok_iff.mp hscan).2
  have hofLine := Lexeme.ofLine_eq_ok_iff.mpr ⟨_, hscan, rfl⟩
  have hspelt : ∀ l ∈ d.yield, ∀ name, l.token = .identifier name → l.text = name :=
    fun l hl name htoken => hmatch.text_of_identifier hl htoken
  cases d with
  | expression value =>
      have hlists : value.tree.listing = marks value.yield :=
        value.lists hspelt (List.Subset.refl _)
      refine ⟨[], value.yield, hofLine, rfl, hlists, ?_, fun l hl => hmatch.exists_eq_append hl⟩
      exact hlists ▸ hmatch.pairwise_marks (List.Sublist.refl _)
  | assignment letWord name target equals value =>
      have hsub : value.yield.Sublist
          (LineDerivation.assignment letWord name target equals value).yield :=
        (List.suffix_append [letWord.1, target.1, equals.1] value.yield).sublist
      have hlists : value.tree.listing = marks value.yield := value.lists hspelt hsub.subset
      refine ⟨[letWord.1, target.1, equals.1], value.yield, hofLine, ?_, hlists, ?_,
        fun l hl => hmatch.exists_eq_append (hsub.subset hl)⟩
      · rw [List.map_cons, List.map_cons, List.map_cons, letWord.2, target.2, equals.2]
        rfl
      · exact hlists ▸ hmatch.pairwise_marks hsub

/-- The group and the commas leave no node behind, the function stands before its arguments. -/
theorem Memory.power_listing_of_parse :
    let line := "let y = -(x + 2) * pow(x, 3)"
    let m : Memory := ⟨Bindings.empty.insert "x" 2, none⟩
    ∃ s front part, m.parse line = .ok s ∧
      Lexeme.ofLine line = .ok (front ++ part ++ [⟨.endOfInput, "", line.length⟩]) ∧
      front.map Lexeme.token = s.heading ∧
      s.value.listing = (part.filter Lexeme.makesNode).map (fun l => (l.position, l.token)) ∧
      s.value.listing =
        [(8, .operator .sub), (10, .identifier "x"), (12, .operator .add), (14, .number 2),
          (17, .operator .mul), (19, .identifier "pow"), (23, .identifier "x"),
          (26, .number 3)] := by
  intro line m
  have hlisting : (m.parse line).toOption.map (·.value.listing) = some
      [(8, .operator .sub), (10, .identifier "x"), (12, .operator .add), (14, .number 2),
        (17, .operator .mul), (19, .identifier "pow"), (23, .identifier "x"),
        (26, .number 3)] := by decide +kernel
  rcases hparse : m.parse line with fault | s
  · rw [hparse] at hlisting
    cases hlisting
  · rw [hparse] at hlisting
    obtain ⟨front, part, hofLine, hheading, hmarks, -⟩ := listing_of_parse hparse
    exact ⟨s, front, part, rfl, hofLine, hheading, hmarks, Option.some.inj hlisting⟩

end Calculator
