import Calculator.Proofs.Grammar.Height
import Calculator.Proofs.Grammar.Nesting
import Calculator.Proofs.Memory.Spans

/-!
# Lines that are nested too deeply

A line may be right but for its depth.  Then it is blamed for the leftmost parenthesis or `^` that
has as many levels around it as there may be (`Memory.parse_tooDeep`).  Of what stands to the left
of that, only what is still open counts.
-/

namespace Calculator

variable {m : Memory} {line : String} {l : Lexeme}

/-- Lexemes that are too deep are found from the left to the right. -/
theorem position_le_of_firstTooDeep?
    {entries : List (Lexeme × Nat)}
    (hordered : (entries.map Prod.fst).Pairwise fun a b => a.position ≤ b.position)
    (h : firstTooDeep? entries = some l) {entry : Lexeme × Nat} (hentry : entry ∈ entries)
    (hdeep : maxDepth ≤ entry.2) : l.position ≤ entry.1.position := by
  induction entries with
  | nil => cases hentry
  | cons first entries ih =>
      obtain ⟨hfirst, hrest⟩ := List.pairwise_cons.mp hordered
      rcases firstTooDeep?_cons_eq_some_iff.mp h with ⟨-, rfl⟩ | ⟨hshallow, hfound⟩
      · rcases List.mem_cons.mp hentry with rfl | hmem
        · exact Nat.le_refl _
        · exact hfirst _ (List.mem_map_of_mem hmem)
      · rcases List.mem_cons.mp hentry with rfl | hmem
        · exact absurd hdeep (Nat.not_le_of_lt hshallow)
        · exact ih hrest hfound hmem

theorem LongestMatch.pairwise_position
    {text : List Char} {start stop : Nat} {ls : List Lexeme}
    (h : LongestMatch text start stop ls) :
    ls.Pairwise fun a b => a.position ≤ b.position :=
  h.ordered.imp fun {a _} hab => Nat.le_trans (Nat.le_add_right a.position a.length) hab

namespace Memory

/-- A line may be made by the grammar, with known names, calls that fit and a target that may name
a variable, but be nested too deeply.  Then the leftmost parenthesis or `^` with 128 levels around
it is reported. -/
theorem parse_tooDeep
    {m : Memory} {line : String} {d : LineDerivation} (hscan : scan line = .ok d.yield)
    (hresolves : d.Resolves m) (hdeep : ∃ entry ∈ d.value.nesting 0, maxDepth ≤ entry.2) :
    ∃ l, (l, maxDepth) ∈ d.value.nesting 0 ∧ l.opensLevel = true ∧
      (∀ entry ∈ d.value.nesting 0, maxDepth ≤ entry.2 → l.position ≤ entry.1.position) ∧
      m.parse line =
        .error (.invalid "nesting deeper than 128 levels" (some ⟨l.position, l.length⟩)) := by
  obtain ⟨-, hmatch⟩ := scan_eq_ok_iff.mp hscan
  obtain ⟨deep, hdeep, hlevels⟩ := hdeep
  have hsome : firstTooDeep? (d.value.nesting 0) ≠ none := fun hnone =>
    Nat.not_lt_of_le hlevels (firstTooDeep?_eq_none_iff.mp hnone deep hdeep)
  obtain ⟨l, hfirst⟩ := Option.ne_none_iff_exists'.mp hsome
  have hmem : (l, maxDepth) ∈ d.value.nesting 0 :=
    Derivation.mem_nesting_of_firstTooDeep? (Nat.zero_le _) hfirst
  -- The lexemes that open a level stand in the line in the order in which they are listed.
  obtain ⟨-, head, -, hyield⟩ := LineDerivation.exists_opens hresolves
  have hopens : (d.value.nesting 0).map Prod.fst = d.value.yield.filter Lexeme.opensLevel :=
    d.value.map_fst_nesting 0
  have hkept : l ∈ d.value.yield.filter Lexeme.opensLevel := hopens ▸ List.mem_map_of_mem hmem
  obtain ⟨hyielded, hlevel⟩ := List.mem_filter.mp hkept
  have hsub : ((d.value.nesting 0).map Prod.fst).Sublist d.yield := by
    rw [hopens, hyield]
    exact List.filter_sublist.trans (List.sublist_append_right head _)
  have hordered := hmatch.pairwise_position.sublist hsub
  have hspan := hmatch.span_eq (hyield ▸ List.mem_append_right head hyielded)
  refine ⟨l, hmem, hlevel, fun entry hentry hdeep =>
    position_le_of_firstTooDeep? hordered hfirst hentry hdeep, ?_⟩
  rw [parse_of_scan hscan, LineDerivation.read_tooDeep hscan hresolves hfirst, ← hspan]
  rfl

end Memory

/-! ## One in many groups -/

namespace Derivation

/-- The operand as an expression. -/
def ofPrimary (operand : Derivation .primary) : Derivation .expr :=
  .expr (.term (.power (.positive operand) .powerEnd) .termEnd) .exprEnd

/-- The number one within `n + 1` groups. -/
def grouped (position : Nat) : Nat → Derivation .primary
  | 0 =>
    .group ⟨⟨_, "(", position⟩, rfl⟩ (.expr (one (position + 1)) .exprEnd)
      ⟨⟨_, ")", position + 2⟩, rfl⟩
  | n + 1 =>
    .group ⟨⟨_, "(", position⟩, rfl⟩ (ofPrimary (grouped (position + 1) n))
      ⟨⟨_, ")", position + 2 * n + 4⟩, rfl⟩

/-- The text of `grouped`, with more text behind it. -/
def groupedText : Nat → List Char → List Char
  | 0, rest => '(' :: '1' :: ')' :: rest
  | n + 1, rest => '(' :: groupedText n (')' :: rest)

theorem groupedText_eq (n : Nat) (rest : List Char) :
    groupedText n rest =
      List.replicate (n + 1) '(' ++ '1' :: (List.replicate (n + 1) ')' ++ rest) := by
  induction n generalizing rest with
  | zero => rfl
  | succ n ih =>
      have hclosings : List.replicate (n + 1 + 1) ')' = List.replicate (n + 1) ')' ++ [')'] :=
        List.replicate_succ'
      rw [groupedText, ih, hclosings, List.append_assoc]
      rfl

theorem resolves_grouped (m : Memory) (position n : Nat) : (grouped position n).Resolves m := by
  induction n generalizing position with
  | zero => simp [grouped, one]
  | succ n ih => simp [grouped, ofPrimary, ih]

theorem scanFrom_grouped (position n : Nat) (rest : List Char) :
    scanFrom position (groupedText n rest) =
      (scanFrom (position + 2 * n + 3) rest).map ((grouped position n).yield ++ ·) := by
  have hclosing : ∀ rest, Token.read? (')' :: rest) = some (.closeParen, [')'], rest) :=
    fun _ => rfl
  have hopening : ∀ rest, Token.read? ('(' :: rest) = some (.openParen, ['('], rest) :=
    fun _ => rfl
  induction n generalizing position rest with
  | zero =>
      rw [groupedText, scanFrom_token rfl (hopening _), List.length_singleton,
        scanFrom_one (by simp), scanFrom_token rfl (hclosing _), List.length_singleton]
      cases scanFrom (position + 1 + 1 + 1) rest with
      | error fault => rfl
      | ok ls => simp [Except.map, grouped]
  | succ n ih =>
      have hplace : position + 1 + 2 * n + 3 = position + 2 * n + 4 := by omega
      rw [groupedText, scanFrom_token rfl (hopening _), List.length_singleton, ih (position + 1),
        hplace, scanFrom_token rfl (hclosing _), List.length_singleton]
      cases scanFrom (position + 2 * n + 4 + 1) rest with
      | error fault => rfl
      | ok ls => simp [Except.map, grouped, ofPrimary]

end Derivation

namespace Memory

/-- The group to the left of `^` is closed and does not count, the exponent does. -/
theorem parse_tooDeep_of_groups :
    let line := "(1)^" ++ String.ofList (List.replicate 128 '(' ++ '1' :: List.replicate 128 ')')
    let d := Derivation.expr (.term (.power (.positive (.grouped 0 0))
      (.powerMore ⟨⟨_, "^", 3⟩, rfl⟩ (.power (.positive (.grouped 4 127)) .powerEnd))) .termEnd)
      .exprEnd
    scan line = .ok d.yield ∧ (⟨.openParen, "(", 131⟩, maxDepth) ∈ d.nesting 0 ∧
      fresh.parse line =
        .error (.invalid "nesting deeper than 128 levels" (some ⟨131, 1⟩)) := by
  intro line d
  have hscan : scan line = .ok d.yield := by
    have hfront : "(1)^".toList = ['(', '1', ')', '^'] := rfl
    have htext : line.toList =
        Derivation.groupedText 0 ('^' :: Derivation.groupedText 127 []) := by
      rw [String.toList_append, hfront, String.toList_ofList, Derivation.groupedText_eq 127,
        List.append_nil]
      generalize List.replicate 128 '(' ++ '1' :: List.replicate 128 ')' = power
      rfl
    have hcaret : Token.read? ('^' :: Derivation.groupedText 127 []) =
        some (.operator .pow, ['^'], Derivation.groupedText 127 []) := rfl
    have hvisible : (Derivation.groupedText 0 ('^' :: Derivation.groupedText 127 [])).all
        isSkipped = false := rfl
    rw [scan, htext, hvisible, if_neg Bool.false_ne_true, Derivation.scanFrom_grouped 0 0,
      scanFrom_token rfl hcaret, List.length_singleton,
      Derivation.scanFrom_grouped _ 127, scanFrom]
    simp [Except.map, d]
  have hresolves : d.Resolves fresh := by
    simp [d, Derivation.resolves_grouped]
  have hmem : (⟨.openParen, "(", 131⟩, maxDepth) ∈ d.nesting 0 := by decide +kernel
  have honly : ∀ entry ∈ d.nesting 0, entry.2 = maxDepth → entry.1 = ⟨.openParen, "(", 131⟩ := by
    decide +kernel
  have hline : scan line = .ok (LineDerivation.expression d).yield := hscan
  obtain ⟨l, hl, -, -, hparse⟩ := parse_tooDeep hline hresolves ⟨_, hmem, Nat.le_refl _⟩
  have hplace := honly _ hl rfl
  dsimp only at hplace
  rw [hplace] at hparse
  exact ⟨hscan, hmem, hparse⟩

end Memory

end Calculator
