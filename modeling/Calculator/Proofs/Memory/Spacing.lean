import Mathlib.Data.List.Basic
import Calculator.Proofs.Grammar.Parse
import Calculator.Proofs.Memory.Evaluation
import Calculator.Proofs.Memory.Relocation
import Calculator.Proofs.Scanning.Seams

/-!
# Blanks between words do not matter

The words of a line can be set apart by any blanks without becoming other words (`cuts_spaced`).
Two lines of the same words are then parsed alike up to the positions of the nodes: what is read
after `=` is the same but moved, and the name before it cannot take in a blank, since a name that is
accepted is a single lexeme (`targetText_of_words`).
-/

namespace Calculator

/-! ## The same words with other blanks -/

/-- Some words, each followed by the text that comes with it. -/
def spaced (leading : String) : List (String × String) → String
  | [] => leading
  | (word, blanks) :: rest => leading ++ word ++ spaced blanks rest

theorem toList_spaced_cons (leading word blanks : String) (rest : List (String × String)) :
    (spaced leading ((word, blanks) :: rest)).toList =
      leading.toList ++ (word.toList ++ (spaced blanks rest).toList) := by
  rw [spaced, String.toList_append, String.toList_append, List.append_assoc]

/-- A text that comes with at least one blank, if words follow, begins with a blank if at all. -/
theorem parts_of_head_spaced
    {blanks : String} {rest : List (String × String)} (hblanks : blanks.toList.all isSkipped = true)
    (hapart : rest ≠ [] → blanks ≠ "") :
    ∀ c ∈ (spaced blanks rest).toList.head?, Parts c := by
  intro c hc
  have hall := List.all_eq_true.mp hblanks
  cases rest with
  | nil => exact parts_of_isSkipped (hall c (List.mem_of_mem_head? hc))
  | cons piece rest =>
      have hne : blanks.toList ≠ [] := fun hnil =>
        hapart (List.cons_ne_nil _ _) (String.toList_eq_nil_iff.mp hnil)
      rw [toList_spaced_cons, List.head?_append_of_ne_nil _ hne] at hc
      exact parts_of_isSkipped (hall c (List.mem_of_mem_head? hc))

/-- Words that are set apart by blanks are what the text is cut into. -/
theorem cuts_spaced
    {leading : String} {pieces : List (String × String)} {ls : List Lexeme}
    (hleading : leading.toList.all isSkipped = true)
    (hblanks : ∀ piece ∈ pieces, piece.2.toList.all isSkipped = true)
    (hapart : ∀ piece ∈ pieces.dropLast, piece.2 ≠ "")
    (htexts : pieces.map Prod.fst = ls.map Lexeme.text)
    (hspells : ∀ l ∈ ls, l.token.Spells l.text.toList) :
    Cuts (spaced leading pieces).toList (ls.map Lexeme.word) := by
  induction pieces generalizing leading ls with
  | nil =>
      obtain rfl : ls = [] := List.map_eq_nil_iff.mp htexts.symm
      exact .of_blank hleading
  | cons piece rest ih =>
      obtain ⟨word, blanks⟩ := piece
      obtain ⟨l, ls, rfl, rfl, hrest⟩ := List.map_eq_cons_iff.mp htexts.symm
      obtain ⟨hfirst, hblanks⟩ := List.forall_mem_cons.mp hblanks
      obtain ⟨hspelt, hspells⟩ := List.forall_mem_cons.mp hspells
      have hnext : rest ≠ [] → blanks ≠ "" := fun hne =>
        hapart (l.text, blanks) (by simp [List.dropLast_cons_of_ne_nil hne])
      have hlater : ∀ piece ∈ rest.dropLast, piece.2 ≠ "" := by
        intro piece hpiece
        have hne : rest ≠ [] := fun hnil => by simp [hnil] at hpiece
        exact hapart piece (by simp [List.dropLast_cons_of_ne_nil hne, hpiece])
      have hword : Cuts l.text.toList [l.word] := by
        simpa [Lexeme.word] using Cuts.of_spells hspelt
      have hleft : ∀ c ∈ leading.toList.getLast?, Parts c := fun c hc =>
        parts_of_isSkipped (List.all_eq_true.mp hleading c (List.mem_of_mem_getLast? hc))
      rw [toList_spaced_cons]
      exact (Cuts.of_blank hleading).append
        (hword.append (ih hfirst hblanks hlater hrest.symm hspells)
          (.of_parts_right (parts_of_head_spaced hfirst hnext)))
        (.of_parts_left hleft)

/-- The words of a line, set apart by blanks, are scanned as the same words. -/
theorem Lexeme.ofLine_spaced
    {line leading : String} {pieces : List (String × String)} {lexemes : List Lexeme}
    (hlexemes : Lexeme.ofLine line = .ok lexemes)
    (hleading : leading.toList.all isSkipped = true)
    (hblanks : ∀ piece ∈ pieces, piece.2.toList.all isSkipped = true)
    (hapart : ∀ piece ∈ pieces.dropLast, piece.2 ≠ "")
    (htexts : pieces.map Prod.fst = lexemes.dropLast.map Lexeme.text) :
    ∃ others, Lexeme.ofLine (spaced leading pieces) = .ok others ∧
      others.map Lexeme.word = lexemes.map Lexeme.word := by
  obtain ⟨cut, hscan, rfl⟩ := Lexeme.ofLine_eq_ok_iff.mp hlexemes
  obtain ⟨hne, hmatch⟩ := scan_eq_ok_iff.mp hscan
  rw [List.dropLast_concat] at htexts
  have hspells : ∀ l ∈ cut, l.token.Spells l.text.toList := fun l hl =>
    (hmatch.longest l hl).spells
  obtain ⟨others, hothers, hwords⟩ :=
    scan_of_cuts (cuts_spaced hleading hblanks hapart htexts hspells) (by simpa using hne)
  refine ⟨_, Lexeme.ofLine_eq_ok_iff.mpr ⟨others, hothers, rfl⟩, ?_⟩
  rw [List.map_append, List.map_append, hwords]
  rfl

/-! ## Kinds of errors -/

/-- Which kind of error it is, whatever it says about the line. -/
def LineError.kind (fault : LineError) : Nat :=
  fault.ctorIdx

/-- The result, with no more than the kind of an error. -/
def outcome {α : Type} (result : Except LineError α) : Except Nat α :=
  result.mapError LineError.kind

theorem SyntaxFault.kind_lineError_relocate
    (f : Nat → Nat) (line other : String) (fault : SyntaxFault) :
    ((fault.relocate f).lineError other).kind = (fault.lineError line).kind := by
  cases fault <;> rfl

theorem LineError.kind_relocate (f : Nat → Nat) (fault : LineError) :
    (fault.relocate f).kind = fault.kind := by
  cases fault <;> rfl

/-! ## Reading the same words -/

/-- The statement without the positions of its nodes. -/
def Statement.unplaced (s : Statement) : Statement :=
  s.relocate fun _ => 0

variable {m : Memory} {line other : String} {ls ls' : List Lexeme}

theorem unplaced_eq_of_words
    (h : ls.map Lexeme.word = ls'.map Lexeme.word) :
    ls.map (·.relocate fun _ => 0) = ls'.map (·.relocate fun _ => 0) := by
  have hplaced := congrArg (List.map fun word => (⟨word.1, word.2, 0⟩ : Lexeme)) h
  rw [List.map_map, List.map_map] at hplaced
  exact hplaced

/-- Where no difference is left once the positions are gone, the outcome is the same. -/
theorem outcome_map_eq_of_relocateResult
    {α : Type} {f : Nat → Nat} {move : α → α} {result result' : Except SyntaxFault α}
    (h : SyntaxFault.relocateResult f move result = SyntaxFault.relocateResult f move result') :
    outcome ((result.mapError (SyntaxFault.lineError line)).map move) =
      outcome ((result'.mapError (SyntaxFault.lineError other)).map move) := by
  rcases result with fault | a <;> rcases result' with fault' | a'
  · have hmoved := Except.error.inj h
    refine congrArg Except.error ?_
    rw [← SyntaxFault.kind_lineError_relocate f line line fault, hmoved,
      SyntaxFault.kind_lineError_relocate f other line fault']
  · cases h
  · cases h
  · exact congrArg Except.ok (Except.ok.inj h)

theorem Expr.outcome_read_of_words
    (h : ls.map Lexeme.word = ls'.map Lexeme.word) {build : Expr → Statement}
    (hbuild : ∀ e : Expr, (build e).unplaced = build (e.relocate fun _ => 0)) :
    outcome ((((Expr.read m ls).map build).mapError (SyntaxFault.lineError line)).map
        Statement.unplaced) =
      outcome ((((Expr.read m ls').map build).mapError (SyntaxFault.lineError other)).map
        Statement.unplaced) := by
  have hmap : ∀ result : Except SyntaxFault Expr,
      SyntaxFault.relocateResult (fun _ => 0) Statement.unplaced (result.map build) =
        (SyntaxFault.relocateResult (fun _ => 0) (relocate fun _ => 0) result).map build := by
    rintro (fault | e)
    · rfl
    · exact congrArg Except.ok (hbuild e)
  apply outcome_map_eq_of_relocateResult (f := fun _ => 0)
  rw [hmap, hmap, ← Expr.read_relocate, ← Expr.read_relocate, unplaced_eq_of_words h]

/-! ## The name before `=` -/

theorem dropWhile_words
    (h : ls.map Lexeme.word = ls'.map Lexeme.word) :
    (ls.dropWhile (!·.isEquals)).map Lexeme.word =
      (ls'.dropWhile (!·.isEquals)).map Lexeme.word := by
  have hdrop : ∀ lexemes : List Lexeme, (lexemes.dropWhile (!·.isEquals)).map Lexeme.word =
      (lexemes.map Lexeme.word).dropWhile fun word => !decide (word.1 = Token.equals) := by
    intro lexemes
    rw [List.dropWhile_map]
    rfl
  rw [hdrop, hdrop, h]

/-- A name that is accepted is a single lexeme, and the same one in the other line. -/
theorem targetText_of_words
    {start stop start' stop' : Nat} {equals equals' : Lexeme} {value value' : List Lexeme}
    {name : String} (hmatch : LongestMatch line.toList start stop ls)
    (hmatch' : LongestMatch other.toList start' stop' ls')
    (h : ls.map Lexeme.word = ls'.map Lexeme.word)
    (hvalue : ls.dropWhile (!·.isEquals) = equals :: value)
    (hvalue' : ls'.dropWhile (!·.isEquals) = equals' :: value')
    (hname : targetText line ls equals.position = name) (hfault : Name.fault? name = none) :
    targetText other ls' equals'.position = name := by
  obtain ⟨target, rfl⟩ := exists_target_of_fault? hmatch hvalue hname hfault
  obtain ⟨target', rest', rfl, htarget, hrest⟩ := List.map_eq_cons_iff.mp h.symm
  obtain ⟨next, others, rfl, hnext, -⟩ := List.map_eq_cons_iff.mp hrest
  have htoken : target'.token = .identifier name := (congrArg Prod.fst htarget).trans target.2
  have hequals : next.token = .equals :=
    (congrArg Prod.fst hnext).trans (token_of_dropWhile hvalue)
  have hskip : target'.isEquals = false := by simp [Lexeme.isEquals, htoken]
  have hstay : next.isEquals = true := by simp [Lexeme.isEquals, hequals]
  simp only [List.dropWhile_cons, hskip, hstay, Bool.not_false, Bool.not_true, if_true,
    Bool.false_eq_true, if_false, List.cons.injEq] at hvalue'
  obtain ⟨rfl, rfl⟩ := hvalue'
  obtain ⟨word, rfl⟩ : ∃ word : Terminal (.identifier name), word.1 = target' :=
    ⟨⟨target', htoken⟩, rfl⟩
  exact targetText_of_name hmatch'

theorem Statement.outcome_readAssignment_of_words
    {start stop start' stop' : Nat} {letWord letWord' : Lexeme}
    (hmatch : LongestMatch line.toList start stop ls)
    (hmatch' : LongestMatch other.toList start' stop' ls')
    (h : ls.map Lexeme.word = ls'.map Lexeme.word) :
    outcome (((readAssignment m line letWord ls).mapError (SyntaxFault.lineError line)).map
        unplaced) =
      outcome (((readAssignment m other letWord' ls').mapError (SyntaxFault.lineError other)).map
        unplaced) := by
  have hwords := dropWhile_words h
  rcases hvalue : ls.dropWhile (!·.isEquals) with _ | ⟨equals, value⟩ <;>
    rcases hvalue' : ls'.dropWhile (!·.isEquals) with _ | ⟨equals', value'⟩ <;>
    rw [hvalue, hvalue'] at hwords
  · simp only [readAssignment, hvalue, hvalue']
    rfl
  · cases hwords
  · cases hwords
  · obtain ⟨-, hrest⟩ := List.cons.inj hwords
    -- If one of the names is accepted, the other one is the same.
    rcases hfault : Name.fault? (targetText line ls equals.position) with _ | fault <;>
      rcases hfault' : Name.fault? (targetText other ls' equals'.position) with _ | fault'
    · have hname := targetText_of_words hmatch hmatch' h hvalue hvalue' rfl hfault
      simp only [readAssignment, hvalue, hvalue', hname, hfault]
      exact Expr.outcome_read_of_words hrest fun e => rfl
    · have hname := targetText_of_words hmatch hmatch' h hvalue hvalue' rfl hfault
      rw [hname, hfault] at hfault'
      cases hfault'
    · have hname := targetText_of_words hmatch' hmatch h.symm hvalue' hvalue rfl hfault'
      rw [hname, hfault'] at hfault
      cases hfault
    · simp only [readAssignment, hvalue, hvalue', hfault, hfault']
      rfl

/-! ## Parsing and evaluating the same words -/

theorem Statement.outcome_read_of_words
    {start stop start' stop' : Nat}
    (hmatch : LongestMatch line.toList start stop ls)
    (hmatch' : LongestMatch other.toList start' stop' ls')
    (h : ls.map Lexeme.word = ls'.map Lexeme.word) :
    outcome (((Statement.read m line ls).mapError (SyntaxFault.lineError line)).map unplaced) =
      outcome (((Statement.read m other ls').mapError (SyntaxFault.lineError other)).map
        unplaced) := by
  rcases ls with _ | ⟨first, rest⟩
  · obtain rfl := List.map_eq_nil_iff.mp h.symm
    rfl
  · obtain ⟨first', rest', rfl, hfirst, hrest⟩ := List.map_eq_cons_iff.mp h.symm
    have htoken : first'.token = first.token := congrArg Prod.fst hfirst
    obtain ⟨-, -, -, hmatch⟩ := LongestMatch.cons_iff.mp hmatch
    obtain ⟨-, -, -, hmatch'⟩ := LongestMatch.cons_iff.mp hmatch'
    unfold Statement.read
    simp only [htoken]
    split
    · exact outcome_readAssignment_of_words hmatch hmatch' hrest.symm
    · exact Expr.outcome_read_of_words h fun e => rfl

namespace Memory

theorem outcome_parse_of_words
    (hscan : scan line = .ok ls) (hscan' : scan other = .ok ls')
    (h : ls.map Lexeme.word = ls'.map Lexeme.word) :
    outcome ((m.parse line).map Statement.unplaced) =
      outcome ((m.parse other).map Statement.unplaced) := by
  unfold parse
  rw [hscan, hscan']
  exact Statement.outcome_read_of_words (scan_eq_ok_iff.mp hscan).2 (scan_eq_ok_iff.mp hscan').2 h

theorem outcome_evalFinite_of_unplaced
    {s s' : Statement} (h : s.unplaced = s'.unplaced) :
    outcome (m.evalFinite s.value) = outcome (m.evalFinite s'.value) := by
  have hvalue : ∀ t : Statement, t.unplaced.value = t.value.relocate fun _ => 0 := by
    rintro (e | ⟨name, e⟩) <;> rfl
  have houtcome : ∀ t : Statement,
      outcome (m.evalFinite t.unplaced.value) = outcome (m.evalFinite t.value) := by
    intro t
    rw [hvalue, evalFinite_relocate]
    rcases m.evalFinite t.value with fault | v
    · exact congrArg Except.error (fault.kind_relocate _)
    · rfl
  rw [← houtcome s, h, houtcome s']

theorem commit_of_unplaced
    {s s' : Statement} (h : s.unplaced = s'.unplaced) (v : Float) :
    s.commit m v = s'.commit m v := by
  have hcommit : ∀ t : Statement, t.unplaced.commit m v = t.commit m v := by
    rintro (e | ⟨name, e⟩) <;> rfl
  rw [← hcommit s, h, hcommit s']

theorem outcome_evaluate_of_parse
    (h : outcome ((m.parse line).map Statement.unplaced) =
      outcome ((m.parse other).map Statement.unplaced)) :
    outcome (m.evaluate line).1 = outcome (m.evaluate other).1 ∧
      (m.evaluate line).2 = (m.evaluate other).2 := by
  rcases hline : m.parse line with fault | s <;> rcases hother : m.parse other with fault' | s' <;>
    rw [hline, hother] at h
  · rw [evaluate_of_parse_error hline, evaluate_of_parse_error hother]
    exact ⟨congrArg Except.error (Except.error.inj h), rfl⟩
  · cases h
  · cases h
  · have hunplaced : s.unplaced = s'.unplaced := Except.ok.inj h
    have hvalue := outcome_evalFinite_of_unplaced (m := m) hunplaced
    have hcommit := commit_of_unplaced (m := m) hunplaced
    rw [evaluate_of_parse hline, evaluate_of_parse hother]
    rcases hfinite : m.evalFinite s.value with fault | v <;>
      rcases hfinite' : m.evalFinite s'.value with fault' | v' <;>
      rw [hfinite, hfinite'] at hvalue
    · exact ⟨hvalue, rfl⟩
    · cases hvalue
    · cases hvalue
    · obtain rfl : v = v' := Except.ok.inj hvalue
      exact ⟨rfl, hcommit v⟩

/-- Blanks between words do not matter.  If the words of a line are set apart by any blanks, with
any blanks at both ends, they are scanned as the same words.  Two lines of the same words are parsed
into the same statement up to the positions of its nodes, or both are refused with the same kind of
error; and they have the same value or the same kind of error, and leave the same memory. -/
theorem spacing_irrelevant :
    (∀ (line : String) (lexemes : List Lexeme) (leading : String)
        (pieces : List (String × String)),
      Lexeme.ofLine line = .ok lexemes →
      leading.toList.all isSkipped = true →
      (∀ piece ∈ pieces, piece.2.toList.all isSkipped = true) →
      (∀ piece ∈ pieces.dropLast, piece.2 ≠ "") →
      pieces.map Prod.fst = lexemes.dropLast.map Lexeme.text →
      ∃ others, Lexeme.ofLine (spaced leading pieces) = .ok others ∧
        others.map Lexeme.word = lexemes.map Lexeme.word) ∧
    ∀ (m : Memory) (line other : String) (lexemes others : List Lexeme),
      Lexeme.ofLine line = .ok lexemes → Lexeme.ofLine other = .ok others →
      lexemes.map Lexeme.word = others.map Lexeme.word →
      outcome ((m.parse line).map Statement.unplaced) =
        outcome ((m.parse other).map Statement.unplaced) ∧
      outcome (m.evaluate line).1 = outcome (m.evaluate other).1 ∧
      (m.evaluate line).2 = (m.evaluate other).2 := by
  refine ⟨?_, ?_⟩
  · intro line lexemes leading pieces hlexemes hleading hblanks hapart htexts
    exact Lexeme.ofLine_spaced hlexemes hleading hblanks hapart htexts
  · intro m line other lexemes others hlexemes hothers hwords
    obtain ⟨cut, hscan, rfl⟩ := Lexeme.ofLine_eq_ok_iff.mp hlexemes
    obtain ⟨cut', hscan', rfl⟩ := Lexeme.ofLine_eq_ok_iff.mp hothers
    rw [List.map_append, List.map_append] at hwords
    have hcut : cut.map Lexeme.word = cut'.map Lexeme.word := (List.append_inj' hwords rfl).1
    have hparse := outcome_parse_of_words (m := m) hscan hscan' hcut
    exact ⟨hparse, outcome_evaluate_of_parse hparse⟩

/-- A product is assigned whatever blanks there are in the line. -/
theorem product_spacing_irrelevant :
    let line := "let y=2*x"
    let other := spaced "\t"
      [("let", " "), ("y", "\n"), ("=", "  "), ("2", " "), ("*", "\r\n"), ("x", "")]
    let m : Memory := ⟨Bindings.empty.insert "x" 3, none⟩
    outcome (m.evaluate line).1 = .ok 6 ∧ outcome (m.evaluate other).1 = .ok 6 ∧
      (m.evaluate line).2 = (m.evaluate other).2 := by
  intro line other m
  have hlexemes : Lexeme.ofLine line = .ok
      [⟨.letWord, "let", 0⟩, ⟨.identifier "y", "y", 4⟩, ⟨.equals, "=", 5⟩, ⟨.number 2, "2", 6⟩,
        ⟨.operator .mul, "*", 7⟩, ⟨.identifier "x", "x", 8⟩, ⟨.endOfInput, "", 9⟩] := by
    decide +kernel
  obtain ⟨others, hothers, hwords⟩ := spacing_irrelevant.1 line _ "\t"
    [("let", " "), ("y", "\n"), ("=", "  "), ("2", " "), ("*", "\r\n"), ("x", "")] hlexemes
    (by decide) (by decide) (by decide) (by decide)
  obtain ⟨-, hvalue, hafter⟩ :=
    spacing_irrelevant.2 m line other _ others hlexemes hothers hwords.symm
  have hproduct : (m.evaluate line).1 = .ok 6 := by decide +kernel
  have hkinds : outcome (m.evaluate line).1 = .ok 6 := by rw [hproduct]; rfl
  exact ⟨hkinds, hvalue ▸ hkinds, hafter⟩

end Memory

end Calculator
