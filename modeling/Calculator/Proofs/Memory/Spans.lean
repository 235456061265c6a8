import Calculator.Proofs.Grammar.Blame
import Calculator.Proofs.Memory.Parsed

/-!
# Where errors point

If an error of a line has a span, then the span lies in the line, up to one character past its end,
and what stands there is what the error is about.  All that comes before it is ASCII, so its
position counts bytes as well as characters.  The span of a fault is read off the lexemes that the
fault blames (`SyntaxFault.Blames`), and these stand where longest match has cut them.
-/

namespace Calculator

/-- The span is not empty, lies in the line up to one character past its end, and begins at the
same place whether bytes or characters are counted. -/
structure Span.Fits (line : String) (span : Span) : Prop where
  length_pos : 1 ≤ span.length
  stop_le : span.position + span.length ≤ line.length + 1
  ascii : ∀ c ∈ line.toList.take span.position, c.toNat < 128
  bytes : (String.ofList (line.toList.take span.position)).utf8ByteSize = span.position

/-- The span is that of a single lexeme of the line. -/
def Span.IsLexeme (line : String) (span : Span) (l : Lexeme) : Prop :=
  (∃ lexemes, scan line = .ok lexemes ∧ l ∈ lexemes) ∧
    l.position = span.position ∧ l.stop = span.position + span.length

/-- The part of the line that a span covers. -/
def Span.text (line : String) (span : Span) : String :=
  slice line span.position (span.position + span.length)

/-- What the error names stands in the line where the span is. -/
def LineError.Shows (line : String) (span : Span) : LineError → Prop
  | .badCharacter _ character => line.toList[span.position]? = some character
  | .unpairedParen _ .opening => line.toList[span.position]? = some '('
  | .unpairedParen _ .closing => line.toList[span.position]? = some ')'
  | .adjacentOperators _ text => span.text line = text
  | .badCall _ name _ | .unknownName _ name =>
    span.text line = name ∧ ∃ l, span.IsLexeme line l ∧ l.token = .identifier name
  | .invalid _ _ => (∃ l, span.IsLexeme line l) ∨ span = ⟨line.length, 1⟩
  | .empty | .badName _ _ | .infinite => False

/-! ## Places in a cut line -/

section Cut

variable {line : String} {stop : Nat} {lexemes : List Lexeme} {l : Lexeme}

theorem LongestMatch.span_fits
    (h : LongestMatch line.toList 0 stop lexemes) {position length : Nat}
    (hposition : position ≤ stop) (hlength : 1 ≤ length)
    (hstop : position + length ≤ line.length + 1) : Span.Fits line ⟨position, length⟩ where
  length_pos := hlength
  stop_le := hstop
  ascii := fun _ hc => h.toNat_lt_of_mem_take (List.take_subset_take_left _ hposition hc)
  bytes := h.utf8ByteSize_take hposition

theorem LongestMatch.stop_le_length
    (h : LongestMatch line.toList 0 line.length lexemes) (hl : l ∈ lexemes) :
    l.stop ≤ line.length :=
  (h.inside l hl).2

/-- No lexeme is empty, so the span of a lexeme is just as long as the lexeme. -/
theorem LongestMatch.span_eq
    (h : LongestMatch line.toList 0 line.length lexemes) (hl : l ∈ lexemes) :
    l.span = ⟨l.position, l.length⟩ := by
  have hpos := h.position_lt_stop hl
  have hlength : max l.text.length 1 = l.length := by
    simp only [Lexeme.stop, Lexeme.length] at hpos ⊢
    omega
  rw [Lexeme.span, Span.ofText, hlength]

theorem LongestMatch.lexeme_span_fits
    (h : LongestMatch line.toList 0 line.length lexemes) (hl : l ∈ lexemes) :
    l.span.Fits line := by
  have hpos := h.position_lt_stop hl
  have hstop := h.stop_le_length hl
  rw [h.span_eq hl]
  unfold Lexeme.stop at hpos hstop
  exact h.span_fits (by omega) (by omega) (by omega)

theorem isLexeme_span
    (hscan : scan line = .ok lexemes) (hl : l ∈ lexemes) : l.span.IsLexeme line l := by
  rw [(scan_eq_ok_iff.mp hscan).2.span_eq hl]
  exact ⟨⟨lexemes, hscan, hl⟩, rfl, rfl⟩

theorem text_span
    (hscan : scan line = .ok lexemes) (hl : l ∈ lexemes) : l.span.text line = l.text := by
  have hmatch := (scan_eq_ok_iff.mp hscan).2
  rw [hmatch.span_eq hl]
  exact hmatch.slice_eq hl

/-- A lexeme that is spelt with a single character stands where its span begins. -/
theorem LongestMatch.getElem?_position
    (h : LongestMatch line.toList 0 line.length lexemes) (hl : l ∈ lexemes) {c : Char}
    (honly : ∀ word, l.token.Spells word → word = [c]) : line.toList[l.position]? = some c := by
  obtain ⟨d, hd, rest, hspells⟩ := exists_head_of_longest (h.longest l hl)
  obtain rfl := (List.cons.inj (honly _ hspells)).1
  exact hd

end Cut

/-! ## The spans of faults -/

namespace SyntaxFault

variable {line : String} {lexemes : List Lexeme} {l : Lexeme}

/-- A fault that shows a lexeme. -/
theorem shows_invalid
    (hscan : scan line = .ok lexemes) (hl : l ∈ lexemes) (reason : String) :
    l.span.Fits line ∧ LineError.Shows line l.span (.invalid reason (some l.span)) :=
  ⟨(scan_eq_ok_iff.mp hscan).2.lexeme_span_fits hl, .inl ⟨l, isLexeme_span hscan hl⟩⟩

/-- A fault that names an identifier. -/
theorem shows_name
    (hscan : scan line = .ok lexemes) (hl : l.NamedIn lexemes) :
    l.span.Fits line ∧ l.span.text line = l.text ∧
      ∃ word, l.span.IsLexeme line word ∧ word.token = .identifier l.text := by
  obtain ⟨hmem, name, htoken⟩ := hl
  have hmatch := (scan_eq_ok_iff.mp hscan).2
  obtain rfl := hmatch.text_of_identifier hmem htoken
  exact ⟨hmatch.lexeme_span_fits hmem, text_span hscan hmem, l, isLexeme_span hscan hmem, htoken⟩

/-- A fault at a parenthesis. -/
theorem shows_paren
    (hscan : scan line = .ok lexemes) (hl : l ∈ lexemes) {c : Char}
    (honly : ∀ word, l.token.Spells word → word = [c]) :
    Span.Fits line ⟨l.position, 1⟩ ∧ line.toList[l.position]? = some c := by
  have hmatch := (scan_eq_ok_iff.mp hscan).2
  have hpos := hmatch.position_lt_stop hl
  have hstop := hmatch.stop_le_length hl
  exact ⟨hmatch.span_fits (by omega) (Nat.le_refl 1) (by omega),
    hmatch.getElem?_position hl honly⟩

/-- A run of operators reaches from the beginning of the first one to the end of the last. -/
theorem shows_operatorRun
    {first last : Lexeme} (hscan : scan line = .ok lexemes)
    (hpair : [first, last].Sublist lexemes) :
    let text := slice line first.position last.stop
    (Span.ofText first.position text).Fits line ∧
      (Span.ofText first.position text).text line = text := by
  intro text
  have hmatch := (scan_eq_ok_iff.mp hscan).2
  have hfirst : first ∈ lexemes := hpair.subset (by simp)
  have hlast : last ∈ lexemes := hpair.subset (by simp)
  have horder : first.stop ≤ last.position := by simpa using hmatch.ordered.sublist hpair
  have hposFirst := hmatch.position_lt_stop hfirst
  have hposLast := hmatch.position_lt_stop hlast
  have hstop := hmatch.stop_le_length hlast
  have hlength : text.length = last.stop - first.position := length_slice hstop
  have hspan : Span.ofText first.position text =
      ⟨first.position, last.stop - first.position⟩ := by
    rw [Span.ofText, hlength, Nat.max_eq_left (by omega)]
  rw [hspan]
  constructor
  · exact hmatch.span_fits (by omega) (by omega) (by omega)
  · have hend : first.position + (last.stop - first.position) = last.stop := by omega
    rw [Span.text, hend]

/-- The line error of a fault points at the lexemes that the fault blames. -/
theorem shows_of_blames
    {fault : SyntaxFault} (hscan : scan line = .ok lexemes) (hblames : fault.Blames lexemes)
    {span : Span} (hspan : (fault.lineError line).span = some span) :
    span.Fits line ∧ (fault.lineError line).Shows line span := by
  cases fault with
  | endOfInput =>
      cases hspan
      have hmatch := (scan_eq_ok_iff.mp hscan).2
      exact ⟨hmatch.span_fits (Nat.le_refl _) (Nat.le_refl 1) (Nat.le_refl _), .inr rfl⟩
  | unclosed paren | unopened paren =>
      cases hspan
      obtain ⟨hmem, htoken⟩ := hblames
      apply shows_paren hscan hmem
      rintro word hspells
      rw [htoken] at hspells
      cases hspells
      rfl
  | operatorRun first last =>
      cases hspan
      exact shows_operatorRun hscan hblames
  | unexpected lexeme | tooDeep lexeme | letWithoutValue lexeme =>
      cases hspan
      exact shows_invalid hscan hblames _
  | unknownFunction name | wrongCount name function count | unknownName name =>
      cases hspan
      exact shows_name hscan hblames
  | badName name fault => cases hspan

end SyntaxFault

/-! ## The spans of errors -/

theorem shows_of_scan
    {line : String} {fault : LineError} (h : scan line = .error fault) {span : Span}
    (hspan : fault.span = some span) : span.Fits line ∧ fault.Shows line span := by
  rcases eq_empty_or_badCharacter_of_scan h with rfl | ⟨position, c, rfl⟩
  · cases hspan
  · cases hspan
    obtain ⟨⟨lexemes, hmatch⟩, hc, -⟩ := scan_eq_badCharacter_iff.mp h
    have hlt : position < line.length := by
      rw [← String.length_toList]
      exact (List.getElem?_eq_some_iff.mp hc).1
    exact ⟨hmatch.span_fits (Nat.le_refl _) (Nat.le_refl 1) (by omega), hc⟩

namespace Memory

theorem shows_of_parse
    {m : Memory} {line : String} {fault : LineError} (h : m.parse line = .error fault)
    {span : Span} (hspan : fault.span = some span) :
    span.Fits line ∧ fault.Shows line span := by
  rcases parse_eq_error_iff.mp h with hscan | ⟨lexemes, refusal, hscan, hread, rfl⟩
  · exact shows_of_scan hscan hspan
  · exact SyntaxFault.shows_of_blames hscan (Statement.blames_of_read hread) hspan

/-- If a line is refused with a span, then the span lies in the line up to one character past its
end, its position counts bytes and characters alike, and it shows what the error names. -/
theorem error_span_shows_cause
    {m : Memory} {line : String} {fault : LineError} {span : Span}
    (h : (m.evaluate line).1 = .error fault ∨ m.valueOf line = .error fault ∨
      m.parse line = .error fault)
    (hspan : fault.span = some span) : span.Fits line ∧ fault.Shows line span := by
  have hplace : fault.span ≠ none := by simp [hspan]
  have hparse : m.parse line = .error fault := by
    rcases h with h | h | h
    · exact parse_of_evaluate_span h hplace
    · exact parse_of_valueOf_span h hplace
    · exact h
  exact shows_of_parse hparse hspan

/-- The name of a call is shown that is found wrong only at its closing parenthesis. -/
theorem wrong_count_shows_function :
    let line := " 1 +\tpow((2) * 3)"
    let fault : LineError := .badCall 5 "pow" "expects 2 arguments, found 1"
    (fresh.evaluate line).1 = .error fault ∧ fault.span = some ⟨5, 3⟩ ∧
      Span.Fits line ⟨5, 3⟩ ∧ fault.Shows line ⟨5, 3⟩ := by
  intro line fault
  have hfault : (fresh.evaluate line).1 = .error fault := by decide +kernel
  have hspan : fault.span = some ⟨5, 3⟩ := by decide
  exact ⟨hfault, hspan, error_span_shows_cause (.inl hfault) hspan⟩

end Memory

end Calculator
