import Calculator.Expr.Fault
import Calculator.Proofs.Scanning.LongestMatch

/-!
# The lexemes of a line

What the scan of a whole line gives: its lexemes if the line is cut up to its end, the first
character at which the cut is stuck, or a fault of its own for a line of blanks.  Since all that is
cut is ASCII, positions count bytes and characters alike (`utf8ByteSize_take`).
-/

namespace Calculator

theorem utf8ByteSize_ofList_of_ascii
    {text : List Char} (h : ∀ c ∈ text, c.toNat < 128) :
    (String.ofList text).utf8ByteSize = text.length := by
  induction text with
  | nil => rfl
  | cons c rest ih =>
      have hc : c.utf8Size = 1 := by
        rw [Char.utf8Size_eq_one_iff, UInt32.le_iff_toNat_le]
        exact Nat.le_of_lt_succ (h c List.mem_cons_self)
      have hrest := ih fun d hd => h d (List.mem_cons_of_mem _ hd)
      rw [String.ofList_cons, String.utf8ByteSize_append, String.utf8ByteSize_singleton, hc,
        hrest, List.length_cons, Nat.add_comm]

theorem length_slice
    {line : String} {start stop : Nat} (hstop : stop ≤ line.length) :
    (slice line start stop).length = stop - start := by
  have hline : line.toList.length = line.length := String.length_toList
  rw [slice, String.length_ofList, List.length_take, List.length_drop]
  omega

namespace LongestMatch

variable {line : String} {stop : Nat} {lexemes : List Lexeme}

theorem utf8ByteSize_take
    (h : LongestMatch line.toList 0 stop lexemes) {position : Nat} (hposition : position ≤ stop) :
    (String.ofList (line.toList.take position)).utf8ByteSize = position := by
  have hascii : ∀ c ∈ line.toList.take position, c.toNat < 128 := by
    intro c hc
    exact h.toNat_lt_of_mem_take (List.take_subset_take_left _ hposition hc)
  rw [utf8ByteSize_ofList_of_ascii hascii,
    List.length_take_of_le (Nat.le_trans hposition h.stop_le)]

theorem utf8ByteSize_eq
    (h : LongestMatch line.toList 0 line.length lexemes) : line.utf8ByteSize = line.length := by
  have hwhole : line.toList.take line.length = line.toList := by
    rw [← String.length_toList, List.take_length]
  have hsize := h.utf8ByteSize_take (Nat.le_refl _)
  rwa [hwhole, String.ofList_toList] at hsize

/-- The text of a lexeme is what stands at its place. -/
theorem slice_eq
    {start : Nat} (h : LongestMatch line.toList start stop lexemes) {l : Lexeme}
    (hl : l ∈ lexemes) : slice line l.position l.stop = l.text := by
  obtain ⟨after, hafter⟩ := (h.longest l hl).front
  have hlength : l.stop - l.position = l.text.toList.length := by
    have := l.stop_eq
    omega
  rw [slice, hlength, ← hafter, List.take_left, String.ofList_toList]

theorem position_lt_stop
    {text : List Char} {start : Nat} (h : LongestMatch text start stop lexemes) {l : Lexeme}
    (hl : l ∈ lexemes) : l.position < l.stop := by
  have hpos := List.length_pos_iff.mpr (Token.spells_ne_nil (h.longest l hl).spells)
  rw [l.stop_eq]
  omega

theorem token_ne_endOfInput
    {text : List Char} {start : Nat} (h : LongestMatch text start stop lexemes) {l : Lexeme}
    (hl : l ∈ lexemes) : l.token ≠ .endOfInput := by
  intro hend
  have hspells := (h.longest l hl).spells
  rw [hend] at hspells
  cases hspells

end LongestMatch

/-! ## The three results of a scan -/

theorem mem_blanks_iff {c : Char} :
    c ∈ [' ', '\t', '\r', '\n', '\x0c'] ↔ isSkipped c = true := by
  simp only [isSkipped, List.mem_cons, List.not_mem_nil, or_false, Bool.or_eq_true, beq_iff_eq]
  grind

/-- A text of blanks is one that is cut into no lexemes. -/
theorem all_isSkipped_iff {text : List Char} :
    text.all isSkipped = true ↔ LongestMatch text 0 text.length [] := by
  rw [List.all_eq_true, LongestMatch.nil_iff]
  constructor
  · intro h
    exact ⟨Nat.zero_le _, Nat.le_refl _, fun i _ _ c hc => h c (List.mem_of_getElem? hc)⟩
  · rintro ⟨-, -, hblank⟩ c hc
    obtain ⟨i, hi⟩ := List.mem_iff_getElem?.mp hc
    exact hblank i (Nat.zero_le _) (List.getElem?_eq_some_iff.mp hi).1 c hi

theorem scan_eq_empty_iff {line : String} :
    scan line = .error .empty ↔ line.toList.all isSkipped = true := by
  unfold scan
  split
  · rename_i hall
    simp [hall]
  · rename_i hall
    simp only [hall, Bool.false_eq_true, iff_false]
    intro hscan
    obtain ⟨_, _, hfault, -⟩ := scanFrom_eq_error_iff.mp hscan
    cases hfault

theorem scan_eq_ok_iff {line : String} {lexemes : List Lexeme} :
    scan line = .ok lexemes ↔
      lexemes ≠ [] ∧ LongestMatch line.toList 0 line.length lexemes := by
  rw [← String.length_toList, ← scanFrom_eq_ok_iff, scan]
  split
  · rename_i hall
    have hnil := scanFrom_eq_ok_iff.mpr (all_isSkipped_iff.mp hall)
    simp only [reduceCtorEq, hnil, Except.ok.injEq, false_iff, not_and]
    intro hne hlexemes
    exact hne hlexemes.symm
  · rename_i hall
    constructor
    · intro hscan
      refine ⟨?_, hscan⟩
      rintro rfl
      exact hall (all_isSkipped_iff.mpr (scanFrom_eq_ok_iff.mp hscan))
    · exact fun h => h.2

theorem scan_eq_badCharacter_iff {line : String} {position : Nat} {c : Char} :
    scan line = .error (.badCharacter position c) ↔
      (∃ lexemes, LongestMatch line.toList 0 position lexemes) ∧
        line.toList[position]? = some c ∧ IsStuck c := by
  have hscan : scanFrom 0 line.toList = .error (.badCharacter position c) ↔
      (∃ lexemes, LongestMatch line.toList 0 position lexemes) ∧
        line.toList[position]? = some c ∧ IsStuck c := by
    rw [scanFrom_eq_error_iff]
    constructor
    · rintro ⟨_, _, hfault, hmatch, hc, hstuck⟩
      cases hfault
      exact ⟨hmatch, hc, hstuck⟩
    · rintro ⟨hmatch, hc, hstuck⟩
      exact ⟨position, c, rfl, hmatch, hc, hstuck⟩
  rw [← hscan, scan]
  split
  · rename_i hall
    rw [scanFrom_eq_ok_iff.mpr (all_isSkipped_iff.mp hall)]
    simp
  · exact Iff.rfl

/-- A line is refused only for being blank or for a character at which the scan is stuck. -/
theorem eq_empty_or_badCharacter_of_scan
    {line : String} {fault : LineError} (h : scan line = .error fault) :
    fault = .empty ∨ ∃ position c, fault = .badCharacter position c := by
  unfold scan at h
  split at h
  · cases h
    exact .inl rfl
  · obtain ⟨position, c, rfl, -⟩ := scanFrom_eq_error_iff.mp h
    exact .inr ⟨position, c, rfl⟩

theorem Lexeme.ofLine_eq_error_iff {line : String} {fault : LineError} :
    Lexeme.ofLine line = .error fault ↔ scan line = .error fault := by
  rw [Lexeme.ofLine]
  cases scan line <;> simp [Except.map]

theorem Lexeme.ofLine_eq_ok_iff {line : String} {lexemes : List Lexeme} :
    Lexeme.ofLine line = .ok lexemes ↔
      ∃ cut, scan line = .ok cut ∧ lexemes = cut ++ [⟨.endOfInput, "", line.length⟩] := by
  rw [Lexeme.ofLine]
  cases scan line <;> simp [Except.map, eq_comm]

/-- The lexemes of a line are what longest match cuts it into, closed by a lexeme for its end.
The line is refused if it holds blanks only, or at the first character where no token begins and no
blank stands.  The part that is cut is ASCII, so that its positions count bytes as well. -/
theorem Lexeme.ofLine_iff_longestMatch (line : String) :
    (Lexeme.ofLine line = .error .empty ↔
      ∀ c ∈ line.toList, c ∈ [' ', '\t', '\r', '\n', '\x0c']) ∧
    (∀ lexemes, Lexeme.ofLine line = .ok lexemes ↔
      ∃ cut, cut ≠ [] ∧ LongestMatch line.toList 0 line.length cut ∧
        lexemes = cut ++ [⟨.endOfInput, "", line.utf8ByteSize⟩]) ∧
    (∀ position c, Lexeme.ofLine line = .error (.badCharacter position c) ↔
      (∃ cut, LongestMatch line.toList 0 position cut) ∧
        line.toList[position]? = some c ∧ IsStuck c) ∧
    (∀ fault, Lexeme.ofLine line = .error fault →
      fault = .empty ∨ ∃ position c, fault = .badCharacter position c) ∧
    ∀ stop cut, LongestMatch line.toList 0 stop cut →
      (∀ l ∈ cut, l.token ≠ .endOfInput ∧ l.position < l.stop ∧
        slice line l.position l.stop = l.text) ∧
      (∀ c ∈ line.toList.take stop, c.toNat < 128) ∧
      ∀ position ≤ stop,
        (String.ofList (line.toList.take position)).utf8ByteSize = position := by
  refine ⟨?_, ?_, ?_, ?_, ?_⟩
  · rw [Lexeme.ofLine_eq_error_iff, scan_eq_empty_iff, List.all_eq_true]
    simp only [mem_blanks_iff]
  · intro lexemes
    rw [Lexeme.ofLine_eq_ok_iff]
    constructor
    · rintro ⟨cut, hscan, rfl⟩
      obtain ⟨hne, hmatch⟩ := scan_eq_ok_iff.mp hscan
      exact ⟨cut, hne, hmatch, by rw [hmatch.utf8ByteSize_eq]⟩
    · rintro ⟨cut, hne, hmatch, rfl⟩
      exact ⟨cut, scan_eq_ok_iff.mpr ⟨hne, hmatch⟩, by rw [hmatch.utf8ByteSize_eq]⟩
  · intro position c
    rw [Lexeme.ofLine_eq_error_iff, scan_eq_badCharacter_iff]
  · intro fault hfault
    exact eq_empty_or_badCharacter_of_scan (Lexeme.ofLine_eq_error_iff.mp hfault)
  · intro stop cut hmatch
    refine ⟨?_, fun c hc => hmatch.toNat_lt_of_mem_take hc, fun position hposition =>
      hmatch.utf8ByteSize_take hposition⟩
    intro l hl
    exact ⟨hmatch.token_ne_endOfInput hl, hmatch.position_lt_stop hl, hmatch.slice_eq hl⟩

end Calculator
