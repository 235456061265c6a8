import Calculator.Proofs.Scanning.Spelling

/-!
# Lines are cut by longest match

`LongestMatch` says of some lexemes that they are what a stretch of a text is cut into: they stand
one after the other, each is the longest token at its place, and only blanks are left between
them.  A text is cut in one way only, and the scan finds it: `scanFrom_of_longestMatch` follows a
given cut, and `exists_longestMatch` provides one up to the end or to a character at which no
token begins.
-/

namespace Calculator

theorem Lexeme.stop_eq (l : Lexeme) : l.stop = l.position + l.text.toList.length := by
  rw [String.length_toList]
  rfl

/-- All characters from `start` up to `stop` are blanks of the language. -/
def BlankBetween (text : List Char) (start stop : Nat) : Prop :=
  ∀ i, start ≤ i → i < stop → ∀ c ∈ text[i]?, isSkipped c = true

/-- The characters from `start` up to `stop` are cut into the given lexemes. -/
structure LongestMatch (text : List Char) (start stop : Nat) (lexemes : List Lexeme) : Prop where
  start_le : start ≤ stop
  stop_le : stop ≤ text.length
  inside : ∀ l ∈ lexemes, start ≤ l.position ∧ l.stop ≤ stop
  ordered : lexemes.Pairwise fun a b => a.stop ≤ b.position
  longest : ∀ l ∈ lexemes, l.token.Longest l.text.toList (text.drop l.position)
  gaps : ∀ i, start ≤ i → i < stop →
    (∀ l ∈ lexemes, ¬(l.position ≤ i ∧ i < l.stop)) → ∀ c ∈ text[i]?, isSkipped c = true

namespace LongestMatch

variable {text : List Char} {start stop : Nat} {l : Lexeme} {lexemes : List Lexeme}

theorem nil_iff :
    LongestMatch text start stop [] ↔
      start ≤ stop ∧ stop ≤ text.length ∧ BlankBetween text start stop := by
  constructor
  · intro h
    exact ⟨h.start_le, h.stop_le, fun i hstart hstop =>
      h.gaps i hstart hstop fun _ hl => by cases hl⟩
  · rintro ⟨hstart, hstop, hblank⟩
    exact ⟨hstart, hstop, by simp, .nil, by simp, fun i hi hi' _ => hblank i hi hi'⟩

theorem refl (h : start ≤ text.length) : LongestMatch text start start [] :=
  nil_iff.mpr ⟨Nat.le_refl _, h, fun i hi hi' => by omega⟩

/-- The first lexeme is cut off, and the rest of the stretch is cut after it. -/
theorem cons_iff :
    LongestMatch text start stop (l :: lexemes) ↔
      start ≤ l.position ∧ BlankBetween text start l.position ∧
        l.token.Longest l.text.toList (text.drop l.position) ∧
        LongestMatch text l.stop stop lexemes := by
  have hl : l.position ≤ l.stop := Nat.le_add_right _ _
  constructor
  · intro h
    have hfirst := h.inside l List.mem_cons_self
    have hrest : ∀ other ∈ lexemes, l.stop ≤ other.position :=
      (List.pairwise_cons.mp h.ordered).1
    refine ⟨hfirst.1, ?_, h.longest l List.mem_cons_self, ?_⟩
    · intro i hi hi'
      apply h.gaps i hi (by omega)
      intro other hother
      rcases List.mem_cons.mp hother with rfl | hother
      · omega
      · have := hrest other hother
        omega
    · refine ⟨hfirst.2, h.stop_le, ?_, h.ordered.tail, ?_, ?_⟩
      · intro other hother
        exact ⟨hrest other hother, (h.inside other (List.mem_cons_of_mem _ hother)).2⟩
      · intro other hother
        exact h.longest other (List.mem_cons_of_mem _ hother)
      · intro i hi hi' huncovered
        apply h.gaps i (by omega) hi'
        intro other hother
        rcases List.mem_cons.mp hother with rfl | hother
        · omega
        · exact huncovered other hother
  · rintro ⟨hstart, hblank, hlongest, h⟩
    have hstop := h.start_le
    refine ⟨by omega, h.stop_le, ?_, ?_, ?_, ?_⟩
    · intro other hother
      rcases List.mem_cons.mp hother with rfl | hother
      · exact ⟨hstart, hstop⟩
      · have := h.inside other hother
        omega
    · exact .cons (fun other hother => (h.inside other hother).1) h.ordered
    · intro other hother
      rcases List.mem_cons.mp hother with rfl | hother
      · exact hlongest
      · exact h.longest other hother
    · intro i hi hi' huncovered
      have hnot := huncovered l List.mem_cons_self
      by_cases hbefore : i < l.position
      · exact hblank i hi hbefore
      · apply h.gaps i (by omega) hi'
        intro other hother
        exact huncovered other (List.mem_cons_of_mem _ hother)

/-- A blank before a stretch can be added to it. -/
theorem of_blank
    {c : Char} (hc : text[start]? = some c) (hskipped : isSkipped c = true)
    (h : LongestMatch text (start + 1) stop lexemes) : LongestMatch text start stop lexemes := by
  have hstart := h.start_le
  refine ⟨by omega, h.stop_le, ?_, h.ordered, h.longest, ?_⟩
  · intro l hl
    have := h.inside l hl
    omega
  · intro i hi hi' huncovered d hd
    by_cases heq : i = start
    · subst heq
      obtain rfl : c = d := by simpa [hc] using hd
      exact hskipped
    · exact h.gaps i (by omega) hi' huncovered d hd

end LongestMatch

/-! ## One step of the scan -/

theorem scanFrom_skipped
    {c : Char} (h : isSkipped c = true) (position : Nat) (rest : List Char) :
    scanFrom position (c :: rest) = scanFrom (position + 1) rest := by
  rw [scanFrom, if_pos h]

theorem scanFrom_token
    {c : Char} {rest word after : List Char} {token : Token} (h : isSkipped c = false)
    (hread : Token.read? (c :: rest) = some (token, word, after)) (position : Nat) :
    scanFrom position (c :: rest) =
      (scanFrom (position + word.length) after).map
        (⟨token, String.ofList word, position⟩ :: ·) := by
  rw [scanFrom, if_neg (by simp [h])]
  split
  · rename_i hnone
    rw [hread] at hnone
    cases hnone
  · rename_i hsome
    rw [hread] at hsome
    cases hsome
    cases scanFrom (position + word.length) after <;> rfl

theorem scanFrom_stuck
    {c : Char} {rest : List Char} (h : isSkipped c = false)
    (hread : Token.read? (c :: rest) = none) (position : Nat) :
    scanFrom position (c :: rest) = .error (.badCharacter position c) := by
  rw [scanFrom, if_neg (by simp [h])]
  split
  · rfl
  · rename_i hsome
    rw [hread] at hsome
    cases hsome

theorem drop_eq_cons
    {text : List Char} {i : Nat} {c : Char} (h : text[i]? = some c) :
    text.drop i = c :: text.drop (i + 1) := by
  obtain ⟨hi, rfl⟩ := List.getElem?_eq_some_iff.mp h
  exact List.drop_eq_getElem_cons hi

/-- Where no word of the language begins and no blank stands, the scan cannot go on. -/
def IsStuck (c : Char) : Prop :=
  isSkipped c = false ∧ ∀ token word, ¬Token.Spells token (c :: word)

theorem scanFrom_of_isStuck
    {text : List Char} {position : Nat} {c : Char} (hc : text[position]? = some c)
    (h : IsStuck c) :
    scanFrom position (text.drop position) = .error (.badCharacter position c) := by
  rw [drop_eq_cons hc]
  exact scanFrom_stuck h.1 (Token.read?_cons_eq_none_iff.mpr h.2) position

/-! ## The scan follows a cut -/

theorem scanFrom_of_blankBetween
    {text : List Char} {start stop : Nat} (hstart : start ≤ stop) (hstop : stop ≤ text.length)
    (h : BlankBetween text start stop) :
    scanFrom start (text.drop start) = scanFrom stop (text.drop stop) := by
  induction hstart using Nat.decreasingInduction with
  | self => rfl
  | of_succ start hlt ih =>
      have hc : text[start]? = some text[start] := List.getElem?_eq_getElem (by omega)
      have hskipped : isSkipped text[start] = true := h start (Nat.le_refl _) hlt _ hc
      rw [drop_eq_cons hc, scanFrom_skipped hskipped]
      exact ih fun i hi => h i (by omega)

theorem scanFrom_of_longest
    {text : List Char} {l : Lexeme}
    (h : l.token.Longest l.text.toList (text.drop l.position)) :
    scanFrom l.position (text.drop l.position) =
      (scanFrom l.stop (text.drop l.stop)).map (l :: ·) := by
  obtain ⟨after, hafter⟩ := h.front
  obtain ⟨c, others, hword⟩ := List.exists_cons_of_ne_nil (Token.spells_ne_nil h.spells)
  have hread : Token.read? (text.drop l.position) = some (l.token, l.text.toList, after) :=
    Token.read?_eq_some_iff.mpr ⟨h, hafter⟩
  have hskipped : isSkipped c = false :=
    Token.isSkipped_eq_false_of_spells (hword ▸ h.spells)
  have hdrop : text.drop l.stop = after := by
    rw [l.stop_eq, ← List.drop_drop, ← hafter, List.drop_left]
  rw [← hafter, hword, List.cons_append] at hread ⊢
  rw [scanFrom_token hskipped hread, hdrop, ← hword, ← l.stop_eq, String.ofList_toList]

/-- The scan cuts a stretch as it is cut by longest match, and goes on after it. -/
theorem scanFrom_of_longestMatch
    {text : List Char} {start stop : Nat} {lexemes : List Lexeme}
    (h : LongestMatch text start stop lexemes) :
    scanFrom start (text.drop start) =
      (scanFrom stop (text.drop stop)).map (lexemes ++ ·) := by
  induction lexemes generalizing start with
  | nil =>
      obtain ⟨hstart, hstop, hblank⟩ := LongestMatch.nil_iff.mp h
      rw [scanFrom_of_blankBetween hstart hstop hblank]
      cases scanFrom stop (text.drop stop) <;> rfl
  | cons l lexemes ih =>
      obtain ⟨hstart, hblank, hlongest, hrest⟩ := LongestMatch.cons_iff.mp h
      have hposition : l.position ≤ text.length :=
        Nat.le_trans (Nat.le_add_right _ _) (Nat.le_trans hrest.start_le h.stop_le)
      rw [scanFrom_of_blankBetween hstart hposition hblank, scanFrom_of_longest hlongest,
        ih hrest]
      cases scanFrom stop (text.drop stop) <;> rfl

/-- A text is cut up to its end, or up to a character at which the scan is stuck. -/
theorem exists_longestMatch
    {text : List Char} {start : Nat} (hstart : start ≤ text.length) :
    ∃ stop lexemes, LongestMatch text start stop lexemes ∧
      (stop = text.length ∨ ∃ c, text[stop]? = some c ∧ IsStuck c) := by
  by_cases hend : start = text.length
  · exact ⟨start, [], .refl hstart, .inl hend⟩
  · have hlt : start < text.length := by omega
    have hc : text[start]? = some text[start] := List.getElem?_eq_getElem hlt
    by_cases hskipped : isSkipped text[start] = true
    · have hnext : start + 1 ≤ text.length := hlt
      obtain ⟨stop, lexemes, hmatch, hstop⟩ := exists_longestMatch hnext
      exact ⟨stop, lexemes, hmatch.of_blank hc hskipped, hstop⟩
    · rw [Bool.not_eq_true] at hskipped
      cases hread : Token.read? (text.drop start) with
      | none =>
          rw [drop_eq_cons hc] at hread
          exact ⟨start, [], .refl hstart,
            .inr ⟨_, hc, hskipped, Token.read?_cons_eq_none_iff.mp hread⟩⟩
      | some found =>
          obtain ⟨token, word, after⟩ := found
          have hlongest := Token.longest_of_read? hread
          have hpos := List.length_pos_iff.mpr (Token.spells_ne_nil hlongest.spells)
          have hfits : start + word.length ≤ text.length := by
            have hlength := hlongest.front.length_le
            rw [List.length_drop] at hlength
            omega
          obtain ⟨stop, lexemes, hmatch, hstop⟩ := exists_longestMatch hfits
          refine ⟨stop, ⟨token, String.ofList word, start⟩ :: lexemes, ?_, hstop⟩
          apply LongestMatch.cons_iff.mpr
          refine ⟨Nat.le_refl _, fun i hi hi' => by dsimp at hi'; omega, ?_, ?_⟩
          · simpa using hlongest
          · simpa [Lexeme.stop_eq] using hmatch
termination_by text.length - start

theorem scanFrom_eq_ok_iff {text : List Char} {lexemes : List Lexeme} :
    scanFrom 0 text = .ok lexemes ↔ LongestMatch text 0 text.length lexemes := by
  constructor
  · intro hscan
    obtain ⟨stop, cut, hmatch, hstop⟩ := exists_longestMatch (Nat.zero_le text.length)
    have hfollow := scanFrom_of_longestMatch hmatch
    rw [List.drop_zero, hscan] at hfollow
    rcases hstop with rfl | ⟨c, hc, hstuck⟩
    · rw [List.drop_length, scanFrom] at hfollow
      obtain rfl : lexemes = cut := by simpa [Except.map] using hfollow
      exact hmatch
    · rw [scanFrom_of_isStuck hc hstuck] at hfollow
      cases hfollow
  · intro hmatch
    have hfollow := scanFrom_of_longestMatch hmatch
    rw [List.drop_zero, List.drop_length, scanFrom] at hfollow
    rw [hfollow]
    simp [Except.map]

theorem scanFrom_eq_error_iff {text : List Char} {fault : LineError} :
    scanFrom 0 text = .error fault ↔
      ∃ position c, fault = .badCharacter position c ∧
        (∃ lexemes, LongestMatch text 0 position lexemes) ∧
        text[position]? = some c ∧ IsStuck c := by
  constructor
  · intro hscan
    obtain ⟨stop, cut, hmatch, hstop⟩ := exists_longestMatch (Nat.zero_le text.length)
    have hfollow := scanFrom_of_longestMatch hmatch
    rw [List.drop_zero, hscan] at hfollow
    rcases hstop with rfl | ⟨c, hc, hstuck⟩
    · rw [List.drop_length, scanFrom] at hfollow
      cases hfollow
    · rw [scanFrom_of_isStuck hc hstuck] at hfollow
      cases hfollow
      exact ⟨stop, c, rfl, ⟨cut, hmatch⟩, hc, hstuck⟩
  · rintro ⟨position, c, rfl, ⟨cut, hmatch⟩, hc, hstuck⟩
    have hfollow := scanFrom_of_longestMatch hmatch
    rw [List.drop_zero, scanFrom_of_isStuck hc hstuck] at hfollow
    exact hfollow

/-! ## Cut text is ASCII -/

theorem toNat_lt_of_isSkipped {c : Char} (h : isSkipped c = true) : c.toNat < 128 := by
  simp only [isSkipped, Bool.or_eq_true, beq_iff_eq] at h
  rcases h with (((rfl | rfl) | rfl) | rfl) | rfl <;> decide

/-- Each character that is cut is a blank or in the word of a lexeme. -/
theorem LongestMatch.isSkipped_or_mem
    {text : List Char} {start stop : Nat} {lexemes : List Lexeme}
    (h : LongestMatch text start stop lexemes) {i : Nat} (hstart : start ≤ i) (hstop : i < stop)
    {c : Char} (hc : text[i]? = some c) :
    isSkipped c = true ∨ ∃ l ∈ lexemes, l.token.Spells l.text.toList ∧ c ∈ l.text.toList := by
  by_cases hcovered : ∃ l ∈ lexemes, l.position ≤ i ∧ i < l.stop
  · obtain ⟨l, hl, hposition, hi⟩ := hcovered
    rw [l.stop_eq] at hi
    obtain ⟨after, hafter⟩ := (h.longest l hl).front
    have hget : (l.text.toList ++ after)[i - l.position]? = some c := by
      rw [hafter, List.getElem?_drop, Nat.add_sub_cancel' hposition, hc]
    rw [List.getElem?_append_left (by omega)] at hget
    exact .inr ⟨l, hl, (h.longest l hl).spells, List.mem_of_getElem? hget⟩
  · refine .inl (h.gaps i hstart hstop ?_ c hc)
    intro l hl hi
    exact hcovered ⟨l, hl, hi⟩

theorem LongestMatch.toNat_lt
    {text : List Char} {start stop : Nat} {lexemes : List Lexeme}
    (h : LongestMatch text start stop lexemes) {i : Nat} (hstart : start ≤ i) (hstop : i < stop)
    {c : Char} (hc : text[i]? = some c) : c.toNat < 128 := by
  rcases h.isSkipped_or_mem hstart hstop hc with hskipped | ⟨l, -, hspells, hmem⟩
  · exact toNat_lt_of_isSkipped hskipped
  · exact Token.toNat_lt_of_mem_word hspells hmem

/-- All the characters of a stretch that is cut are ASCII. -/
theorem LongestMatch.toNat_lt_of_mem_take
    {text : List Char} {stop : Nat} {lexemes : List Lexeme}
    (h : LongestMatch text 0 stop lexemes) {c : Char} (hc : c ∈ text.take stop) :
    c.toNat < 128 := by
  obtain ⟨i, hi⟩ := List.mem_iff_getElem?.mp hc
  rw [List.getElem?_take] at hi
  split at hi
  · rename_i hstop
    exact h.toNat_lt (Nat.zero_le _) hstop hi
  · cases hi

end Calculator
