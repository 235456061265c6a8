import Calculator.Proofs.Scanning.Seams

/-!
# Texts of operators

In a word of several characters an operator is the sign of an exponent, so that a digit follows it
(`Token.exists_digit_of_isMark`).  Two operators side by side are therefore in no such word, and a
text of several operators may stand between any two others.  Put in place of a stretch from one
lexeme of a line to another, it leaves what stands before and after as it was (`scan_spliced`).
-/

namespace Calculator

open Text Numeral

/-- The character is a blank or the sign of an operator. -/
def IsMark (c : Char) : Prop :=
  isSkipped c = true ∨ ∃ op : Operator, c = op.symbol

/-- The line with `text` in place of what stands from `start` up to `stop`. -/
def spliced (line : String) (start stop : Nat) (text : String) : String :=
  slice line 0 start ++ text ++ slice line stop line.length

variable {c d : Char} {token : Token} {left right before after text : List Char}
  {ls : List Lexeme}

/-! ## Operators within words -/

theorem IsMark.plain (h : IsMark c) : continuesWord c = false ∧ c ≠ '.' := by
  rcases h with hskipped | ⟨op, rfl⟩
  · simp only [isSkipped, Bool.or_eq_true, beq_iff_eq] at hskipped
    rcases hskipped with (((rfl | rfl) | rfl) | rfl) | rfl <;> decide
  · cases op <;> decide

theorem IsMark.isDigit_eq_false (h : IsMark c) : c.isDigit = false := by
  by_contra hdigit
  rw [Bool.not_eq_false] at hdigit
  exact absurd h.plain.1 (by simp [Token.continuesWord_of_isDigit hdigit])

/-- A text that another begins, up to a character that is not in it. -/
theorem exists_append_of_append_eq
    (h : before ++ after = left ++ c :: right) (hc : c ∉ before) :
    ∃ middle, left = before ++ middle ∧ after = middle ++ c :: right := by
  rcases List.append_eq_append_iff.mp h with ⟨middle, hleft, hafter⟩ | ⟨middle, rfl, hright⟩
  · exact ⟨middle, hleft, hafter⟩
  · cases middle with
    | nil => exact ⟨[], by simp, hright.symm⟩
    | cons first middle =>
        obtain ⟨rfl, -⟩ := List.cons.inj hright
        exact absurd (by simp) hc

theorem IsMark.notMem_digits (h : IsMark c) {digits : List Char} (hdigits : IsDigits digits) :
    c ∉ digits := by
  intro hmem
  have hdigit := hdigits.2 c hmem
  rw [h.isDigit_eq_false] at hdigit
  cases hdigit

/-- In a literal an operator comes right before the digits of the exponent. -/
theorem Numeral.exists_digit_of_isMark
    {n : Numeral} (hn : n.WellSpelt) (h : n.text = left ++ c :: right) (hc : IsMark c) :
    left ≠ [] ∧ ∃ d rest, right = d :: rest ∧ d.isDigit = true := by
  have hfraction : c ∉ fractionText n.fraction := by
    cases hdigits : n.fraction with
    | none => exact List.not_mem_nil
    | some digits =>
        simp [fractionText, hc.plain.2, hc.notMem_digits (hn.fraction digits hdigits)]
  have hfront : c ∉ n.whole ++ fractionText n.fraction := by
    simp [hfraction, hc.notMem_digits hn.whole]
  obtain ⟨middle, rfl, hexponent⟩ := exists_append_of_append_eq h hfront
  refine ⟨by simp [hn.whole.1], ?_⟩
  cases he : n.exponent with
  | none => simp [he, exponentText] at hexponent
  | some e =>
      have hspelt := hn.exponent e he
      have hmark : c ∉ [e.mark] := by
        have hword := hc.plain.1
        have hmark := hspelt.mark
        simp only [isExponentMark, Bool.or_eq_true, beq_iff_eq] at hmark
        rintro hmem
        rw [List.mem_singleton.mp hmem] at hword
        rcases hmark with hmark | hmark
        · rw [hmark] at hword
          cases hword
        · rw [hmark] at hword
          cases hword
      rw [he, exponentText, Exponent.text, ← List.singleton_append] at hexponent
      obtain ⟨inner, -, hsigned⟩ := exists_append_of_append_eq hexponent hmark
      have hinner : ∀ inner, e.digits ≠ inner ++ c :: right := fun inner hdigits =>
        hc.notMem_digits hspelt.digits (by simp [hdigits])
      cases hsign : e.sign with
      | none => exact absurd (by simpa [hsign] using hsigned) (hinner inner)
      | some sign =>
          cases inner with
          | nil =>
              obtain ⟨d, rest, hdigits⟩ := List.exists_cons_of_ne_nil hspelt.digits.1
              rw [hsign] at hsigned
              have hright : e.digits = right := (List.cons.inj hsigned).2
              exact ⟨d, rest, hright.symm.trans hdigits, hspelt.digits.2 d (by simp [hdigits])⟩
          | cons first inner =>
              rw [hsign] at hsigned
              exact absurd (List.cons.inj hsigned).2 (hinner inner)

/-- An operator in a word of several characters is not the first and comes right before a digit. -/
theorem Token.exists_digit_of_isMark
    (h : token.Spells (left ++ c :: right)) (hc : IsMark c) :
    (left = [] ∧ right = []) ∨ (left ≠ [] ∧ ∃ d rest, right = d :: rest ∧ d.isDigit = true) := by
  generalize hword : left ++ c :: right = word at h
  have hmem : c ∈ word := by simp [← hword]
  cases h with
  | number hn => exact .inr (Numeral.exists_digit_of_isMark hn hword.symm hc)
  | letWord =>
      have hplain := hc.plain.1
      rcases List.mem_cons.mp hmem with rfl | hmem
      · cases hplain
      · rw [Token.continuesWord_of_mem_let c hmem] at hplain
        cases hplain
  | identifier hfirst hrest =>
      have hplain := hc.plain.1
      rcases List.mem_cons.mp hmem with rfl | hmem
      · rw [continuesWord_of_beginsWord hfirst] at hplain
        cases hplain
      · rw [hrest c hmem] at hplain
        cases hplain
  | operator | openParen | closeParen | comma | equals =>
      have hlength := congrArg List.length hword
      simp only [List.length_append, List.length_cons, List.length_nil] at hlength
      exact .inl ⟨List.length_eq_zero_iff.mp (by omega), List.length_eq_zero_iff.mp (by omega)⟩

/-- Before two operators no word goes on. -/
theorem Seam.of_isMark_right (hc : IsMark c) (hd : IsMark d) : Seam before (c :: d :: after) := by
  intro token left right hspells _ hright
  cases right with
  | nil => exact .inr rfl
  | cons first right =>
      obtain ⟨rfl, hrest⟩ := List.cons_prefix_cons.mp hright
      rcases Token.exists_digit_of_isMark hspells hc with ⟨hleft, -⟩ | ⟨-, e, rest, rfl, he⟩
      · exact .inl hleft
      · obtain ⟨rfl, -⟩ := List.cons_prefix_cons.mp hrest
        rw [hd.isDigit_eq_false] at he
        cases he

theorem eq_of_concat_suffix (h : left ++ [c] <:+ before ++ [d]) : c = d ∧ left <:+ before := by
  obtain ⟨front, hfront⟩ := h
  rw [← List.append_assoc] at hfront
  obtain ⟨hbefore, hlast⟩ := List.append_inj' hfront rfl
  exact ⟨List.singleton_inj.mp hlast, ⟨front, hbefore⟩⟩

/-- Behind two operators no word goes on. -/
theorem Seam.of_isMark_left (hc : IsMark c) (hd : IsMark d) :
    Seam (before ++ [c] ++ [d]) after := by
  intro token left right hspells hleft _
  rcases List.eq_nil_or_concat left with hnil | ⟨front, last, rfl⟩
  · exact .inl hnil
  · rw [List.concat_eq_append] at hspells hleft
    obtain ⟨rfl, hfront⟩ := eq_of_concat_suffix hleft
    rw [List.append_assoc] at hspells
    rcases Token.exists_digit_of_isMark hspells hd with ⟨-, hright⟩ | ⟨hne, -⟩
    · exact .inr hright
    · -- The word would have both operators in it, the first of them before a digit.
      rcases List.eq_nil_or_concat front with hnil | ⟨front, first, rfl⟩
      · exact absurd hnil hne
      · rw [List.concat_eq_append] at hspells hfront
        obtain ⟨rfl, -⟩ := eq_of_concat_suffix hfront
        rw [List.append_assoc] at hspells
        rcases Token.exists_digit_of_isMark hspells hc with ⟨-, hnil⟩ | ⟨-, e, rest, hdigit, he⟩
        · cases hnil
        · obtain ⟨rfl, -⟩ := List.cons.inj hdigit
          rw [hd.isDigit_eq_false] at he
          cases he

/-! ## Texts of operators -/

theorem Token.Spells.isMark_of_isOperator
    {word : List Char} (h : token.Spells word) (hoperator : token.isOperator = true) :
    ∃ op : Operator, word = [op.symbol] := by
  cases h with
  | operator op => exact ⟨op, rfl⟩
  | number | letWord | identifier | openParen | closeParen | comma | equals => cases hoperator

/-- Where a text is cut into operators, it has nothing else but blanks. -/
theorem LongestMatch.isMark_of_mem
    (h : LongestMatch text 0 text.length ls) (hoperators : ∀ l ∈ ls, l.isOperator = true)
    (hc : c ∈ text) : IsMark c := by
  obtain ⟨i, hi⟩ := List.mem_iff_getElem?.mp hc
  have hlt : i < text.length := (List.getElem?_eq_some_iff.mp hi).1
  rcases h.isSkipped_or_mem (Nat.zero_le i) hlt hi with hskipped | ⟨l, hl, hspells, hmem⟩
  · exact .inl hskipped
  · obtain ⟨op, hop⟩ := hspells.isMark_of_isOperator (hoperators l hl)
    rw [hop] at hmem
    exact .inr ⟨op, List.mem_singleton.mp hmem⟩

theorem LongestMatch.length_le
    {start stop : Nat} (h : LongestMatch text start stop ls) : start + ls.length ≤ stop := by
  induction ls generalizing start with
  | nil => exact h.start_le
  | cons l ls ih =>
      obtain ⟨hstart, -, hlongest, hrest⟩ := LongestMatch.cons_iff.mp h
      have hpos := List.length_pos_iff.mpr (Token.spells_ne_nil hlongest.spells)
      have hle := ih hrest
      have hstop := l.stop_eq
      rw [List.length_cons]
      omega

/-- A text of several operators may stand between any two texts. -/
theorem LongestMatch.seams
    (h : LongestMatch text 0 text.length ls) (hoperators : ∀ l ∈ ls, l.isOperator = true)
    (hmany : 2 ≤ ls.length) : Seam before text ∧ Seam (before ++ text) after := by
  have hmark : ∀ c ∈ text, IsMark c := fun c hc => h.isMark_of_mem hoperators hc
  have hlength : 2 ≤ text.length := by
    have hle := h.length_le
    omega
  clear h
  constructor
  · match text with
    | c :: d :: rest => exact .of_isMark_right (hmark c (by simp)) (hmark d (by simp))
  · rcases List.eq_nil_or_concat text with rfl | ⟨rest, d, rfl⟩
    · simp at hlength
    rcases List.eq_nil_or_concat rest with rfl | ⟨rest, c, rfl⟩
    · simp at hlength
    simp only [List.concat_eq_append] at hmark ⊢
    rw [← List.append_assoc, ← List.append_assoc]
    exact .of_isMark_left (hmark c (by simp)) (hmark d (by simp))

/-! ## Putting operators into a line -/

variable {line replacement : String} {first last : Lexeme} {front run behind ops : List Lexeme}

/-- What stands before and after the stretch is kept. -/
theorem scan_spliced
    (hscan : scan line = .ok (front ++ (run ++ behind))) (hfirst : first ∈ run.head?)
    (hlast : last ∈ run.getLast?) (hops : scan replacement = .ok ops)
    (hoperators : ∀ l ∈ ops, l.isOperator = true) (hmany : 2 ≤ ops.length) :
    scan (spliced line first.position last.stop replacement) =
      .ok (front ++ (ops.map (·.relocate (first.position + ·)) ++ behind.map (·.relocate
        fun place => first.position + replacement.length + (place - last.stop)))) := by
  obtain ⟨-, hmatch⟩ := scan_eq_ok_iff.mp hscan
  obtain ⟨hne, htext⟩ := scan_eq_ok_iff.mp hops
  rw [← String.length_toList] at htext
  have hfront : LongestMatch line.toList 0 first.position front := by
    obtain ⟨others, rfl⟩ := List.head?_eq_some_iff.mp hfirst
    exact hmatch.split.1
  have hbehind : LongestMatch line.toList last.stop line.length behind := by
    obtain ⟨others, rfl⟩ := List.getLast?_eq_some_iff.mp hlast
    rw [List.append_assoc, List.singleton_append, ← List.append_assoc] at hmatch
    exact hmatch.split.2
  have hstart : (slice line 0 first.position).toList.length = first.position := by
    rw [String.length_toList, length_slice (String.length_toList ▸ hfront.stop_le), Nat.sub_zero]
  have hupto : ((slice line 0 first.position).toList ++ replacement.toList).length =
      first.position + replacement.length := by
    rw [List.length_append, hstart, String.length_toList]
  have hbegin := hfront.of_slice
  rw [Lexeme.map_relocate_sub_zero] at hbegin
  obtain ⟨hbefore, hafter⟩ := htext.seams hoperators hmany
  have hall := (hbegin.append htext hbefore).append hbehind.of_slice hafter
  rw [hstart, hupto, List.map_map, List.append_assoc front] at hall
  refine scan_eq_ok_iff.mpr ⟨by simp [hne], ?_⟩
  rw [← String.length_toList, spliced, String.toList_append, String.toList_append]
  exact hall

end Calculator
