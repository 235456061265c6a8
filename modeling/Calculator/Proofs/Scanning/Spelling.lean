import Mathlib.Data.List.TakeWhile
import Calculator.Lexeme.Scan
import Calculator.Proofs.Scanning.Literal

/-!
# How tokens are spelt

`Token.Spells` lists the words that each token may be written as, without regard to how a text is
cut.  `Token.read?` then takes the longest of these words at the front of a text
(`read?_eq_some_iff`), and it takes none exactly where no word begins (`read?_eq_none_iff`).
-/

namespace Calculator

open Text Numeral

namespace Token

/-- The words that a token may be written as. -/
inductive Spells : Token → List Char → Prop where
  | number {n : Numeral} (hn : n.WellSpelt) : Spells (.number n.value.toFloat) n.text
  | letWord : Spells .letWord ['l', 'e', 't']
  | identifier {first : Char} {rest : List Char}
      (hfirst : beginsWord first = true) (hrest : ∀ c ∈ rest, continuesWord c = true)
      (hlet : first :: rest ≠ ['l', 'e', 't']) :
      Spells (.identifier (String.ofList (first :: rest))) (first :: rest)
  | operator (op : Operator) : Spells (.operator op) [op.symbol]
  | openParen : Spells .openParen ['(']
  | closeParen : Spells .closeParen [')']
  | comma : Spells .comma [',']
  | equals : Spells .equals ['=']

/-- A token is spelt at the front of a text, and no token with a longer word is. -/
structure Longest (token : Token) (word text : List Char) : Prop where
  spells : token.Spells word
  front : word <+: text
  longest : ∀ other otherWord, Spells other otherWord → otherWord <+: text →
    otherWord.length ≤ word.length

/-! ## The three ways in which a word begins -/

theorem letter_of_beginsWord
    {c : Char} (h : beginsWord c = true) :
    65 ≤ c.toNat ∧ c.toNat ≤ 90 ∨ 97 ≤ c.toNat ∧ c.toNat ≤ 122 ∨ c.toNat = 95 := by
  have hranges : (decide (65 ≤ c.val ∧ c.val ≤ 90) ||
      (decide (97 ≤ c.val) && decide (c.val ≤ 122)) || c == '_') = true := h
  simp only [Bool.or_eq_true, Bool.and_eq_true, decide_eq_true_eq, beq_iff_eq,
    UInt32.le_iff_toNat_le] at hranges
  rcases hranges with (⟨hlow, hhigh⟩ | ⟨hlow, hhigh⟩) | rfl
  · exact .inl ⟨hlow, hhigh⟩
  · exact .inr (.inl ⟨hlow, hhigh⟩)
  · exact .inr (.inr rfl)

theorem beginsWord_or_isDigit_of_continuesWord
    {c : Char} (h : continuesWord c = true) : beginsWord c = true ∨ c.isDigit = true := by
  simp only [continuesWord, Char.isAlphanum, Bool.or_eq_true] at h
  rcases h with (h | h) | h
  · exact .inl (by simp [beginsWord, h])
  · exact .inr h
  · exact .inl (by simp [beginsWord, h])

theorem beginsWord_eq_false_of_isDigit
    {c : Char} (h : c.isDigit = true) : beginsWord c = false := by
  by_contra hword
  rw [Bool.not_eq_false] at hword
  have hdigit := Char.isDigit_iff_toNat.mp h
  have hletter := letter_of_beginsWord hword
  simp only [Char.reduceToNat] at hdigit
  omega

theorem ofChar?_eq_some
    {c : Char} {token : Token} (h : ofChar? c = some token) : token.Spells [c] := by
  unfold ofChar? at h
  split at h
  · cases h
    exact .openParen
  · cases h
    exact .closeParen
  · cases h
    exact .comma
  · cases h
    exact .equals
  · obtain ⟨op, hop, rfl⟩ := Option.map_eq_some_iff.mp h
    obtain rfl := Operator.ofSymbol?_eq_some_iff.mp hop
    exact .operator op

/-- The word at the front of a text that begins like one. -/
theorem ofWord_spells
    {c : Char} (h : beginsWord c = true) (rest : List Char) :
    (ofWord (c :: rest.takeWhile continuesWord)).Spells
      (c :: rest.takeWhile continuesWord) := by
  unfold ofWord
  split
  · rename_i hlet
    rw [hlet]
    exact .letWord
  · rename_i hlet
    exact .identifier h (fun d hd => List.all_eq_true.mp List.all_takeWhile d hd) hlet

theorem exists_text_eq_cons
    {n : Numeral} (h : n.WellSpelt) : ∃ c rest, n.text = c :: rest ∧ c.isDigit = true := by
  obtain ⟨c, rest, hwhole⟩ := List.exists_cons_of_ne_nil h.whole.1
  exact ⟨c, rest ++ fractionText n.fraction ++ exponentText n.exponent,
    by simp [Numeral.text, hwhole], h.whole.2 c (by simp [hwhole])⟩

theorem read?_of_digit
    {c : Char} (h : c.isDigit = true) (rest : List Char) :
    ∃ n after, Numeral.read? (c :: rest) = some (n, after) ∧
      read? (c :: rest) = some (.number n.value.toFloat, n.text, after) := by
  cases hread : Numeral.read? (c :: rest) with
  | none =>
      rw [Numeral.read?_eq_none_iff] at hread
      simp [h] at hread
  | some found => exact ⟨found.1, found.2, rfl, by simp [read?, hread]⟩

theorem numeral_read?_eq_none
    {c : Char} {rest : List Char} (h : c.isDigit = false) :
    Numeral.read? (c :: rest) = none :=
  Numeral.read?_eq_none_iff.mpr fun d hd => by
    obtain rfl : c = d := by simpa using hd
    exact h

theorem read?_of_beginsWord
    {c : Char} {rest : List Char} (hdigit : c.isDigit = false) (h : beginsWord c = true) :
    read? (c :: rest) =
      some (ofWord (c :: rest.takeWhile continuesWord), c :: rest.takeWhile continuesWord,
        rest.dropWhile continuesWord) := by
  simp [read?, numeral_read?_eq_none hdigit, h]

theorem read?_of_ofChar?
    {c : Char} {rest : List Char} (hdigit : c.isDigit = false) (h : beginsWord c = false) :
    read? (c :: rest) = (ofChar? c).map fun token => (token, [c], rest) := by
  simp [read?, numeral_read?_eq_none hdigit, h]

/-! ## Every word is read as its token -/

/-- The words `let` and all identifiers. -/
theorem read?_word
    {first : Char} {rest : List Char} (hfirst : beginsWord first = true)
    (hrest : ∀ c ∈ rest, continuesWord c = true) :
    read? (first :: rest) = some (ofWord (first :: rest), first :: rest, []) := by
  have hdigit : first.isDigit = false := by
    by_contra h
    rw [Bool.not_eq_false] at h
    simp [beginsWord_eq_false_of_isDigit h] at hfirst
  have htake : rest.takeWhile continuesWord = rest := List.takeWhile_eq_self_iff.mpr hrest
  have hdrop : rest.dropWhile continuesWord = [] := List.dropWhile_eq_nil_iff.mpr hrest
  rw [read?_of_beginsWord hdigit hfirst, htake, hdrop]

theorem continuesWord_of_mem_let : ∀ c ∈ ['e', 't'], continuesWord c = true := by
  intro c hc
  simp only [List.mem_cons, List.not_mem_nil, or_false] at hc
  rcases hc with rfl | rfl <;> rfl

theorem read?_of_spells
    {token : Token} {word : List Char} (h : token.Spells word) :
    read? word = some (token, word, []) := by
  cases h with
  | @number n hn =>
      obtain ⟨c, rest, htext, hc⟩ := exists_text_eq_cons hn
      obtain ⟨found, after, hnumeral, hread⟩ := read?_of_digit hc rest
      rw [← htext, Numeral.read?_text hn] at hnumeral
      cases hnumeral
      rw [htext, hread, ← htext]
  | letWord => exact read?_word rfl continuesWord_of_mem_let
  | identifier hfirst hrest hlet =>
      rw [read?_word hfirst hrest, ofWord, if_neg hlet]
  | operator op => cases op <;> rfl
  | openParen => rfl
  | closeParen => rfl
  | comma => rfl
  | equals => rfl

theorem spells_of_read?
    {text word rest : List Char} {token : Token} (h : read? text = some (token, word, rest)) :
    token.Spells word := by
  cases text with
  | nil => cases h
  | cons c after =>
      by_cases hdigit : c.isDigit = true
      · obtain ⟨n, afterNumeral, hnumeral, hread⟩ := read?_of_digit hdigit after
        rw [hread] at h
        cases h
        exact .number (Numeral.wellSpelt_of_read? hnumeral)
      · rw [Bool.not_eq_true] at hdigit
        by_cases hword : beginsWord c = true
        · rw [read?_of_beginsWord hdigit hword] at h
          cases h
          exact ofWord_spells hword after
        · rw [Bool.not_eq_true] at hword
          rw [read?_of_ofChar? hdigit hword] at h
          obtain ⟨found, hfound, hpair⟩ := Option.map_eq_some_iff.mp h
          cases hpair
          exact ofChar?_eq_some hfound

/-! ## The longest word -/

theorem spells_ne_nil {token : Token} {word : List Char} (h : token.Spells word) : word ≠ [] :=
  (read?_eq_some (read?_of_spells h)).2

/-- Whether a token is read depends on the first character alone. -/
theorem isSome_read?_cons (c : Char) (rest : List Char) :
    (read? (c :: rest)).isSome = (c.isDigit || beginsWord c || (ofChar? c).isSome) := by
  by_cases hdigit : c.isDigit = true
  · obtain ⟨n, after, -, hread⟩ := read?_of_digit hdigit rest
    simp [hread, hdigit]
  · rw [Bool.not_eq_true] at hdigit
    by_cases hword : beginsWord c = true
    · simp [read?_of_beginsWord hdigit hword, hword]
    · rw [Bool.not_eq_true] at hword
      simp [read?_of_ofChar? hdigit hword, hdigit, hword]

theorem read?_cons_eq_none_iff {c : Char} {rest : List Char} :
    read? (c :: rest) = none ↔ ∀ token word, ¬Spells token (c :: word) := by
  constructor
  · intro hnone token word hspells
    have hsome := isSome_read?_cons c word
    rw [read?_of_spells hspells, ← isSome_read?_cons c rest, hnone] at hsome
    cases hsome
  · intro hnone
    by_contra hread
    obtain ⟨⟨token, word, after⟩, hread⟩ := Option.ne_none_iff_exists'.mp hread
    obtain ⟨htext, hne⟩ := read?_eq_some hread
    obtain ⟨first, others, rfl⟩ := List.exists_cons_of_ne_nil hne
    obtain rfl : first = c := (List.cons.inj htext).1
    exact hnone token others (spells_of_read? hread)

theorem isDigit_eq_false_of_beginsWord
    {c : Char} (h : beginsWord c = true) : c.isDigit = false := by
  by_contra hdigit
  rw [Bool.not_eq_false] at hdigit
  simp [beginsWord_eq_false_of_isDigit hdigit] at h

theorem length_le_of_word
    {token : Token} {word after rest : List Char} {first : Char} {others : List Char}
    (hfirst : beginsWord first = true) (hothers : ∀ c ∈ others, continuesWord c = true)
    (hread : read? (first :: others ++ after) = some (token, word, rest)) :
    (first :: others).length ≤ word.length := by
  rw [List.cons_append,
    read?_of_beginsWord (isDigit_eq_false_of_beginsWord hfirst) hfirst,
    List.takeWhile_append_of_pos hothers] at hread
  cases hread
  simp

/-- No word at the front of a text is longer than the one that is read. -/
theorem length_le_of_spells
    {token other : Token} {word otherWord text rest : List Char}
    (hread : read? text = some (token, word, rest)) (hspells : other.Spells otherWord)
    (hfront : otherWord <+: text) : otherWord.length ≤ word.length := by
  have hpos := List.length_pos_iff.mpr (read?_eq_some hread).2
  cases hspells with
  | @number n hn =>
      obtain ⟨c, others, htext, hc⟩ := exists_text_eq_cons hn
      obtain ⟨after, rfl⟩ := id hfront
      rw [htext, List.cons_append] at hread hfront
      obtain ⟨found, afterFound, hnumeral, hfound⟩ := read?_of_digit hc (others ++ after)
      rw [hfound] at hread
      cases hread
      exact Numeral.length_le_of_read? hn (htext ▸ hfront) hnumeral
  | letWord =>
      obtain ⟨after, rfl⟩ := hfront
      exact length_le_of_word rfl continuesWord_of_mem_let hread
  | identifier hfirst hrest =>
      obtain ⟨after, rfl⟩ := hfront
      exact length_le_of_word hfirst hrest hread
  | operator => exact hpos
  | openParen => exact hpos
  | closeParen => exact hpos
  | comma => exact hpos
  | equals => exact hpos

theorem longest_of_read?
    {token : Token} {word text rest : List Char} (h : read? text = some (token, word, rest)) :
    Longest token word text :=
  ⟨spells_of_read? h, ⟨rest, (read?_eq_some h).1⟩, fun _ _ => length_le_of_spells h⟩

/-- A word is spelt by one token only. -/
theorem eq_of_spells
    {token other : Token} {word : List Char} (h : token.Spells word) (hother : other.Spells word) :
    token = other := by
  have hread := read?_of_spells h
  rw [read?_of_spells hother] at hread
  cases hread
  rfl

/-- What is read is exactly the longest word at the front. -/
theorem read?_eq_some_iff {token : Token} {word text rest : List Char} :
    read? text = some (token, word, rest) ↔ Longest token word text ∧ word ++ rest = text := by
  constructor
  · intro hread
    exact ⟨longest_of_read? hread, (read?_eq_some hread).1⟩
  · rintro ⟨hlongest, rfl⟩
    cases hread : read? (word ++ rest) with
    | none =>
        obtain ⟨c, others, rfl⟩ := List.exists_cons_of_ne_nil (spells_ne_nil hlongest.spells)
        exact absurd hlongest.spells (read?_cons_eq_none_iff.mp hread token others)
    | some found =>
        obtain ⟨foundToken, foundWord, after⟩ := found
        have hfound := longest_of_read? hread
        have hlength : foundWord.length = word.length :=
          Nat.le_antisymm
            (hlongest.longest _ _ hfound.spells hfound.front)
            (hfound.longest _ _ hlongest.spells hlongest.front)
        obtain ⟨rfl, rfl⟩ := List.append_inj (read?_eq_some hread).1 hlength
        rw [eq_of_spells hfound.spells hlongest.spells]

/-! ## Blanks begin no word -/

theorem isSkipped_eq_false_of_spells
    {token : Token} {c : Char} {rest : List Char} (h : token.Spells (c :: rest)) :
    isSkipped c = false := by
  by_contra hskipped
  have hsome := isSome_read?_cons c rest
  rw [read?_of_spells h, Option.isSome_some] at hsome
  simp only [isSkipped, Bool.not_eq_false, Bool.or_eq_true, beq_iff_eq] at hskipped
  rcases hskipped with (((rfl | rfl) | rfl) | rfl) | rfl <;> exact absurd hsome (by decide)

/-! ## Words are spelt in ASCII -/

theorem toNat_lt_of_isDigit {c : Char} (h : c.isDigit = true) : c.toNat < 128 := by
  have hdigit := Char.isDigit_iff_toNat.mp h
  simp only [Char.reduceToNat] at hdigit
  omega

theorem toNat_lt_of_beginsWord {c : Char} (h : beginsWord c = true) : c.toNat < 128 := by
  have hletter := letter_of_beginsWord h
  omega

theorem toNat_lt_of_continuesWord {c : Char} (h : continuesWord c = true) : c.toNat < 128 := by
  rcases beginsWord_or_isDigit_of_continuesWord h with hword | hdigit
  · exact toNat_lt_of_beginsWord hword
  · exact toNat_lt_of_isDigit hdigit

theorem continuesWord_of_isDigit {c : Char} (h : c.isDigit = true) : continuesWord c = true := by
  simp [continuesWord, Char.isAlphanum, h]

/-- Besides letters and digits, a literal has only its point and a sign. -/
theorem continuesWord_of_mem_numeral
    {n : Numeral} (hn : n.WellSpelt) {c : Char} (hc : c ∈ n.text) :
    continuesWord c = true ∨ c ∈ ['.', '+', '-'] := by
  simp only [Numeral.text, List.mem_append] at hc
  rcases hc with (hc | hc) | hc
  · exact .inl (continuesWord_of_isDigit (hn.whole.2 c hc))
  · cases hfraction : n.fraction with
    | none => simp [hfraction, fractionText] at hc
    | some digits =>
        rw [hfraction, fractionText, List.mem_cons] at hc
        rcases hc with rfl | hc
        · exact .inr (by decide)
        · exact .inl (continuesWord_of_isDigit ((hn.fraction digits hfraction).2 c hc))
  · cases hexponent : n.exponent with
    | none => simp [hexponent, exponentText] at hc
    | some e =>
        have he := hn.exponent e hexponent
        simp only [hexponent, exponentText, Exponent.text, List.mem_cons, List.mem_append,
          Option.mem_toList] at hc
        rcases hc with rfl | hc | hc
        · have hmark := he.mark
          simp only [isExponentMark, Bool.or_eq_true, beq_iff_eq] at hmark
          rcases hmark with hmark | hmark
          · exact .inl (by rw [hmark]; decide)
          · exact .inl (by rw [hmark]; decide)
        · have hsign := he.sign c hc
          simp only [isSign, Bool.or_eq_true, beq_iff_eq] at hsign
          rcases hsign with rfl | rfl
          · exact .inr (by decide)
          · exact .inr (by decide)
        · exact .inl (continuesWord_of_isDigit (he.digits.2 c hc))

theorem toNat_lt_of_mem_numeral
    {n : Numeral} (hn : n.WellSpelt) {c : Char} (hc : c ∈ n.text) : c.toNat < 128 := by
  rcases continuesWord_of_mem_numeral hn hc with hword | hmark
  · exact toNat_lt_of_continuesWord hword
  · simp only [List.mem_cons, List.not_mem_nil, or_false] at hmark
    rcases hmark with rfl | rfl | rfl <;> decide

theorem toNat_lt_of_mem_word
    {token : Token} {word : List Char} (h : token.Spells word) {c : Char} (hc : c ∈ word) :
    c.toNat < 128 := by
  cases h with
  | number hn => exact toNat_lt_of_mem_numeral hn hc
  | letWord =>
      rcases List.mem_cons.mp hc with rfl | hc
      · decide
      · exact toNat_lt_of_continuesWord (continuesWord_of_mem_let c hc)
  | identifier hfirst hrest =>
      rcases List.mem_cons.mp hc with rfl | hc
      · exact toNat_lt_of_beginsWord hfirst
      · exact toNat_lt_of_continuesWord (hrest c hc)
  | operator op =>
      obtain rfl := List.mem_singleton.mp hc
      cases op <;> decide
  | openParen | closeParen | comma | equals =>
      obtain rfl := List.mem_singleton.mp hc
      decide

end Token

end Calculator
