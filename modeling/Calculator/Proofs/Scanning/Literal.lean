import Mathlib.Tactic.ByContra
import Calculator.Numeral

/-!
# The longest literal

A literal is well spelt when its parts are what the language asks for: digits, perhaps a point and
digits, perhaps an exponent.  What is read at the front of a text is such a literal, and no longer
one stands there.  The argument is in `read?_text_append`: put before any text, a well-spelt
literal is read as it was written, unless the text after it makes a longer one.
-/

namespace Calculator.Numeral

/-- At least one character, and digits only. -/
def IsDigits (text : List Char) : Prop :=
  text ≠ [] ∧ ∀ c ∈ text, c.isDigit = true

structure Exponent.WellSpelt (e : Exponent) : Prop where
  mark : isExponentMark e.mark = true
  sign : ∀ c ∈ e.sign, isSign c = true
  digits : IsDigits e.digits

structure WellSpelt (n : Numeral) : Prop where
  whole : IsDigits n.whole
  fraction : ∀ digits ∈ n.fraction, IsDigits digits
  exponent : ∀ e ∈ n.exponent, e.WellSpelt

/-! ## Characters that part the pieces of a literal -/

theorem isDigit_eq_false_of_isExponentMark
    {c : Char} (h : isExponentMark c = true) : c.isDigit = false := by
  simp only [isExponentMark, Bool.or_eq_true, beq_iff_eq] at h
  rcases h with rfl | rfl
  · rfl
  · rfl

theorem isDigit_eq_false_of_isSign
    {c : Char} (h : isSign c = true) : c.isDigit = false := by
  simp only [isSign, Bool.or_eq_true, beq_iff_eq] at h
  rcases h with rfl | rfl
  · rfl
  · rfl

theorem ne_point_of_isExponentMark
    {c : Char} (h : isExponentMark c = true) : c ≠ '.' := by
  rintro rfl
  simp [isExponentMark] at h

/-! ## What is read is well spelt -/

theorem isDigits_of_digits?
    {text digits rest : List Char} (h : digits? text = some (digits, rest)) :
    IsDigits digits := by
  obtain ⟨-, hne, hdigits⟩ := digits?_eq_some h
  exact ⟨hne, hdigits⟩

theorem isDigits_of_fraction?
    {text digits rest : List Char} (h : fraction? text = some (digits, rest)) :
    IsDigits digits := by
  unfold fraction? at h
  split at h
  · exact isDigits_of_digits? h
  · cases h

theorem isSign_of_mem_sign
    {text : List Char} {c : Char} (h : c ∈ (sign text).1) : isSign c = true := by
  unfold sign at h
  split at h
  · cases h
  · split at h
    · rename_i hsign
      obtain rfl := Option.some.inj h
      exact hsign
    · cases h

theorem wellSpelt_of_exponent?
    {text rest : List Char} {e : Exponent} (h : exponent? text = some (e, rest)) :
    e.WellSpelt := by
  unfold exponent? at h
  split at h
  · cases h
  · split at h
    · rename_i hmark
      split at h
      · rename_i hdigits
        cases h
        exact ⟨hmark, fun c hc => isSign_of_mem_sign hc, isDigits_of_digits? hdigits⟩
      · cases h
    · cases h

/-- A part that may be missing inherits what holds of it when it is there. -/
theorem optional_mem
    {α : Type} {read? : List Char → Option (α × List Char)} {text : List Char} {a : α}
    (h : a ∈ (optional read? text).1) : ∃ rest, read? text = some (a, rest) := by
  unfold optional at h
  split at h
  · rename_i found rest hread
    obtain rfl := Option.some.inj h
    exact ⟨rest, hread⟩
  · cases h

theorem wellSpelt_of_read?
    {text rest : List Char} {n : Numeral} (h : read? text = some (n, rest)) :
    n.WellSpelt := by
  unfold read? at h
  split at h
  · rename_i whole afterWhole hwhole
    cases h
    refine ⟨isDigits_of_digits? hwhole, ?_, ?_⟩
    · intro digits hdigits
      obtain ⟨_, hread⟩ := optional_mem hdigits
      exact isDigits_of_fraction? hread
    · intro e he
      obtain ⟨_, hread⟩ := optional_mem he
      exact wellSpelt_of_exponent? hread
  · cases h

/-! ## Reading a literal back -/

theorem digits?_append
    {digits : List Char} (h : IsDigits digits) (rest : List Char) :
    digits? (digits ++ rest) =
      some (digits ++ rest.takeWhile Char.isDigit, rest.dropWhile Char.isDigit) := by
  have htake : (digits ++ rest).takeWhile Char.isDigit =
      digits ++ rest.takeWhile Char.isDigit :=
    List.takeWhile_append_of_pos h.2
  have hdrop : (digits ++ rest).dropWhile Char.isDigit = rest.dropWhile Char.isDigit :=
    List.dropWhile_append_of_pos h.2
  have hne : digits ++ rest.takeWhile Char.isDigit ≠ [] := by
    intro hnil
    exact h.1 (List.append_eq_nil_iff.mp hnil).1
  simp only [digits?, htake, hdrop, if_neg hne]

/-- Digits are read as they stand if no digit comes after them. -/
theorem digits?_append_of_stop
    {digits rest : List Char} (h : IsDigits digits)
    (hrest : ∀ c ∈ rest.head?, c.isDigit = false) :
    digits? (digits ++ rest) = some (digits, rest) := by
  rw [digits?_append h]
  cases rest with
  | nil => simp
  | cons c rest =>
      have hc : c.isDigit = false := hrest c rfl
      simp [hc]

theorem fraction?_point (text : List Char) : fraction? ('.' :: text) = digits? text := rfl

theorem fraction?_eq_none
    {text : List Char} (h : ∀ c ∈ text.head?, c ≠ '.') : fraction? text = none := by
  unfold fraction?
  split
  · exact absurd rfl (h '.' rfl)
  · rfl

theorem optional_fraction?_append
    {fraction : Option (List Char)} {rest : List Char}
    (h : ∀ digits ∈ fraction, IsDigits digits)
    (hrest : ∀ c ∈ rest.head?, c.isDigit = false ∧ c ≠ '.') :
    optional fraction? (fractionText fraction ++ rest) = (fraction, rest) := by
  cases fraction with
  | none =>
      have hnone : fraction? rest = none :=
        fraction?_eq_none fun c hc => (hrest c hc).2
      simp [fractionText, optional, hnone]
  | some digits =>
      have hread : digits? (digits ++ rest) = some (digits, rest) :=
        digits?_append_of_stop (h digits rfl) fun c hc => (hrest c hc).1
      simp [fractionText, optional, fraction?_point, hread]

theorem sign_append
    {mark : Option Char} {text : List Char} (hmark : ∀ c ∈ mark, isSign c = true)
    (htext : ∀ c ∈ text.head?, isSign c = false) :
    sign (mark.toList ++ text) = (mark, text) := by
  cases mark with
  | none =>
      cases text with
      | nil => rfl
      | cons c rest => simp [sign, htext c rfl]
  | some c => simp [sign, hmark c rfl]

theorem exponent?_append
    {e : Exponent} (h : e.WellSpelt) (rest : List Char) :
    exponent? (e.text ++ rest) =
      some ({ e with digits := e.digits ++ rest.takeWhile Char.isDigit },
        rest.dropWhile Char.isDigit) := by
  have hhead : ∀ c ∈ (e.digits ++ rest).head?, isSign c = false := by
    intro c hc
    obtain ⟨first, others, hdigits⟩ := List.exists_cons_of_ne_nil h.digits.1
    have hfirst : first.isDigit = true := h.digits.2 first (by simp [hdigits])
    obtain rfl : first = c := by simpa [hdigits] using hc
    by_contra hsign
    have hfalse := isDigit_eq_false_of_isSign (Bool.not_eq_false _ ▸ hsign)
    simp [hfirst] at hfalse
  have hsign := sign_append h.sign hhead
  simp [Exponent.text, exponent?, h.mark, hsign, digits?_append h.digits]

/-- The first character after the whole part is no digit. -/
theorem isDigit_head_tail_eq_false
    {n : Numeral} (h : n.WellSpelt) (rest : List Char)
    (hne : n.fraction ≠ none ∨ n.exponent ≠ none) :
    ∀ c ∈ (fractionText n.fraction ++ (exponentText n.exponent ++ rest)).head?,
      c.isDigit = false := by
  intro c hc
  cases hfraction : n.fraction with
  | some digits =>
      obtain rfl : '.' = c := by simpa [hfraction, fractionText] using hc
      rfl
  | none =>
      cases hexponent : n.exponent with
      | some e =>
          obtain rfl : e.mark = c := by
            simpa [hfraction, hexponent, fractionText, exponentText, Exponent.text] using hc
          exact isDigit_eq_false_of_isExponentMark (h.exponent e hexponent).mark
      | none => simp [hfraction, hexponent] at hne

theorem length_text (n : Numeral) :
    n.text.length =
      n.whole.length + (fractionText n.fraction).length + (exponentText n.exponent).length := by
  simp only [Numeral.text, List.length_append]

/-- Nothing is dropped where nothing is taken. -/
theorem dropWhile_eq_self_of_takeWhile_eq_nil
    {p : Char → Bool} {text : List Char} (h : text.takeWhile p = []) :
    text.dropWhile p = text := by
  have hwhole := List.takeWhile_append_dropWhile (p := p) (l := text)
  simpa [h] using hwhole

/-- A missing part stays missing, or the text after it makes the literal longer. -/
theorem optional_cases
    {α : Type} (read? : List Char → Option (α × List Char)) (text : List Char) :
    optional read? text = (none, text) ∨ ∃ a rest, optional read? text = (some a, rest) := by
  cases h : read? text with
  | none => exact .inl (by simp [optional, h])
  | some found => exact .inr ⟨found.1, found.2, by simp [optional, h]⟩

theorem read?_append_of_exponent
    {n : Numeral} (h : n.WellSpelt) {e : Exponent} (he : n.exponent = some e)
    (rest : List Char) :
    read? (n.text ++ rest) =
      some ({ n with
          exponent := some { e with digits := e.digits ++ rest.takeWhile Char.isDigit } },
        rest.dropWhile Char.isDigit) := by
  have hmark := (h.exponent e he).mark
  have hwhole := digits?_append_of_stop h.whole
    (isDigit_head_tail_eq_false h rest (.inr (by simp [he])))
  have hfraction : optional fraction? (fractionText n.fraction ++ (e.text ++ rest)) =
      (n.fraction, e.text ++ rest) := by
    apply optional_fraction?_append h.fraction
    intro c hc
    obtain rfl : e.mark = c := by simpa [Exponent.text] using hc
    exact ⟨isDigit_eq_false_of_isExponentMark hmark, ne_point_of_isExponentMark hmark⟩
  have hexponent : optional exponent? (e.text ++ rest) =
      (some { e with digits := e.digits ++ rest.takeWhile Char.isDigit },
        rest.dropWhile Char.isDigit) := by
    simp only [optional, exponent?_append (h.exponent e he) rest]
  simp only [he, exponentText] at hwhole
  simp [read?, Numeral.text, he, exponentText, hwhole, hfraction, hexponent]

theorem read?_append_of_fraction
    {n : Numeral} (h : n.WellSpelt) {digits : List Char} (hdigits : n.fraction = some digits)
    (hexponent : n.exponent = none) (rest : List Char) :
    read? (n.text ++ rest) =
      some (⟨n.whole, some (digits ++ rest.takeWhile Char.isDigit),
          (optional exponent? (rest.dropWhile Char.isDigit)).1⟩,
        (optional exponent? (rest.dropWhile Char.isDigit)).2) := by
  have hwhole := digits?_append_of_stop h.whole
    (isDigit_head_tail_eq_false h rest (.inl (by simp [hdigits])))
  have hfraction : optional fraction? ('.' :: (digits ++ rest)) =
      (some (digits ++ rest.takeWhile Char.isDigit), rest.dropWhile Char.isDigit) := by
    simp only [optional, fraction?_point, digits?_append (h.fraction digits hdigits) rest]
  simp only [hdigits, hexponent, fractionText, exponentText, List.nil_append,
    List.cons_append] at hwhole
  simp [read?, Numeral.text, hdigits, hexponent, fractionText, exponentText, hwhole, hfraction]

theorem read?_append_of_whole
    {n : Numeral} (h : n.WellSpelt) (hfraction : n.fraction = none)
    (hexponent : n.exponent = none) (rest : List Char) :
    read? (n.text ++ rest) =
      some (⟨n.whole ++ rest.takeWhile Char.isDigit,
          (optional fraction? (rest.dropWhile Char.isDigit)).1,
          (optional exponent? (optional fraction? (rest.dropWhile Char.isDigit)).2).1⟩,
        (optional exponent? (optional fraction? (rest.dropWhile Char.isDigit)).2).2) := by
  simp [read?, Numeral.text, hfraction, hexponent, fractionText, exponentText,
    digits?_append h.whole]

/-- A well-spelt literal is read as it was written, unless the text after it makes it longer. -/
theorem read?_text_append
    {n : Numeral} (h : n.WellSpelt) (rest : List Char) :
    ∃ found after, read? (n.text ++ rest) = some (found, after) ∧
      (found = n ∧ after = rest ∨ n.text.length < found.text.length) := by
  obtain ⟨whole, fraction, exponent⟩ := n
  by_cases hmore : rest.takeWhile Char.isDigit = []
  · have hdrop := dropWhile_eq_self_of_takeWhile_eq_nil hmore
    cases exponent with
    | some e =>
        refine ⟨_, _, read?_append_of_exponent h rfl rest, .inl ?_⟩
        simp [hmore, hdrop]
    | none =>
        cases fraction with
        | some digits =>
            refine ⟨_, _, read?_append_of_fraction h rfl rfl rest, ?_⟩
            rw [hmore, hdrop, List.append_nil]
            rcases optional_cases exponent? rest with hnone | ⟨e, after, hsome⟩
            · left
              simp [hnone]
            · right
              simp [hsome, length_text, fractionText, exponentText, Exponent.text]
        | none =>
            refine ⟨_, _, read?_append_of_whole h rfl rfl rest, ?_⟩
            rw [hmore, hdrop, List.append_nil]
            rcases optional_cases fraction? rest with hnone | ⟨digits, after, hsome⟩
            · rcases optional_cases exponent? rest with hnone' | ⟨e, after, hsome⟩
              · left
                simp [hnone, hnone']
              · right
                simp [hnone, hsome, length_text, fractionText, exponentText, Exponent.text]
            · right
              simp only [hsome, length_text, fractionText, exponentText, List.length_cons,
                List.length_nil]
              omega
  · -- More digits after the literal belong to its last part, whichever that is.
    have hpos := List.length_pos_iff.mpr hmore
    cases exponent with
    | some e =>
        refine ⟨_, _, read?_append_of_exponent h rfl rest, .inr ?_⟩
        simp only [length_text, exponentText, Exponent.text, List.length_cons,
          List.length_append]
        omega
    | none =>
        cases fraction with
        | some digits =>
            refine ⟨_, _, read?_append_of_fraction h rfl rfl rest, .inr ?_⟩
            simp only [length_text, fractionText, exponentText, List.length_cons,
              List.length_append, List.length_nil]
            omega
        | none =>
            refine ⟨_, _, read?_append_of_whole h rfl rfl rest, .inr ?_⟩
            simp only [length_text, fractionText, exponentText, List.length_append,
              List.length_nil]
            omega

/-- A literal on its own is read as it was written. -/
theorem read?_text {n : Numeral} (h : n.WellSpelt) : read? n.text = some (n, []) := by
  obtain ⟨found, after, hread, hcases⟩ := read?_text_append h []
  rw [List.append_nil] at hread
  rcases hcases with ⟨rfl, rfl⟩ | hlonger
  · exact hread
  · have hwhole := congrArg List.length (read?_eq_some hread).1
    rw [List.length_append] at hwhole
    omega

/-- No well-spelt literal at the front of a text is longer than the one that is read. -/
theorem length_le_of_read?
    {text rest : List Char} {n found : Numeral} (hn : n.WellSpelt)
    (hfront : n.text <+: text) (hread : read? text = some (found, rest)) :
    n.text.length ≤ found.text.length := by
  obtain ⟨after, rfl⟩ := hfront
  obtain ⟨found', after', hread', hcases⟩ := read?_text_append hn after
  obtain ⟨rfl, rfl⟩ : found' = found ∧ after' = rest := by
    simpa [hread'] using hread
  rcases hcases with ⟨rfl, -⟩ | hlonger
  · exact Nat.le_refl _
  · exact Nat.le_of_lt hlonger

/-- A literal is read wherever a digit stands. -/
theorem read?_eq_none_iff {text : List Char} :
    read? text = none ↔ ∀ c ∈ text.head?, c.isDigit = false := by
  cases text with
  | nil => simp [read?, digits?]
  | cons c rest =>
      by_cases hc : c.isDigit = true
      · simp [read?, digits?, hc]
      · simp [read?, digits?, hc]

end Calculator.Numeral
