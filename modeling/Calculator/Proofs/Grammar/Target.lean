import Calculator.Memory.Parse
import Calculator.Proofs.Grammar.Derivation
import Calculator.Proofs.Scanning.Line
import Calculator.Proofs.VariableName

/-!
# The target of an assignment

The target of an assignment is read off the text of the line, from the lexeme after `let` up to the
first `=`.  It may name a variable exactly if a single lexeme stands there, which is that name: the
longest word at its place ends where the name ends, and only blanks are left up to `=`.
-/

namespace Calculator

namespace Text

/-! ## Blanks at the ends of a text -/

theorem isBlank_of_isSkipped {c : Char} (h : isSkipped c = true) : isBlank c = true := by
  simp only [isSkipped, Bool.or_eq_true, beq_iff_eq] at h
  rcases h with (((rfl | rfl) | rfl) | rfl) | rfl <;> decide

/-- Blanks are control characters, the space, or not ASCII. -/
theorem isBlank_eq_false_of_visible
    {c : Char} (hlow : 33 ≤ c.toNat) (hhigh : c.toNat < 128) : isBlank c = false := by
  simp only [isBlank, blankRanges, List.any_cons, List.any_nil, Bool.or_false, Bool.or_eq_false_iff,
    Bool.and_eq_false_iff, decide_eq_false_iff_not]
  omega

theorem isBlank_eq_false_of_isDigit {c : Char} (h : c.isDigit = true) : isBlank c = false := by
  have hdigit := Char.isDigit_iff_toNat.mp h
  simp only [Char.reduceToNat] at hdigit
  exact isBlank_eq_false_of_visible (by omega) (by omega)

theorem isBlank_eq_false_of_beginsWord
    {c : Char} (h : beginsWord c = true) : isBlank c = false := by
  have hletter := Token.letter_of_beginsWord h
  exact isBlank_eq_false_of_visible (by omega) (by omega)

theorem isBlank_eq_false_of_continuesWord
    {c : Char} (h : continuesWord c = true) : isBlank c = false := by
  rcases Token.beginsWord_or_isDigit_of_continuesWord h with hword | hdigit
  · exact isBlank_eq_false_of_beginsWord hword
  · exact isBlank_eq_false_of_isDigit hdigit

theorem isBlank_eq_false_of_spells
    {token : Token} {c : Char} {rest : List Char} (h : token.Spells (c :: rest)) :
    isBlank c = false := by
  have hsome := Token.isSome_read?_cons c rest
  rw [Token.read?_of_spells h, Option.isSome_some] at hsome
  simp only [Bool.true_eq, Bool.or_eq_true] at hsome
  rcases hsome with (hdigit | hword) | hsymbol
  · exact isBlank_eq_false_of_isDigit hdigit
  · exact isBlank_eq_false_of_beginsWord hword
  · obtain ⟨symbol, hsymbol⟩ := Option.isSome_iff_exists.mp hsymbol
    unfold Token.ofChar? at hsymbol
    split at hsymbol
    · decide
    · decide
    · decide
    · decide
    · obtain ⟨op, hop, -⟩ := Option.map_eq_some_iff.mp hsymbol
      obtain rfl := Operator.ofSymbol?_eq_some_iff.mp hop
      cases op <;> decide

theorem skipBlanks_of_head
    {text : List Char} (h : ∀ c ∈ text.head?, isBlank c = false) : skipBlanks text = text := by
  cases text with
  | nil => rfl
  | cons c rest => simp [skipBlanks, h c rfl]

/-- Blanks after a text that begins and ends with something else are trimmed away. -/
theorem trim_append
    {word blanks : List Char} (hword : ∀ c ∈ word, isBlank c = false) (hne : word ≠ [])
    (hblanks : ∀ c ∈ blanks, isBlank c = true) : trim (word ++ blanks) = word := by
  have hfirst : ∀ c ∈ (word ++ blanks).head?, isBlank c = false := by
    obtain ⟨first, rest, rfl⟩ := List.exists_cons_of_ne_nil hne
    rintro c ⟨⟩
    exact hword first List.mem_cons_self
  have hlast : ∀ c ∈ word.reverse.head?, isBlank c = false :=
    fun c hc => hword c (List.mem_reverse.mp (List.mem_of_head? hc))
  have hskip : skipBlanks (blanks.reverse ++ word.reverse) = skipBlanks word.reverse :=
    List.dropWhile_append_of_pos fun c hc => hblanks c (List.mem_reverse.mp hc)
  rw [trim, skipBlanks_of_head hfirst, List.reverse_append, hskip, skipBlanks_of_head hlast,
    List.reverse_reverse]

/-- A text that does not begin with a blank is its trimmed form with blanks after it. -/
theorem exists_eq_trim_append
    {text : List Char} (hfirst : ∀ c ∈ text.head?, isBlank c = false) :
    ∃ blanks, text = trim text ++ blanks ∧ ∀ c ∈ blanks, isBlank c = true := by
  refine ⟨(text.reverse.takeWhile isBlank).reverse, ?_, ?_⟩
  · rw [trim, skipBlanks_of_head hfirst, skipBlanks, ← List.reverse_append,
      List.takeWhile_append_dropWhile, List.reverse_reverse]
  · intro c hc
    exact List.mem_takeWhile_imp (List.mem_reverse.mp hc)

end Text

/-! ## The name between `let` and `=` -/

theorem Token.Longest.eq_ofWord
    {token : Token} {word after : List Char} {first : Char} {rest : List Char}
    (h : token.Longest word (first :: rest ++ after)) (hfirst : Text.beginsWord first = true)
    (hrest : ∀ c ∈ rest, Text.continuesWord c = true)
    (hafter : ∀ c ∈ after.head?, Text.continuesWord c = false) :
    token = ofWord (first :: rest) ∧ word = first :: rest := by
  obtain ⟨others, hfront⟩ := h.front
  have hread := Token.read?_eq_some_iff.mpr ⟨h, hfront⟩
  have htake : (rest ++ after).takeWhile Text.continuesWord = rest := by
    have hnone : after.takeWhile Text.continuesWord = [] := by
      cases after with
      | nil => rfl
      | cons c cs => simp [hafter c rfl]
    rw [List.takeWhile_append_of_pos hrest, hnone, List.append_nil]
  rw [List.cons_append,
    Token.read?_of_beginsWord (Token.isDigit_eq_false_of_beginsWord hfirst) hfirst, htake] at hread
  cases hread
  exact ⟨rfl, rfl⟩

theorem Token.spells_identifier
    {name : String} {word : List Char} (h : (Token.identifier name).Spells word) :
    word = name.toList ∧ ∀ c ∈ word, Text.continuesWord c = true := by
  cases h with
  | @identifier first rest hfirst hrest hlet =>
      refine ⟨(String.toList_ofList).symm, ?_⟩
      intro c hc
      rcases List.mem_cons.mp hc with rfl | hc
      · exact Text.continuesWord_of_beginsWord hfirst
      · exact hrest c hc

section Target

variable {line : String} {start stop : Nat} {lexemes value : List Lexeme} {l equals : Lexeme}

theorem drop_position_of_longest
    {text : List Char} (h : l.token.Longest l.text.toList (text.drop l.position)) :
    text.drop l.position = l.text.toList ++ text.drop l.stop := by
  obtain ⟨after, hafter⟩ := h.front
  rw [l.stop_eq, ← List.drop_drop, ← hafter, List.drop_left]

/-- What stands from a lexeme up to a later place, if only blanks come between. -/
theorem toList_slice_of_blankBetween
    (h : l.token.Longest l.text.toList (line.toList.drop l.position)) (hstop : l.stop ≤ stop)
    (hblank : BlankBetween line.toList l.stop stop) :
    ∃ blanks, (slice line l.position stop).toList = l.text.toList ++ blanks ∧
      ∀ c ∈ blanks, Text.isBlank c = true := by
  refine ⟨(line.toList.drop l.stop).take (stop - l.stop), ?_, ?_⟩
  · have hlength := l.stop_eq
    rw [slice, String.toList_ofList, drop_position_of_longest h, List.take_append,
      List.take_of_length_le (by omega)]
    congr 2
    omega
  · intro c hc
    obtain ⟨i, hi⟩ := List.mem_iff_getElem?.mp hc
    rw [List.getElem?_take] at hi
    split at hi
    · rw [List.getElem?_drop] at hi
      exact Text.isBlank_of_isSkipped (hblank (l.stop + i) (by omega) (by omega) c hi)
    · cases hi

/-- A single name before `=` is the target. -/
theorem targetText_of_name
    {name : String} {target : Terminal (.identifier name)}
    (h : LongestMatch line.toList start stop (target.1 :: equals :: value)) :
    targetText line (target.1 :: equals :: value) equals.position = name := by
  obtain ⟨-, -, hlongest, hrest⟩ := LongestMatch.cons_iff.mp h
  obtain ⟨hle, hblank, -, -⟩ := LongestMatch.cons_iff.mp hrest
  obtain ⟨blanks, hslice, hblanks⟩ := toList_slice_of_blankBetween hlongest hle hblank
  have hspells := hlongest.spells
  rw [target.2] at hspells
  have hne := Token.spells_ne_nil hspells
  obtain ⟨hname, hword⟩ := Token.spells_identifier hspells
  have htrim := Text.trim_append (fun c hc => Text.isBlank_eq_false_of_continuesWord (hword c hc))
    hne hblanks
  rw [targetText, hslice, htrim, hname, String.ofList_toList]

theorem token_of_dropWhile
    (h : lexemes.dropWhile (!·.isEquals) = equals :: value) : equals.token = .equals := by
  have hhead := List.head?_dropWhile_not (!Lexeme.isEquals ·) lexemes
  rw [h] at hhead
  simpa [Lexeme.isEquals] using hhead

theorem exists_head_of_longest
    {text : List Char} (h : l.token.Longest l.text.toList (text.drop l.position)) :
    ∃ c, text[l.position]? = some c ∧ ∃ rest, l.token.Spells (c :: rest) := by
  obtain ⟨c, rest, hword⟩ := List.exists_cons_of_ne_nil (Token.spells_ne_nil h.spells)
  obtain ⟨after, hafter⟩ := h.front
  have hget : (text.drop l.position)[0]? = some c := by rw [← hafter, hword]; rfl
  rw [List.getElem?_drop, Nat.add_zero] at hget
  exact ⟨c, hget, rest, hword ▸ h.spells⟩

/-- The name before `=` begins where the first lexeme after `let` begins. -/
theorem exists_toList_slice_eq
    (hfirst : l.token.Longest l.text.toList (line.toList.drop l.position))
    (hstop : l.position < stop) :
    ∃ blanks, (slice line l.position stop).toList =
        Text.trim (slice line l.position stop).toList ++ blanks ∧
      ∀ c ∈ blanks, Text.isBlank c = true := by
  apply Text.exists_eq_trim_append
  intro c hc
  obtain ⟨d, hd, rest, hspells⟩ := exists_head_of_longest hfirst
  rw [slice, String.toList_ofList, List.head?_take, if_neg (by omega), List.head?_drop, hd] at hc
  cases hc
  exact Text.isBlank_eq_false_of_spells hspells

/-- If only blanks stand before the first `=`, it is the first lexeme. -/
theorem eq_of_dropWhile_of_blank
    {blanks : List Char} (h : LongestMatch line.toList start stop lexemes)
    (hvalue : lexemes.dropWhile (!·.isEquals) = equals :: value)
    (hdrop : line.toList.drop start = blanks ++ line.toList.drop equals.position)
    (hblanks : ∀ c ∈ blanks, Text.isBlank c = true) : lexemes = equals :: value := by
  cases lexemes with
  | nil => cases hvalue
  | cons first others =>
      by_cases hequals : first.isEquals = true
      · rw [List.dropWhile_cons_of_neg (by simp [hequals])] at hvalue
        exact hvalue
      · rw [List.dropWhile_cons_of_pos (by simp [hequals])] at hvalue
        exfalso
        have hmem : equals ∈ others :=
          (List.dropWhile_suffix _).subset (hvalue ▸ List.mem_cons_self)
        have hordered := (List.pairwise_cons.mp h.ordered).1 equals hmem
        have hpos := h.position_lt_stop List.mem_cons_self
        have hinside := h.inside first List.mem_cons_self
        have hwithin := h.inside equals (List.mem_cons_of_mem _ hmem)
        have hposEquals := h.position_lt_stop (List.mem_cons_of_mem _ hmem)
        have hstop := h.stop_le
        obtain ⟨c, hc, rest, hspells⟩ :=
          exists_head_of_longest (h.longest first List.mem_cons_self)
        have hlength := congrArg List.length hdrop
        rw [List.length_append, List.length_drop, List.length_drop] at hlength
        have hget : (line.toList.drop start)[first.position - start]? = some c := by
          rw [List.getElem?_drop, Nat.add_sub_cancel' hinside.1, hc]
        rw [hdrop, List.getElem?_append_left (by omega)] at hget
        have hblank := hblanks c (List.mem_of_getElem? hget)
        rw [Text.isBlank_eq_false_of_spells hspells] at hblank
        cases hblank

/-- Before `=` there is a name that a variable may have only if that name is a single lexeme. -/
theorem exists_target_of_fault?
    {name : String} (h : LongestMatch line.toList start stop lexemes)
    (hvalue : lexemes.dropWhile (!·.isEquals) = equals :: value)
    (hname : targetText line lexemes equals.position = name) (hfault : Name.fault? name = none) :
    ∃ target : Terminal (.identifier name), lexemes = target.1 :: equals :: value := by
  have hequals := token_of_dropWhile hvalue
  obtain ⟨⟨letter, rest, hspelt, hletter, hrest⟩, -, -, -, hlet⟩ :=
    Name.fault?_eq_none_iff.mp hfault
  cases lexemes with
  | nil => cases hvalue
  | cons first others =>
      obtain ⟨-, -, hfirst, hothers⟩ := LongestMatch.cons_iff.mp h
      have hmem : equals ∈ first :: others :=
        (List.dropWhile_suffix _).subset (hvalue ▸ List.mem_cons_self)
      have hbefore : first.position < equals.position := by
        by_contra hnot
        have hzero : equals.position - first.position = 0 := by omega
        have hempty : targetText line (first :: others) equals.position = "" := by
          simp [targetText, slice, hzero, Text.trim, Text.skipBlanks]
        rw [← hname, hempty] at hspelt
        cases hspelt
      -- The first lexeme is the longest word at its place, which ends with the name.
      obtain ⟨blanks, hslice, hblanks⟩ := exists_toList_slice_eq hfirst hbefore
      have htrim : Text.trim (slice line first.position equals.position).toList =
          letter :: rest := by
        rw [← hspelt, ← hname, targetText, String.toList_ofList]
      have htext : line.toList.drop first.position =
          letter :: rest ++ (blanks ++ line.toList.drop equals.position) := by
        rw [← List.append_assoc, ← htrim, ← hslice, slice, String.toList_ofList]
        have hdrop := List.take_append_drop (equals.position - first.position)
          (line.toList.drop first.position)
        rw [List.drop_drop, Nat.add_sub_cancel' (Nat.le_of_lt hbefore)] at hdrop
        exact hdrop.symm
      have hafter : ∀ c ∈ (blanks ++ line.toList.drop equals.position).head?,
          Text.continuesWord c = false := by
        intro c hc
        cases blanks with
        | nil =>
            obtain ⟨d, hd, others', hspells⟩ := exists_head_of_longest (h.longest equals hmem)
            rw [List.nil_append, List.head?_drop, hd] at hc
            cases hc
            rw [hequals] at hspells
            cases hspells
            rfl
        | cons b blanks =>
            obtain rfl : b = c := by simpa using hc
            by_contra hcontinues
            rw [Bool.not_eq_false] at hcontinues
            have hblank := hblanks b List.mem_cons_self
            rw [Text.isBlank_eq_false_of_continuesWord hcontinues] at hblank
            cases hblank
      have hword := hfirst
      rw [htext] at hword
      obtain ⟨htoken, hfirstText⟩ := hword.eq_ofWord
        (by simp [Text.beginsWord, hletter]) hrest hafter
      have hidentifier : first.token = .identifier name := by
        rw [htoken, Token.ofWord, ← hspelt, String.ofList_toList, if_neg]
        intro hletters
        exact hlet (by rw [← String.ofList_toList (s := name), hletters])
      -- What is left up to `=` is blank, so that no other lexeme fits in.
      have hend : line.toList.drop first.stop = blanks ++ line.toList.drop equals.position := by
        have hdrop := drop_position_of_longest hfirst
        rw [htext, hfirstText, List.cons_append, List.cons_append] at hdrop
        exact (List.append_cancel_left (List.cons.inj hdrop).2).symm
      refine ⟨⟨first, hidentifier⟩, ?_⟩
      have hnotEquals : first.isEquals = false := by simp [Lexeme.isEquals, hidentifier]
      rw [List.dropWhile_cons_of_pos (by simp [hnotEquals])] at hvalue
      rw [← eq_of_dropWhile_of_blank hothers hvalue hend hblanks]

end Target

end Calculator
