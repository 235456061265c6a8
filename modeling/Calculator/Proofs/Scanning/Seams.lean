import Calculator.Proofs.Grammar.Relocation
import Calculator.Proofs.Scanning.Line

/-!
# Texts side by side

Where two texts meet at a seam that no word reaches across, they are cut one by one
(`LongestMatch.append`).  Such a seam is at every blank and every parenthesis, since these stand in
no word of several characters (`Parts`).  `Cuts` says into which words a text is cut, whatever the
places at which they stand.
-/

namespace Calculator

open Text

/-! ## Seams -/

/-- No word of the language reaches across the place where two texts meet. -/
def Seam (before after : List Char) : Prop :=
  ∀ token left right, Token.Spells token (left ++ right) → left <:+ before → right <+: after →
    left = [] ∨ right = []

/-- The character stands in no word unless it is all of it. -/
def Parts (c : Char) : Prop :=
  ∀ token word, Token.Spells token word → c ∈ word → word = [c]

theorem parts_of_continuesWord_eq_false
    {c : Char} (hword : continuesWord c = false) (hmark : c ∉ ['.', '+', '-']) : Parts c := by
  intro token word hspells hc
  cases hspells with
  | number hn =>
      rcases Token.continuesWord_of_mem_numeral hn hc with hcontinues | hmem
      · simp [hword] at hcontinues
      · exact absurd hmem hmark
  | letWord =>
      rcases List.mem_cons.mp hc with rfl | hc
      · cases hword
      · simp [Token.continuesWord_of_mem_let c hc] at hword
  | identifier hfirst hrest =>
      rcases List.mem_cons.mp hc with rfl | hc
      · simp [continuesWord_of_beginsWord hfirst] at hword
      · simp [hrest c hc] at hword
  | operator | openParen | closeParen | comma | equals => rw [List.mem_singleton.mp hc]

theorem parts_of_isSkipped {c : Char} (h : isSkipped c = true) : Parts c := by
  simp only [isSkipped, Bool.or_eq_true, beq_iff_eq] at h
  rcases h with (((rfl | rfl) | rfl) | rfl) | rfl <;>
    exact parts_of_continuesWord_eq_false (by decide) (by decide)

theorem parts_openParen : Parts '(' :=
  parts_of_continuesWord_eq_false (by decide) (by decide)

theorem parts_closeParen : Parts ')' :=
  parts_of_continuesWord_eq_false (by decide) (by decide)

namespace Seam

variable {before after : List Char}

theorem of_parts_right (h : ∀ c ∈ after.head?, Parts c) : Seam before after := by
  intro token left right hspells _ hright
  cases right with
  | nil => exact .inr rfl
  | cons c right =>
      obtain ⟨rest, rfl⟩ := hright
      have hword := h c (by simp) token _ hspells (by simp)
      have hlength := congrArg List.length hword
      simp only [List.length_append, List.length_cons, List.length_nil] at hlength
      exact .inl (List.length_eq_zero_iff.mp (by omega))

theorem of_parts_left (h : ∀ c ∈ before.getLast?, Parts c) : Seam before after := by
  intro token left right hspells hleft _
  rcases List.eq_nil_or_concat left with hnil | ⟨front, c, rfl⟩
  · exact .inl hnil
  · obtain ⟨rest, rfl⟩ := hleft
    have hword := h c (by simp [← List.append_assoc]) token _ hspells (by simp)
    have hlength := congrArg List.length hword
    simp only [List.length_append, List.length_cons, List.length_nil, List.concat_eq_append]
      at hlength
    exact .inr (List.length_eq_zero_iff.mp (by omega))

theorem of_suffix
    {ending : List Char} (h : Seam before after) (hsuffix : ending <:+ before) :
    Seam ending after :=
  fun token left right hspells hleft hright =>
    h token left right hspells (hleft.trans hsuffix) hright

end Seam

/-- The longest word at the front of a text stays the longest if a seam is behind the text. -/
theorem Token.Longest.append
    {token : Token} {word text after : List Char} (h : Longest token word text)
    (hseam : Seam text after) : Longest token word (text ++ after) := by
  refine ⟨h.spells, h.front.trans (List.prefix_append text after), ?_⟩
  intro other otherWord hother hfront
  rcases Nat.le_total otherWord.length text.length with hle | hle
  · exact h.longest other otherWord hother
      (List.prefix_of_prefix_length_le hfront (List.prefix_append _ _) hle)
  · -- A word that is longer than the text would reach across the seam.
    obtain ⟨right, rfl⟩ :=
      List.prefix_of_prefix_length_le (List.prefix_append text after) hfront hle
    have hright : right <+: after := (List.prefix_append_right_inj text).mp hfront
    rcases hseam other text right hother List.suffix_rfl hright with rfl | rfl
    · exact absurd (List.prefix_nil.mp h.front) (spells_ne_nil h.spells)
    · exact h.longest other _ hother (by simp)

theorem Token.Longest.take
    {token : Token} {word text : List Char} {length : Nat} (h : Longest token word text)
    (hfits : word.length ≤ length) : Longest token word (text.take length) where
  spells := h.spells
  front := List.prefix_take_iff.mpr ⟨h.front, hfits⟩
  longest := fun other otherWord hother hfront =>
    h.longest other otherWord hother (hfront.trans (List.take_prefix length text))

/-! ## Cuts side by side -/

theorem Lexeme.stop_relocate_add (l : Lexeme) (shift : Nat) :
    (l.relocate (shift + ·)).stop = shift + l.stop :=
  Nat.add_assoc shift l.position l.length

theorem Lexeme.map_relocate_sub_zero (ls : List Lexeme) : ls.map (·.relocate (· - 0)) = ls :=
  (List.map_congr_left fun l _ => by cases l; rfl).trans (List.map_id _)

namespace LongestMatch

/-- Two texts that meet at a seam are cut one by one. -/
theorem append
    {before after : List Char} {ls ls' : List Lexeme}
    (h : LongestMatch before 0 before.length ls) (h' : LongestMatch after 0 after.length ls')
    (hseam : Seam before after) :
    LongestMatch (before ++ after) 0 (before ++ after).length
      (ls ++ ls'.map (·.relocate (before.length + ·))) := by
  have hlength : (before ++ after).length = before.length + after.length := List.length_append
  refine ⟨Nat.zero_le _, Nat.le_refl _, ?_, ?_, ?_, ?_⟩
  · intro l hl
    rcases List.mem_append.mp hl with hl | hl
    · have := h.inside l hl
      omega
    · obtain ⟨origin, horigin, rfl⟩ := List.mem_map.mp hl
      have := h'.inside origin horigin
      rw [origin.stop_relocate_add, origin.position_relocate]
      omega
  · refine List.pairwise_append.mpr ⟨h.ordered, List.pairwise_map.mpr ?_, ?_⟩
    · refine h'.ordered.imp ?_
      intro a b hab
      rw [a.stop_relocate_add, b.position_relocate]
      omega
    · intro a ha b hb
      obtain ⟨b, hb, rfl⟩ := List.mem_map.mp hb
      have := (h.inside a ha).2
      rw [b.position_relocate]
      omega
  · intro l hl
    rcases List.mem_append.mp hl with hl | hl
    · have hposition : l.position ≤ before.length :=
        Nat.le_trans (Nat.le_add_right _ _) (h.inside l hl).2
      rw [List.drop_append_of_le_length hposition]
      exact (h.longest l hl).append (hseam.of_suffix (List.drop_suffix _ _))
    · obtain ⟨origin, horigin, rfl⟩ := List.mem_map.mp hl
      rw [origin.position_relocate, List.drop_length_add_append]
      exact h'.longest origin horigin
  · intro i _ hstop huncovered c hc
    rcases Nat.lt_or_ge i before.length with hi | hi
    · rw [List.getElem?_append_left hi] at hc
      exact h.gaps i (Nat.zero_le _) hi
        (fun l hl => huncovered l (List.mem_append_left _ hl)) c hc
    · rw [List.getElem?_append_right hi] at hc
      refine h'.gaps (i - before.length) (Nat.zero_le _) (by omega) ?_ c hc
      intro l hl hcovered
      refine huncovered _ (List.mem_append_right _ (List.mem_map_of_mem hl)) ?_
      rw [l.stop_relocate_add, l.position_relocate]
      omega

/-- What stands before a lexeme and what stands after it are cut into the lexemes there. -/
theorem split
    {text : List Char} {start stop : Nat} {ls ls' : List Lexeme} {l : Lexeme}
    (h : LongestMatch text start stop (ls ++ l :: ls')) :
    LongestMatch text start l.position ls ∧ LongestMatch text l.stop stop ls' := by
  induction ls generalizing start with
  | nil =>
      obtain ⟨hstart, hblank, -, hrest⟩ := cons_iff.mp h
      have hposition : l.position ≤ text.length :=
        Nat.le_trans (Nat.le_add_right _ _) (Nat.le_trans hrest.start_le hrest.stop_le)
      exact ⟨nil_iff.mpr ⟨hstart, hposition, hblank⟩, hrest⟩
  | cons first ls ih =>
      obtain ⟨hstart, hblank, hlongest, hrest⟩ := cons_iff.mp h
      obtain ⟨hbefore, hafter⟩ := ih hrest
      exact ⟨cons_iff.mpr ⟨hstart, hblank, hlongest, hbefore⟩, hafter⟩

/-- A stretch of a text is cut by itself as it is cut within the text. -/
theorem slice
    {text : List Char} {start stop : Nat} {ls : List Lexeme}
    (h : LongestMatch text start stop ls) :
    LongestMatch ((text.drop start).take (stop - start)) 0 (stop - start)
      (ls.map (·.relocate (· - start))) := by
  have hstart := h.start_le
  have hstop := h.stop_le
  have hplaces : ∀ l ∈ ls, (l.relocate (· - start)).stop + start = l.stop := by
    intro l hl
    have := h.inside l hl
    show l.position - start + l.length + start = l.position + l.length
    omega
  refine ⟨Nat.zero_le _, ?_, ?_, ?_, ?_, ?_⟩
  · rw [List.length_take, List.length_drop]
    omega
  · intro _ hmoved
    obtain ⟨l, hl, rfl⟩ := List.mem_map.mp hmoved
    have := h.inside l hl
    have := hplaces l hl
    omega
  · refine List.pairwise_map.mpr (h.ordered.imp_of_mem ?_)
    intro a b ha hb hab
    have := hplaces a ha
    rw [b.position_relocate]
    omega
  · intro _ hmoved
    obtain ⟨l, hl, rfl⟩ := List.mem_map.mp hmoved
    have hinside := h.inside l hl
    have hlength := l.stop_eq
    rw [l.position_relocate, l.token_relocate, l.text_relocate, List.drop_take, List.drop_drop,
      Nat.add_sub_cancel' hinside.1]
    exact (h.longest l hl).take (by omega)
  · intro i _ hi huncovered c hc
    rw [List.getElem?_take_of_lt hi, List.getElem?_drop] at hc
    refine h.gaps (start + i) (Nat.le_add_right _ _) (by omega) ?_ c hc
    intro l hl hcovered
    refine huncovered _ (List.mem_map_of_mem hl) ?_
    have := hplaces l hl
    rw [l.position_relocate]
    omega

/-- A slice of a line is cut by itself as it is cut within the line. -/
theorem of_slice
    {line : String} {start stop : Nat} {ls : List Lexeme}
    (h : LongestMatch line.toList start stop ls) :
    LongestMatch (Calculator.slice line start stop).toList 0
      (Calculator.slice line start stop).toList.length (ls.map (·.relocate (· - start))) := by
  have hstop : stop ≤ line.length := String.length_toList ▸ h.stop_le
  rw [String.length_toList, length_slice hstop, Calculator.slice, String.toList_ofList]
  exact h.slice

theorem of_spells
    {token : Token} {word : List Char} (h : token.Spells word) :
    LongestMatch word 0 word.length [⟨token, String.ofList word, 0⟩] := by
  refine cons_iff.mpr ⟨Nat.le_refl _, fun i hi hi' => by dsimp at hi'; omega, ?_, ?_⟩
  · simp only [String.toList_ofList, List.drop_zero]
    exact ⟨h, List.prefix_rfl, fun _ _ _ hfront => hfront.length_le⟩
  · simpa [Lexeme.stop_eq] using refl (Nat.le_refl word.length)

end LongestMatch

/-! ## The words of a text -/

/-- What a lexeme is apart from its place. -/
def Lexeme.word (l : Lexeme) : Token × String :=
  (l.token, l.text)

/-- The text is cut into the given words. -/
def Cuts (text : List Char) (words : List (Token × String)) : Prop :=
  ∃ lexemes, LongestMatch text 0 text.length lexemes ∧ lexemes.map Lexeme.word = words

namespace Cuts

variable {text before after : List Char} {words words' : List (Token × String)}

theorem append
    (h : Cuts before words) (h' : Cuts after words') (hseam : Seam before after) :
    Cuts (before ++ after) (words ++ words') := by
  obtain ⟨ls, hls, rfl⟩ := h
  obtain ⟨ls', hls', rfl⟩ := h'
  refine ⟨_, hls.append hls' hseam, ?_⟩
  simp only [List.map_append, List.map_map]
  rfl

theorem of_spells
    {token : Token} {word : List Char} (h : token.Spells word) :
    Cuts word [(token, String.ofList word)] :=
  ⟨_, .of_spells h, rfl⟩

theorem of_blank (h : text.all isSkipped = true) : Cuts text [] :=
  ⟨[], all_isSkipped_iff.mp h, rfl⟩

theorem of_longestMatch
    {start stop : Nat} {ls : List Lexeme} (h : LongestMatch text start stop ls) :
    Cuts ((text.drop start).take (stop - start)) (ls.map Lexeme.word) := by
  have hlength : ((text.drop start).take (stop - start)).length = stop - start := by
    have := h.stop_le
    rw [List.length_take, List.length_drop]
    omega
  refine ⟨ls.map (·.relocate (· - start)), ?_, ?_⟩
  · rw [hlength]
    exact h.slice
  · rw [List.map_map]
    rfl

theorem of_scan
    {line : String} {lexemes : List Lexeme} (h : scan line = .ok lexemes) :
    Cuts line.toList (lexemes.map Lexeme.word) := by
  obtain ⟨-, hmatch⟩ := scan_eq_ok_iff.mp h
  exact ⟨lexemes, by rwa [String.length_toList], rfl⟩

end Cuts

theorem scan_of_cuts
    {line : String} {words : List (Token × String)} (h : Cuts line.toList words)
    (hne : words ≠ []) : ∃ lexemes, scan line = .ok lexemes ∧ lexemes.map Lexeme.word = words := by
  obtain ⟨lexemes, hmatch, rfl⟩ := h
  rw [String.length_toList] at hmatch
  exact ⟨lexemes, scan_eq_ok_iff.mpr ⟨fun hnil => hne (by simp [hnil]), hmatch⟩, rfl⟩

end Calculator
