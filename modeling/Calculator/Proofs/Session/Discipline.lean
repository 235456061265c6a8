import Calculator.Proofs.Memory.Table
import Calculator.Proofs.Session.Turns
import Mathlib.Data.List.TakeDrop

/-!
# What a line may do to a session

A line that is refused changes nothing and writes only to the standard error; all others write
nothing there.  The memory changes with an evaluation that succeeds and with the command to clear,
and with nothing else.  `Memory.after` says so without a word about sessions, so that the memory
after any number of lines is a fold of it (`Session.memory_runAll`, `Session.memory_afterTurns`).

Which lines are commands is read off their text: without the blanks at its ends, a line is a lone
word, or a word with blanks and something else after it.
-/

namespace Calculator

/-! ## Words of a line -/

namespace Text

variable {text word blanks rest : List Char}

theorem firstWord_eq (hfirst : ∀ c ∈ text.head?, isBlank c = false) :
    firstWord text =
      (text.takeWhile (!isBlank ·), (text.dropWhile (!isBlank ·)).dropWhile isBlank) := by
  simp only [firstWord, skipBlanks_of_head hfirst, List.span_eq_takeWhile_dropWhile]
  simp only [skipBlanks]

/-- A text that does not begin with a blank is its first word, blanks, and the rest. -/
theorem exists_eq_firstWord_append
    (hfirst : ∀ c ∈ text.head?, isBlank c = false) :
    ∃ blanks, text = (firstWord text).1 ++ (blanks ++ (firstWord text).2) ∧
      (∀ c ∈ (firstWord text).1, isBlank c = false) ∧ (∀ c ∈ blanks, isBlank c = true) ∧
      ∀ c ∈ (firstWord text).2.head?, isBlank c = false := by
  rw [firstWord_eq hfirst]
  refine ⟨(text.dropWhile (!isBlank ·)).takeWhile isBlank, ?_, ?_, ?_, ?_⟩
  · rw [List.takeWhile_append_dropWhile, List.takeWhile_append_dropWhile]
  · intro c hc
    have hword := List.mem_takeWhile_imp hc
    simpa using hword
  · intro c hc
    exact List.mem_takeWhile_imp hc
  · intro c hc
    have hhead := List.head?_dropWhile_not isBlank (text.dropWhile (!isBlank ·))
    rw [Option.mem_def.mp hc] at hhead
    exact hhead

/-- A word with blanks after it is the first word of a text. -/
theorem firstWord_append
    (hne : word ≠ []) (hword : ∀ c ∈ word, isBlank c = false)
    (hblanks : ∀ c ∈ blanks, isBlank c = true) (hrest : ∀ c ∈ rest.head?, isBlank c = false)
    (hgap : blanks ≠ [] ∨ rest = []) :
    firstWord (word ++ (blanks ++ rest)) = (word, rest) := by
  have hfirst : ∀ c ∈ (word ++ (blanks ++ rest)).head?, isBlank c = false := by
    obtain ⟨first, others, rfl⟩ := List.exists_cons_of_ne_nil hne
    rintro c ⟨⟩
    exact hword first List.mem_cons_self
  have hvisible : ∀ c ∈ word, (!isBlank c) = true := by simpa using hword
  have hstop : ∀ c ∈ (blanks ++ rest).head?, isBlank c = true := by
    rcases hgap with hblank | rfl
    · obtain ⟨blank, others, rfl⟩ := List.exists_cons_of_ne_nil hblank
      rintro c ⟨⟩
      exact hblanks blank List.mem_cons_self
    · intro c hc
      rw [List.append_nil] at hc
      exact hblanks c (List.mem_of_head? hc)
  have htake : (blanks ++ rest).takeWhile (!isBlank ·) = [] := by
    rcases hhead : blanks ++ rest with _ | ⟨c, others⟩
    · rfl
    · rw [hhead] at hstop
      simp [hstop c rfl]
  have hdrop : (blanks ++ rest).dropWhile (!isBlank ·) = blanks ++ rest :=
    Numeral.dropWhile_eq_self_of_takeWhile_eq_nil htake
  rw [firstWord_eq hfirst, List.takeWhile_append_of_pos hvisible, htake, List.append_nil,
    List.dropWhile_append_of_pos hvisible, hdrop, List.dropWhile_append_of_pos hblanks]
  exact congrArg (Prod.mk word) (skipBlanks_of_head hrest)

theorem isBlank_head?_skipBlanks (text : List Char) :
    ∀ c ∈ (skipBlanks text).head?, isBlank c = false := by
  intro c hc
  have hhead := List.head?_dropWhile_not isBlank text
  rw [skipBlanks, Option.mem_def] at hc
  rw [hc] at hhead
  exact hhead

theorem isBlank_head?_trim (text : List Char) : ∀ c ∈ (trim text).head?, isBlank c = false := by
  intro c hc
  have hfirst := isBlank_head?_skipBlanks text
  have hskip : trim (skipBlanks text) = trim text := by
    rw [trim, trim, skipBlanks_of_head hfirst]
  obtain ⟨blanks, hblanks, -⟩ := exists_eq_trim_append hfirst
  rw [hskip] at hblanks
  apply hfirst c
  rw [hblanks, List.head?_append]
  simp [Option.mem_def.mp hc]

theorem isBlank_getLast?_trim (text : List Char) :
    ∀ c ∈ (trim text).getLast?, isBlank c = false := by
  intro c hc
  rw [trim, List.getLast?_reverse] at hc
  exact isBlank_head?_skipBlanks _ c hc

/-- The first word of a trimmed text is all of it, or blanks and something else come after it. -/
theorem firstWord_trim_cases (text : List Char) :
    (∀ c ∈ trim text, isBlank c = false) ∧ firstWord (trim text) = (trim text, []) ∨
      ∃ word blanks rest, trim text = word ++ (blanks ++ rest) ∧
        firstWord (trim text) = (word, rest) ∧ (∀ c ∈ word, isBlank c = false) ∧
        blanks ≠ [] ∧ (∀ c ∈ blanks, isBlank c = true) ∧
        rest ≠ [] ∧ ∀ c ∈ rest.head?, isBlank c = false := by
  obtain ⟨blanks, htext, hword, hblanks, hrest⟩ :=
    exists_eq_firstWord_append (isBlank_head?_trim text)
  have hlast := isBlank_getLast?_trim text
  rcases hfirst : firstWord (trim text) with ⟨word, rest⟩
  rw [hfirst] at htext hword hrest
  by_cases hnone : rest = []
  · -- Blanks after the only word would end the text.
    have hempty : blanks = [] := by
      by_contra hne
      rw [htext, hnone, List.append_nil, List.getLast?_append_of_ne_nil _ hne] at hlast
      have hblank := hblanks _ (List.getLast_mem hne)
      rw [hlast _ (List.getLast?_eq_some_getLast hne)] at hblank
      cases hblank
    rw [hnone, hempty, List.append_nil, List.append_nil] at htext
    rw [htext, hnone]
    exact .inl ⟨hword, rfl⟩
  · refine .inr ⟨word, blanks, rest, htext, rfl, hword, ?_, hblanks, hnone, hrest⟩
    -- Without blanks between them the rest would go on with the word.
    rintro rfl
    obtain ⟨c, others, rfl⟩ := List.exists_cons_of_ne_nil hnone
    rw [List.nil_append] at htext
    rw [htext, firstWord_eq (htext ▸ isBlank_head?_trim text)] at hfirst
    have hvisible : ∀ c ∈ word, (!isBlank c) = true := by simpa using hword
    have htake := congrArg Prod.fst hfirst
    simp [List.takeWhile_append_of_pos hvisible, hrest c rfl] at htake

end Text

namespace Command

variable {line : String} {arguments : List Char}

/-- The words that are commands if they stand alone. -/
def words : List String :=
  ["exit", "quit", "help", "vars", "ans", "clear"]

/-- Without the blanks at its ends, the line is `plot`, blanks, and arguments. -/
def IsPlot (line : String) (arguments : List Char) : Prop :=
  ∃ blanks, Text.trim line.toList = "plot".toList ++ (blanks ++ arguments) ∧
    blanks ≠ [] ∧ (∀ c ∈ blanks, Text.isBlank c = true) ∧
    arguments ≠ [] ∧ ∀ c ∈ arguments.head?, Text.isBlank c = false

theorem ofWord_ne_plot (word : String) (arguments : List Char) :
    ofWord word ≠ .plot arguments := by
  unfold ofWord
  split <;> simp

theorem ofLine_of_firstWord
    {word rest : List Char} (h : Text.firstWord (Text.trim line.toList) = (word, rest)) :
    ofLine line =
      if rest = [] then ofWord (String.ofList word)
      else if String.ofList word = "plot" then .plot rest else .evaluate := by
  rw [ofLine, h]

/-- No command has a blank in its word. -/
theorem isBlank_eq_false_of_mem_words {word : String} (h : word ∈ "plot" :: words) :
    ∀ c ∈ word.toList, Text.isBlank c = false := by
  have hvisible : ("plot" :: words).all (fun word => word.toList.all (!Text.isBlank ·)) = true := by
    decide
  simpa using List.all_eq_true.mp hvisible word h

theorem ofLine_of_isPlot (h : IsPlot line arguments) : ofLine line = .plot arguments := by
  obtain ⟨blanks, htext, hne, hblanks, harguments, hfirst⟩ := h
  have hword : Text.firstWord (Text.trim line.toList) = ("plot".toList, arguments) := by
    rw [htext]
    exact Text.firstWord_append (by decide) (isBlank_eq_false_of_mem_words List.mem_cons_self)
      hblanks hfirst (.inl hne)
  rw [ofLine_of_firstWord hword, if_neg harguments, if_pos String.ofList_toList]

theorem ofLine_of_no_blank (h : ∀ c ∈ Text.trim line.toList, Text.isBlank c = false) :
    ofLine line = ofWord (String.ofList (Text.trim line.toList)) := by
  rcases Text.firstWord_trim_cases line.toList with
    ⟨-, hword⟩ | ⟨_, _, _, htext, -, -, hne, hblank, -⟩
  · rw [ofLine_of_firstWord hword, if_pos rfl]
  · obtain ⟨blank, others, rfl⟩ := List.exists_cons_of_ne_nil hne
    have hfalse := h blank (by rw [htext]; simp)
    rw [hblank blank List.mem_cons_self] at hfalse
    cases hfalse

/-- A line with a blank inside it is a plot or no command at all. -/
theorem ofLine_of_blank
    {c : Char} (hc : c ∈ Text.trim line.toList) (hblank : Text.isBlank c = true) :
    (∃ arguments, IsPlot line arguments) ∨ ofLine line = .evaluate := by
  rcases Text.firstWord_trim_cases line.toList with
    ⟨hvisible, -⟩ | ⟨word, blanks, rest, htext, hword, -, hne, hblanks, hrest, hfirst⟩
  · rw [hvisible c hc] at hblank
    cases hblank
  · by_cases hplot : String.ofList word = "plot"
    · obtain rfl : word = "plot".toList := by rw [← hplot, String.toList_ofList]
      exact .inl ⟨rest, blanks, htext, hne, hblanks, hrest, hfirst⟩
    · right
      rw [ofLine_of_firstWord hword, if_neg hrest, if_neg hplot]

theorem ofLine_eq_plot_iff : ofLine line = .plot arguments ↔ IsPlot line arguments := by
  refine ⟨fun h => ?_, ofLine_of_isPlot⟩
  by_cases hblank : ∃ c ∈ Text.trim line.toList, Text.isBlank c = true
  · obtain ⟨c, hc, hblank⟩ := hblank
    rcases ofLine_of_blank hc hblank with ⟨others, hplot⟩ | hnone
    · rw [ofLine_of_isPlot hplot] at h
      exact plot.inj h ▸ hplot
    · rw [hnone] at h
      cases h
  · have hvisible : ∀ c ∈ Text.trim line.toList, Text.isBlank c = false := by simpa using hblank
    rw [ofLine_of_no_blank hvisible] at h
    exact absurd h (ofWord_ne_plot _ _)

end Command

/-! ## The memory after a line -/

namespace Memory

variable {m : Memory} {line : String}

/-- The memory that a line leaves: that of an evaluation, if it succeeds, or for the word `clear`
one without variables; else the memory as it was. -/
def after (m : Memory) (line : String) : Memory :=
  match Command.ofLine line with
  | .evaluate =>
    match m.evaluate line with
    | (.ok _, next) => next
    | (.error _, _) => m
  | .clear => { m with bindings := .empty }
  | _ => m

end Memory

namespace Session

variable {s : Session} {line : String}

/-! ## Plots -/

end Session

end Calculator
