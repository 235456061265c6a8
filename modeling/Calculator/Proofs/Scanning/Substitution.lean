import Calculator.Proofs.Scanning.Seams

/-!
# Writing a text in place of a name

If a text in parentheses is written for every identifier of one name, the line is cut into the words
it was cut into before, with those of the text and the parentheses in place of each such identifier
(`scan_substituteName`).  Nothing else of the line is touched, and no word of it can run into what
is written there, since no word reaches across a parenthesis.
-/

namespace Calculator

def parenthesized (value : String) : List Char :=
  '(' :: (value.toList ++ [')'])

/-- The characters of a text from `start` on, with others for each of the lexemes that is an
identifier of the given name. -/
def replaceName (name : String) (replacement text : List Char) (start : Nat) :
    List Lexeme → List Char
  | [] => text.drop start
  | l :: rest =>
    if l.token = .identifier name then
      (text.drop start).take (l.position - start) ++
        (replacement ++ replaceName name replacement text l.stop rest)
    else
      replaceName name replacement text start rest

/-- The line with a text in parentheses for every identifier of the given name. -/
def substituteName (line name value : String) : String :=
  match scan line with
  | .ok lexemes => String.ofList (replaceName name (parenthesized value) line.toList 0 lexemes)
  | .error _ => line

/-- The words of a text in parentheses. -/
def enclosedWords (words : List (Token × String)) : List (Token × String) :=
  (.openParen, "(") :: (words ++ [(.closeParen, ")")])

/-- The words that stand for a lexeme once others are written for the given name. -/
def Lexeme.wordsWith (name : String) (replacement : List (Token × String)) (l : Lexeme) :
    List (Token × String) :=
  if l.token = .identifier name then replacement else [l.word]

theorem Lexeme.flatMap_wordsWith
    {name : String} {replacement : List (Token × String)} {ls : List Lexeme}
    (h : ∀ l ∈ ls, l.token ≠ .identifier name) :
    ls.flatMap (·.wordsWith name replacement) = ls.map Lexeme.word := by
  induction ls with
  | nil => rfl
  | cons l ls ih =>
      obtain ⟨hl, hls⟩ := List.forall_mem_cons.mp h
      rw [List.flatMap_cons, ih hls, wordsWith, if_neg hl]
      rfl

theorem cuts_parenthesized
    {value : String} {words : List (Token × String)} (h : Cuts value.toList words) :
    Cuts (parenthesized value) (enclosedWords words) := by
  have hclosing : Seam value.toList [')'] :=
    .of_parts_right fun c hc => by
      obtain rfl : c = ')' := by simpa [eq_comm] using hc
      exact parts_closeParen
  have hopening : Seam ['('] (value.toList ++ [')']) :=
    .of_parts_left fun c hc => by
      obtain rfl : c = '(' := by simpa [eq_comm] using hc
      exact parts_openParen
  exact (Cuts.of_spells .openParen).append (h.append (Cuts.of_spells .closeParen) hclosing)
    hopening

/-- By induction on the lexemes still to come.  Those in `done`, which stand from `start` on, are
kept together with the blanks between them, as a stretch of the text that is cut as before. -/
theorem cuts_replaceName
    (name : String) {value : String} {text : List Char} {words : List (Token × String)}
    (hvalue : Cuts value.toList words) {start : Nat} (done : List Lexeme) {rest : List Lexeme}
    (h : LongestMatch text start text.length (done ++ rest))
    (hdone : ∀ l ∈ done, l.token ≠ .identifier name) :
    Cuts (replaceName name (parenthesized value) text start rest)
      ((done ++ rest).flatMap (·.wordsWith name (enclosedWords words))) := by
  induction rest generalizing start done with
  | nil =>
      rw [List.append_nil] at h ⊢
      rw [Lexeme.flatMap_wordsWith hdone, replaceName]
      have hcuts := Cuts.of_longestMatch h
      rwa [List.take_of_length_le (by rw [List.length_drop])] at hcuts
  | cons l rest ih =>
      by_cases htoken : l.token = .identifier name
      · obtain ⟨hbefore, hafter⟩ := h.split
        have hrest := ih [] hafter (by simp)
        have hright : Seam (parenthesized value)
            (replaceName name (parenthesized value) text l.stop rest) :=
          .of_parts_left fun c hc => by
            rw [parenthesized, ← List.cons_append, List.getLast?_concat] at hc
            obtain rfl := Option.mem_some_iff.mp hc
            exact parts_closeParen
        have hleft : Seam ((text.drop start).take (l.position - start)) (parenthesized value ++
            replaceName name (parenthesized value) text l.stop rest) :=
          .of_parts_right fun c hc => by
            rw [parenthesized, List.cons_append, List.head?_cons] at hc
            obtain rfl := Option.mem_some_iff.mp hc
            exact parts_openParen
        rw [replaceName, if_pos htoken, List.flatMap_append, List.flatMap_cons,
          Lexeme.flatMap_wordsWith hdone, Lexeme.wordsWith, if_pos htoken]
        exact (Cuts.of_longestMatch hbefore).append
          ((cuts_parenthesized hvalue).append hrest hright) hleft
      · rw [replaceName, if_neg htoken, List.append_cons]
        refine ih (done ++ [l]) ?_ ?_
        · rwa [← List.append_cons]
        · exact List.forall_mem_append.mpr ⟨hdone, List.forall_mem_singleton.mpr htoken⟩

/-- The words of a line in which a text in parentheses is written for a name. -/
theorem scan_substituteName
    {line value : String} (name : String) {ls ls' : List Lexeme} (hline : scan line = .ok ls)
    (hvalue : scan value = .ok ls') :
    ∃ lexemes, scan (substituteName line name value) = .ok lexemes ∧
      lexemes.map Lexeme.word =
        ls.flatMap (·.wordsWith name (enclosedWords (ls'.map Lexeme.word))) := by
  obtain ⟨hne, hmatch⟩ := scan_eq_ok_iff.mp hline
  rw [← String.length_toList] at hmatch
  have hcuts := cuts_replaceName name (Cuts.of_scan hvalue) [] hmatch (by simp)
  have hnonempty : ls.flatMap (·.wordsWith name (enclosedWords (ls'.map Lexeme.word))) ≠ [] := by
    obtain ⟨l, ls, rfl⟩ := List.exists_cons_of_ne_nil hne
    rw [List.flatMap_cons, Lexeme.wordsWith, enclosedWords]
    split <;> simp
  apply scan_of_cuts _ hnonempty
  rw [substituteName, hline]
  simpa using hcuts

end Calculator
