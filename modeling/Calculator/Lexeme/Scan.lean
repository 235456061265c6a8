import Calculator.LineError
import Calculator.Lexeme.Basic
import Calculator.Numeral
import Calculator.Text.Word

/-!
# Scanning a line

A line is cut from left to right into the longest tokens, with blanks between them. The scan fails
at the first character that neither begins a token nor is one of the five blanks of the language.
-/

namespace Calculator

/-- The blanks that may stand between tokens: space, tab, line feed, carriage return, form feed. -/
def isSkipped (c : Char) : Bool :=
  c == ' ' || c == '\t' || c == '\n' || c == '\r' || c == '\x0c'

namespace Token

open Text

/-- The token of a word: `let` is a keyword, all other words are identifiers. -/
def ofWord (word : List Char) : Token :=
  if word = ['l', 'e', 't'] then .letWord else .identifier (String.ofList word)

/-- The token that a single character is. -/
def ofChar? : Char → Option Token
  | '(' => some .openParen
  | ')' => some .closeParen
  | ',' => some .comma
  | '=' => some .equals
  | c => (Operator.ofSymbol? c).map .operator

/-- The longest token at the front of a text, the text of that token, and what follows. -/
def read? : List Char → Option (Token × List Char × List Char)
  | [] => none
  | c :: rest =>
    match Numeral.read? (c :: rest) with
    | some (numeral, after) => some (.number numeral.value.toFloat, numeral.text, after)
    | none =>
      if beginsWord c then
        let word := c :: rest.takeWhile continuesWord
        some (ofWord word, word, rest.dropWhile continuesWord)
      else
        (ofChar? c).map fun token => (token, [c], rest)

theorem read?_eq_some {input text rest : List Char} {token : Token}
    (h : read? input = some (token, text, rest)) : text ++ rest = input ∧ text ≠ [] := by
  unfold read? at h
  split at h
  · cases h
  · split at h
    · rename_i hnumeral
      cases h
      exact Numeral.read?_eq_some hnumeral
    · split at h
      · cases h
        simp
      · obtain ⟨token, -, hpair⟩ := Option.map_eq_some_iff.mp h
        cases hpair
        simp

end Token

/-- The lexemes of a text that begins at `position`. -/
def scanFrom (position : Nat) : List Char → Except LineError (List Lexeme)
  | [] => .ok []
  | c :: rest =>
    if isSkipped c then
      scanFrom (position + 1) rest
    else
      match _h : Token.read? (c :: rest) with
      | none => .error (.badCharacter position c)
      | some (token, text, after) =>
        match scanFrom (position + text.length) after with
        | .ok lexemes => .ok (⟨token, String.ofList text, position⟩ :: lexemes)
        | .error fault => .error fault
  termination_by text => text.length
  decreasing_by
  · simp
  · obtain ⟨htext, hne⟩ := Token.read?_eq_some ‹_›
    have hlength : text.length + after.length = (c :: rest).length := by
      rw [← htext, List.length_append]
    have hpos : 0 < text.length := List.length_pos_iff.mpr hne
    omega

/-- The lexemes of a line, of which there is at least one. -/
def scan (line : String) : Except LineError (List Lexeme) :=
  if line.toList.all isSkipped then .error .empty else scanFrom 0 line.toList

/-- The lexemes of a line, closed by a lexeme for its end. -/
def Lexeme.ofLine (line : String) : Except LineError (List Lexeme) :=
  (scan line).map (· ++ [⟨.endOfInput, "", line.length⟩])

end Calculator
