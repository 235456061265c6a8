/-!
# Characters of words

Words of the language are spelt with the letters of ASCII, digits and underscores.
-/

namespace Calculator.Text

def beginsWord (c : Char) : Bool :=
  c.isAlpha || c == '_'

def continuesWord (c : Char) : Bool :=
  c.isAlphanum || c == '_'

theorem continuesWord_of_beginsWord {c : Char} (h : beginsWord c = true) :
    continuesWord c = true := by
  simp only [beginsWord, Bool.or_eq_true] at h
  rcases h with h | h
  · simp [continuesWord, Char.isAlphanum, h]
  · simp [continuesWord, h]

end Calculator.Text
