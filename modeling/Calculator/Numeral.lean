import Calculator.Decimal.Basic

/-!
# Number literals

A literal is a run of digits, perhaps a point with digits after it, perhaps an exponent. The point
and the exponent belong to the literal only if digits follow them: `1.` and `1e+` begin with the
literal `1`. A literal written out and put before a text that cannot extend it is read again.
-/

namespace Calculator

/-- The exponent of a literal as it was written. -/
structure Numeral.Exponent where
  mark : Char
  sign : Option Char
  digits : List Char
  deriving DecidableEq, Repr

/-- A literal as it was written; `fraction` holds the digits after the point. -/
structure Numeral where
  whole : List Char
  fraction : Option (List Char)
  exponent : Option Numeral.Exponent
  deriving DecidableEq, Repr

namespace Numeral

def isExponentMark (c : Char) : Bool :=
  c == 'e' || c == 'E'

def isSign (c : Char) : Bool :=
  c == '+' || c == '-'

/-- The digits at the front of a text, if there is one, and what follows. -/
def digits? (text : List Char) : Option (List Char × List Char) :=
  let digits := text.takeWhile Char.isDigit
  if digits = [] then none else some (digits, text.dropWhile Char.isDigit)

/-- A point and the digits after it. -/
def fraction? : List Char → Option (List Char × List Char)
  | '.' :: rest => digits? rest
  | _ => none

/-- A sign at the front of a text, if there is one, and what follows. -/
def sign : List Char → Option Char × List Char
  | [] => (none, [])
  | c :: rest => if isSign c then (some c, rest) else (none, c :: rest)

/-- A mark, perhaps a sign, and digits. -/
def exponent? : List Char → Option (Exponent × List Char)
  | [] => none
  | mark :: rest =>
    if isExponentMark mark then
      match digits? (sign rest).2 with
      | some (digits, after) => some (⟨mark, (sign rest).1, digits⟩, after)
      | none => none
    else
      none

/-- Reads a part that may be missing. -/
def optional {α : Type} (read? : List Char → Option (α × List Char)) (text : List Char) :
    Option α × List Char :=
  match read? text with
  | some (a, rest) => (some a, rest)
  | none => (none, text)

/-- The longest literal at the front of a text, and what follows. -/
def read? (text : List Char) : Option (Numeral × List Char) :=
  match digits? text with
  | some (whole, rest) =>
    let fraction := optional fraction? rest
    let exponent := optional exponent? fraction.2
    some (⟨whole, fraction.1, exponent.1⟩, exponent.2)
  | none => none

namespace Exponent

def text (e : Exponent) : List Char :=
  e.mark :: (e.sign.toList ++ e.digits)

def value (e : Exponent) : Int :=
  let size : Nat := Nat.ofDigitChars 10 e.digits 0
  if e.sign = some '-' then -size else size

end Exponent

def fractionText : Option (List Char) → List Char
  | some digits => '.' :: digits
  | none => []

def exponentText : Option Exponent → List Char
  | some e => e.text
  | none => []

/-- The literal written out. -/
def text (n : Numeral) : List Char :=
  n.whole ++ fractionText n.fraction ++ exponentText n.exponent

/-- The number that a literal denotes. -/
def value (n : Numeral) : Decimal :=
  let fraction := n.fraction.getD []
  ⟨Nat.ofDigitChars 10 (n.whole ++ fraction) 0,
    (n.exponent.map Exponent.value).getD 0 - fraction.length⟩

theorem digits?_eq_some {text digits rest : List Char} (h : digits? text = some (digits, rest)) :
    text = digits ++ rest ∧ digits ≠ [] ∧ ∀ c ∈ digits, c.isDigit = true := by
  simp only [digits?] at h
  split at h
  · cases h
  · rename_i hne
    cases h
    exact ⟨List.takeWhile_append_dropWhile.symm, hne,
      fun c hc => List.all_eq_true.mp List.all_takeWhile c hc⟩

theorem fraction?_eq_some {text digits rest : List Char}
    (h : fraction? text = some (digits, rest)) : text = fractionText (some digits) ++ rest := by
  unfold fraction? at h
  split at h
  · simp [fractionText, (digits?_eq_some h).1]
  · cases h

theorem sign_text (text : List Char) : (sign text).1.toList ++ (sign text).2 = text := by
  unfold sign
  split
  · rfl
  · split <;> rfl

theorem exponent?_eq_some {text rest : List Char} {e : Exponent}
    (h : exponent? text = some (e, rest)) : text = exponentText (some e) ++ rest := by
  unfold exponent? at h
  split at h
  · cases h
  · rename_i mark afterMark
    split at h
    · split at h
      · rename_i digits after hdigits
        cases h
        have hsign := sign_text afterMark
        rw [(digits?_eq_some hdigits).1] at hsign
        simpa [exponentText, Exponent.text] using hsign.symm
      · cases h
    · cases h

/-- A part that may be missing has no text if it is missing. -/
theorem optional_text {α : Type} {read? : List Char → Option (α × List Char)}
    (write : Option α → List Char) (hnone : write none = [])
    (hsome : ∀ {text a rest}, read? text = some (a, rest) → text = write (some a) ++ rest)
    (text : List Char) : write (optional read? text).1 ++ (optional read? text).2 = text := by
  cases h : read? text with
  | none => simp [optional, h, hnone]
  | some part => simp [optional, h, ← hsome h]

/-- Reading a literal loses nothing: its text and what follows are the whole. -/
theorem read?_eq_some {text rest : List Char} {n : Numeral} (h : read? text = some (n, rest)) :
    n.text ++ rest = text ∧ n.text ≠ [] := by
  unfold read? at h
  split at h
  · rename_i whole afterWhole hwhole
    cases h
    obtain ⟨rfl, hne, -⟩ := digits?_eq_some hwhole
    have hfraction := optional_text fractionText rfl fraction?_eq_some afterWhole
    have hexponent := optional_text exponentText rfl exponent?_eq_some
      (optional fraction? afterWhole).2
    simp [Numeral.text, hne, hexponent, hfraction]
  · cases h

end Numeral

end Calculator
