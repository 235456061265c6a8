import Calculator.Proofs.Memory.Relocation
import Calculator.Proofs.Scanning.Seams

/-!
# A text in front of another

Where no word reaches across the place at which two texts meet, the scan of both goes through the
first and then does with the second what it does with it alone, further to the right
(`scanFrom_append`).  This holds also if the second text is stuck somewhere.
-/

namespace Calculator

/-- Moves the lexemes of a scan, or the error that it ends with. -/
def relocateScan (f : Nat → Nat) :
    Except LineError (List Lexeme) → Except LineError (List Lexeme)
  | .ok lexemes => .ok (lexemes.map (·.relocate f))
  | .error fault => .error (fault.relocate f)

/-- The scan does not look at positions. -/
theorem scanFrom_add (shift position : Nat) (text : List Char) :
    scanFrom (shift + position) text = relocateScan (shift + ·) (scanFrom position text) := by
  fun_induction scanFrom position text with
  | case1 => rw [scanFrom]; rfl
  | case2 position c rest hskipped ih => rw [scanFrom_skipped hskipped, Nat.add_assoc, ih]
  | case3 position c rest hskipped hread =>
      rw [scanFrom_stuck (by simpa using hskipped) hread]
      rfl
  | case4 position c rest hskipped token word after hread lexemes hscan ih =>
      rw [scanFrom_token (by simpa using hskipped) hread, Nat.add_assoc, ih, hscan]
      rfl
  | case5 position c rest hskipped token word after hread fault hscan ih =>
      rw [scanFrom_token (by simpa using hskipped) hread, Nat.add_assoc, ih, hscan]
      rfl

/-- What a text is cut into does not change if another text comes after a seam. -/
theorem LongestMatch.append_right
    {before after : List Char} {ls : List Lexeme} (h : LongestMatch before 0 before.length ls)
    (hseam : Seam before after) : LongestMatch (before ++ after) 0 before.length ls := by
  refine ⟨h.start_le, by simp, h.inside, h.ordered, ?_, ?_⟩
  · intro l hl
    have hposition : l.position ≤ before.length :=
      Nat.le_trans (Nat.le_add_right _ _) (h.inside l hl).2
    rw [List.drop_append_of_le_length hposition]
    exact (h.longest l hl).append (hseam.of_suffix (List.drop_suffix _ _))
  · intro i hi hi' huncovered c hc
    rw [List.getElem?_append_left hi'] at hc
    exact h.gaps i hi hi' huncovered c hc

/-- Two texts that meet at a seam are scanned one after the other. -/
theorem scanFrom_append
    {before after : List Char} {ls : List Lexeme} (h : LongestMatch before 0 before.length ls)
    (hseam : Seam before after) :
    scanFrom 0 (before ++ after) =
      (relocateScan (before.length + ·) (scanFrom 0 after)).map (ls ++ ·) := by
  have hfollow := scanFrom_of_longestMatch (h.append_right hseam)
  rwa [List.drop_zero, List.drop_left, ← Nat.add_zero before.length, scanFrom_add] at hfollow

end Calculator
