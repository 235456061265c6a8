import Calculator.Proofs.Memory.Spans
import Mathlib.Data.String.Basic

/-!
# Cutting texts out of a line

Three texts are cut out of a line by the places of its lexemes: what comes before a character that
is refused, the target of an assignment, and a run of operators.  Each time the bounds are in order,
in the line, and on boundaries of characters.  The lexemes stand in order, and all that longest
match has cut is ASCII, so that a place counts bytes as well as characters
(`LongestMatch.sliceable`).
-/

namespace Calculator

/-- The bytes of a line from `start` up to `stop` can be cut out: the bounds are in order, in the
line and on boundaries of characters.  They are the characters at these places. -/
structure Sliceable (line : String) (start stop : Nat) : Prop where
  start_le : start ≤ stop
  stop_le : stop ≤ line.utf8ByteSize
  start_boundary : (⟨start⟩ : String.Pos.Raw).IsValid line
  stop_boundary : (⟨stop⟩ : String.Pos.Raw).IsValid line
  extract_eq : String.Pos.Raw.extract line ⟨start⟩ ⟨stop⟩ = slice line start stop

namespace LongestMatch

variable {line : String} {start stop : Nat} {lexemes : List Lexeme}

theorem boundary
    (h : LongestMatch line.toList 0 stop lexemes) {position : Nat} (hposition : position ≤ stop) :
    (⟨position⟩ : String.Pos.Raw).IsValid line := by
  rw [String.Pos.Raw.isValid_iff_exists_append]
  refine ⟨String.ofList (line.toList.take position), String.ofList (line.toList.drop position),
    ?_, ?_⟩
  · rw [← String.ofList_append, List.take_append_drop, String.ofList_toList]
  · rw [String.rawEndPos, h.utf8ByteSize_take hposition]

/-- What is cut can be sliced anywhere. -/
theorem sliceable
    (h : LongestMatch line.toList 0 stop lexemes) {first last : Nat} (hle : first ≤ last)
    (hlast : last ≤ stop) : Sliceable line first last where
  start_le := hle
  stop_le := by
    have hsize := (h.boundary hlast).le_rawEndPos
    exact hsize
  start_boundary := h.boundary (Nat.le_trans hle hlast)
  stop_boundary := h.boundary hlast
  extract_eq := by
    let before := line.toList.take first
    let middle := (line.toList.drop first).take (last - first)
    have hupto : before ++ middle = line.toList.take last := by
      rw [← List.take_add, Nat.add_sub_cancel' hle]
    have hline : line = String.ofList (before ++ middle ++ line.toList.drop last) := by
      rw [hupto, List.take_append_drop, String.ofList_toList]
    have hbefore : String.utf8Len before = first := by
      rw [← String.utf8ByteSize_ofList, h.utf8ByteSize_take (Nat.le_trans hle hlast)]
    have hsize : String.utf8Len before + String.utf8Len middle = last := by
      rw [← String.utf8Len_append, hupto, ← String.utf8ByteSize_ofList, h.utf8ByteSize_take hlast]
    have hextract := String.extract_of_valid before middle (line.toList.drop last)
    rw [← hline, hsize, hbefore] at hextract
    exact hextract

end LongestMatch

variable {m : Memory} {line : String} {lexemes : List Lexeme}

theorem sliceable_of_badCharacter
    {position : Nat} {c : Char} (h : scan line = .error (.badCharacter position c)) :
    Sliceable line 0 position := by
  obtain ⟨⟨cut, hmatch⟩, -, -⟩ := scan_eq_badCharacter_iff.mp h
  exact hmatch.sliceable (Nat.zero_le _) (Nat.le_refl _)

/-- From one lexeme up to another that comes after it. -/
theorem sliceable_of_sublist
    (hscan : scan line = .ok lexemes) {first last : Lexeme}
    (hsub : [first, last].Sublist lexemes) :
    Sliceable line first.position last.position ∧ Sliceable line first.position last.stop := by
  obtain ⟨-, hmatch⟩ := scan_eq_ok_iff.mp hscan
  have horder : first.stop ≤ last.position :=
    List.rel_of_pairwise_cons (hmatch.ordered.sublist hsub) List.mem_cons_self
  have hfirst := hmatch.position_lt_stop (hsub.subset List.mem_cons_self)
  have hmem : last ∈ lexemes := hsub.subset (List.mem_cons_of_mem _ List.mem_cons_self)
  have hlast := hmatch.position_lt_stop hmem
  have hstop := hmatch.stop_le_length hmem
  exact ⟨hmatch.sliceable (by omega) (by omega), hmatch.sliceable (by omega) (by omega)⟩

/-- The target of an assignment, which may be empty. -/
theorem sliceable_target
    {letWord first equals : Lexeme} {rest value : List Lexeme}
    (hscan : scan line = .ok (letWord :: first :: rest))
    (hequals : (first :: rest).dropWhile (!·.isEquals) = equals :: value) :
    Sliceable line first.position equals.position := by
  have hsuffix : equals :: value <:+ first :: rest := hequals ▸ List.dropWhile_suffix _
  have hmem : equals ∈ first :: rest := hsuffix.subset List.mem_cons_self
  rcases List.mem_cons.mp hmem with rfl | hrest
  · obtain ⟨-, hmatch⟩ := scan_eq_ok_iff.mp hscan
    have hin : equals ∈ letWord :: equals :: rest :=
      List.mem_cons_of_mem _ List.mem_cons_self
    have hpos := hmatch.position_lt_stop hin
    have hstop := hmatch.stop_le_length hin
    exact hmatch.sliceable (Nat.le_refl _) (by omega)
  · have hpair : [first, equals].Sublist (first :: rest) :=
      .cons_cons first (List.singleton_sublist.mpr hrest)
    exact (sliceable_of_sublist hscan (hpair.trans (List.sublist_cons_self _ _))).1

theorem sliceable_of_operatorRun
    (hscan : scan line = .ok lexemes) {first last : Lexeme}
    (hread : Statement.read m line lexemes = .error (.operatorRun first last)) :
    Sliceable line first.position last.stop :=
  (sliceable_of_sublist hscan (Statement.blames_of_read hread)).2

end Calculator
