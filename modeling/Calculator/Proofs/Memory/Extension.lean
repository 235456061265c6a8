import Calculator.Proofs.Grammar.Blame
import Calculator.Proofs.Grammar.Lookahead
import Calculator.Proofs.Memory.Parsed
import Calculator.Proofs.Scanning.Seams

/-!
# Lines that go on after an error

A line is refused at the first lexeme that cannot stand at its place, so nothing that follows can
mend it.  What a lexeme sees of those ahead must not change by what is added: the addition begins
neither with an operator nor with a parenthesis.  The errors that it can mend are those at the end
of a line (`LineError.IsAtEnd`); all others stay exactly as they are
(`Memory.parse_extended_error`).
-/

namespace Calculator

/-- The fault is that the line ends, and not what stands in it. -/
def SyntaxFault.IsAtEnd : SyntaxFault → Prop
  | .endOfInput | .unclosed _ | .letWithoutValue _ => True
  | _ => False

/-- The error is that the line ends: with a parenthesis that is still open, or where something is
missing, or before the `=` of an assignment. -/
def LineError.IsAtEnd (line : String) : LineError → Prop
  | .unpairedParen _ .opening => True
  | .invalid reason span =>
    reason = "'let' needs '=' and a value" ∨ ∃ length, span = some ⟨line.length, length⟩
  | _ => False

variable {m : Memory} {line after other : String} {ls more : List Lexeme} {l : Lexeme}
  {fault : SyntaxFault}

theorem SyntaxFault.isAtEnd_lineError (h : fault.IsAtEnd) :
    (fault.lineError line).IsAtEnd line := by
  cases fault with
  | endOfInput => exact .inr ⟨1, rfl⟩
  | unclosed => exact trivial
  | letWithoutValue => exact .inl rfl
  | unopened | operatorRun | unexpected | tooDeep | unknownFunction | wrongCount | unknownName
  | badName => exact h.elim

theorem Unfinished.isAtEnd_endFault (u : Unfinished) : u.endFault.IsAtEnd := by
  unfold endFault
  split <;> exact trivial

/-! ## What stands in the line -/

theorem slice_append_right {start stop : Nat} (h : stop ≤ line.length) :
    slice (line ++ after) start stop = slice line start stop := by
  rw [← String.length_toList] at h
  rw [slice, slice, String.toList_append]
  rcases Nat.le_total start line.toList.length with hstart | hstart
  · have hfits : stop - start ≤ (line.toList.drop start).length := by
      rw [List.length_drop]
      omega
    rw [List.drop_append_of_le_length hstart, List.take_append_of_le_length hfits]
  · have hnone : stop - start = 0 := by omega
    rw [hnone, List.take_zero, List.take_zero]

theorem targetText_append
    {stop : Nat} (hne : ls ≠ []) (h : stop ≤ line.length) :
    targetText (line ++ after) (ls ++ more) stop = targetText line ls stop := by
  cases ls with
  | nil => contradiction
  | cons first rest => rw [List.cons_append, targetText, targetText, slice_append_right h]

/-- A fault before the end of the line says the same of a line that goes on. -/
theorem SyntaxFault.lineError_append
    (hmatch : LongestMatch line.toList 0 line.length ls) (hblames : fault.Blames ls)
    (hend : ¬fault.IsAtEnd) : fault.lineError (line ++ after) = fault.lineError line := by
  cases fault with
  | operatorRun first last =>
      have hlast : last ∈ ls := hblames.subset (by simp)
      rw [lineError, lineError, slice_append_right (hmatch.inside last hlast).2]
  | endOfInput | unclosed | letWithoutValue => exact absurd trivial hend
  | unopened | unexpected | tooDeep | unknownFunction | wrongCount | unknownName | badName => rfl

/-! ## Reading on -/

/-- By induction on the lexemes before the error. -/
theorem Unfinished.read_append_of_error
    {u : Unfinished} (hmore : ShowsNothing more) (h : u.read m ls = .error fault)
    (hend : ¬fault.IsAtEnd) : u.read m (ls ++ more) = .error fault := by
  induction ls generalizing u with
  | nil =>
      rw [read, finish] at h
      split at h
      · cases h
      · cases h
        exact absurd u.isAtEnd_endFault hend
  | cons l ahead ih =>
      rw [read] at h
      rw [List.cons_append, read, ← step_of_seesAlike (.append hmore l ahead)]
      split at h
      · exact ih h
      · exact h

theorem Statement.read_append_of_error
    (after : String) (hmatch : LongestMatch line.toList 0 line.length ls)
    (hmore : ShowsNothing more)
    (h : Statement.read m line ls = .error fault) (hend : ¬fault.IsAtEnd) :
    Statement.read m (line ++ after) (ls ++ more) = .error fault := by
  have hexpr : ∀ {value : List Lexeme} {make : Expr → Statement},
      (Expr.read m value).map make = .error fault →
        (Expr.read m (value ++ more)).map make = .error fault := by
    intro value make hmap
    have hread := Except.map_eq_error_iff.mp hmap
    exact Except.map_eq_error_iff.mpr (Unfinished.read_append_of_error hmore hread hend)
  cases ls with
  | nil => cases h; exact absurd trivial hend
  | cons first rest =>
      rw [List.cons_append, Statement.read]
      rw [Statement.read] at h
      split at h
      · rename_i hlet
        rw [if_pos hlet, readAssignment]
        rw [readAssignment] at h
        split at h
        · cases h
          exact absurd trivial hend
        · rename_i equals value hdrop
          have hmem : equals ∈ rest :=
            (List.dropWhile_sublist _).subset (hdrop ▸ List.mem_cons_self)
          have hinside := (hmatch.inside equals (List.mem_cons_of_mem first hmem)).2
          have hposition : equals.position ≤ line.length :=
            Nat.le_trans (Nat.le_add_right _ _) hinside
          have hvalue : (rest ++ more).dropWhile (!·.isEquals) = equals :: (value ++ more) := by
            rw [List.dropWhile_append, hdrop]
            rfl
          have hname : targetText (line ++ after) (rest ++ more) equals.position =
              targetText line rest equals.position :=
            targetText_append (List.ne_nil_of_mem hmem) hposition
          simp only [hvalue, hname]
          dsimp only at h
          split at h
          · exact h
          · exact hexpr h
      · rename_i hlet
        rw [if_neg hlet]
        exact hexpr h

/-! ## Lines that go on -/

theorem toList_blank : " ".toList = [' '] :=
  rfl

/-- Set apart by a blank, two lines are scanned one after the other. -/
theorem scan_append_blank
    {ls' : List Lexeme} (hline : scan line = .ok ls) (hother : scan other = .ok ls') :
    scan (line ++ " " ++ other) =
      .ok (ls ++ ls'.map (·.relocate (line.length + 1 + ·))) := by
  obtain ⟨hne, hmatch⟩ := scan_eq_ok_iff.mp hline
  obtain ⟨-, hmatch'⟩ := scan_eq_ok_iff.mp hother
  rw [← String.length_toList] at hmatch hmatch'
  have hblank : LongestMatch [' '] 0 1 [] := all_isSkipped_iff.mp (by decide)
  have hleft : Seam line.toList [' '] := .of_parts_right fun c hc => by
    obtain rfl : c = ' ' := by simpa [eq_comm] using hc
    exact parts_of_isSkipped rfl
  have hright : Seam (line.toList ++ [' ']) other.toList := .of_parts_left fun c hc => by
    rw [List.getLast?_concat] at hc
    obtain rfl := Option.mem_some_iff.mp hc
    exact parts_of_isSkipped rfl
  have hboth := (hmatch.append hblank hleft).append hmatch' hright
  refine scan_eq_ok_iff.mpr ⟨by simp [hne], ?_⟩
  simpa only [String.toList_append, ← String.length_toList, List.length_append, List.map_nil,
    List.append_nil, toList_blank, List.length_singleton] using hboth

namespace Memory

/-- An error of a line that can be scanned, other than that the line ends, is the error also of the
line that goes on after it, set apart by a blank, with anything that can be scanned and begins
neither with an operator nor with an opening parenthesis. -/
theorem parse_extended_error
    {m : Memory} {line other : String} {fault : LineError} {ls rest : List Lexeme} {next : Lexeme}
    (hline : scan line = .ok ls) (h : m.parse line = .error fault) (hend : ¬fault.IsAtEnd line)
    (hother : scan other = .ok (next :: rest)) (hoperator : next.isOperator = false)
    (hparen : next.token ≠ .openParen) :
    m.parse (line ++ " " ++ other) = .error fault := by
  obtain ⟨-, hmatch⟩ := scan_eq_ok_iff.mp hline
  rcases parse_eq_error_iff.mp h with hscan | ⟨lexemes, refusal, hscan, hread, rfl⟩
  · rw [hline] at hscan
    cases hscan
  obtain rfl : ls = lexemes := Except.ok.inj (hline.symm.trans hscan)
  have hnotEnd : ¬refusal.IsAtEnd := fun hrefusal => hend (SyntaxFault.isAtEnd_lineError hrefusal)
  have hboth := scan_append_blank hline hother
  rw [String.append_assoc] at hboth ⊢
  have hmore : ShowsNothing ((next :: rest).map (·.relocate (line.length + 1 + ·))) := by
    rintro _ ⟨⟩
    exact ⟨hoperator, hparen⟩
  have hextended := Statement.read_append_of_error (" " ++ other) hmatch hmore hread hnotEnd
  rw [parse_of_scan hboth, hextended]
  exact congrArg Except.error
    (SyntaxFault.lineError_append hmatch (Statement.blames_of_read hread) hnotEnd)

/-- A run of operators at the end of the line is not mended by an operand. -/
theorem parse_extended_error_of_run :
    let line := "let y = 2 * (1 +  / *"
    fresh.parse line = .error (.adjacentOperators 15 "+  / *") ∧
    fresh.parse (line ++ " " ++ "let 3)") = .error (.adjacentOperators 15 "+  / *") := by
  intro line
  have hvalue : (fresh.evaluate line).1 = .error (.adjacentOperators 15 "+  / *") := by
    decide +kernel
  have hparse := parse_of_evaluate_span hvalue (by decide)
  have hline : scan line = .ok
      [⟨.letWord, "let", 0⟩, ⟨.identifier "y", "y", 4⟩, ⟨.equals, "=", 6⟩, ⟨.number 2, "2", 8⟩,
        ⟨.operator .mul, "*", 10⟩, ⟨.openParen, "(", 12⟩, ⟨.number 1, "1", 13⟩,
        ⟨.operator .add, "+", 15⟩, ⟨.operator .div, "/", 18⟩, ⟨.operator .mul, "*", 20⟩] := by
    decide +kernel
  have hother : scan "let 3)" = .ok
      [⟨.letWord, "let", 0⟩, ⟨.number 3, "3", 4⟩, ⟨.closeParen, ")", 5⟩] := by
    decide +kernel
  exact ⟨hparse, parse_extended_error hline hparse id hother rfl (by decide)⟩

end Memory

end Calculator
