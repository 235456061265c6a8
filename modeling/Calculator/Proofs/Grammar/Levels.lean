import Calculator.Proofs.Grammar.Steps

/-!
# Levels entered and left

A count of the levels of nesting goes up at each parenthesis and each `^`, and down again where a
parenthesis closes and where a power ends.  A power ends with the first lexeme after its exponent
that is not another `^`, whatever comes of that lexeme.  Kept over any run of the reader
(`Unfinished.Arrives`), the count never drops below zero and never exceeds the limit
(`Unfinished.Arrives.count_bounds`), because it is at each moment the number of levels around the
next lexeme (`Unfinished.inLimit_of_step`).
-/

namespace Calculator

namespace Unfinished

variable {m : Memory} {u next : Unfinished} {lexeme : Lexeme} {ahead ls rest : List Lexeme}

/-- A parenthesis is closed by the next token, if there is one. -/
def closes (u : Unfinished) (token : Option Token) : Nat :=
  if token = some .closeParen ∧ u.enclosures ≠ [] then 1 else 0

/-- The levels that are left when the next token is seen, or the end of the line. -/
def leaves (u : Unfinished) (token : Option Token) : Nat :=
  match u.focus with
  | .operand | .callee _ _ => 0
  | .firstArgument => u.closes token
  | .value _ =>
    if token = some (.operator .pow) then 0 else u.pending.powers.length + u.closes token

/-- The levels that are entered when a token is read. -/
def enters (u : Unfinished) (token : Token) : Nat :=
  match u.focus with
  | .operand | .firstArgument => if token = .openParen then 1 else 0
  | .callee _ _ => 1
  | .value _ => if token = .operator .pow then 1 else 0

/-- Reading `ls` has come to the state `u` with `rest` still to be read, and `count` of the levels
entered so far are not left yet. -/
inductive Arrives (m : Memory) (ls : List Lexeme) : Int → Unfinished → List Lexeme → Prop where
  | start : Arrives m ls 0 .start ls
  | step {count : Int} {u next : Unfinished} {lexeme : Lexeme} {ahead : List Lexeme} :
    Arrives m ls count u (lexeme :: ahead) → u.step m lexeme ahead = .ok next →
      Arrives m ls (count - u.leaves (some lexeme.token) + u.enters lexeme.token) next ahead

/-! ## Levels around a state -/

/-- The levels around the innermost enclosure, with the enclosure itself. -/
def levels (es : List Enclosure) : Nat :=
  es.foldr (fun e depth => depth + 1 + e.outside.powers.length) 0

@[simp]
theorem levels_nil : levels [] = 0 := rfl

@[simp]
theorem levels_cons (e : Enclosure) (es : List Enclosure) :
    levels (e :: es) = levels es + 1 + e.outside.powers.length := rfl

theorem depth_eq (u : Unfinished) : u.depth = levels u.enclosures + u.pending.powers.length :=
  foldr_enclosures _ _

@[simp]
theorem depth_complete (u : Unfinished) (operand : Expr) : (u.complete operand).depth = u.depth :=
  rfl

theorem closes_le (u : Unfinished) (token : Option Token) :
    u.closes token ≤ levels u.enclosures := by
  unfold closes
  split
  · rename_i h
    obtain ⟨e, es, hopen⟩ := List.exists_cons_of_ne_nil h.2
    rw [hopen, levels_cons]
    omega
  · exact Nat.zero_le _

/-- No more levels are left than there are. -/
theorem leaves_le_depth (u : Unfinished) (token : Option Token) : u.leaves token ≤ u.depth := by
  have hcloses := u.closes_le token
  rw [depth_eq]
  unfold leaves
  split
  · exact Nat.zero_le _
  · exact Nat.zero_le _
  · omega
  · split <;> omega

/-! ## One step -/

/-- The state is within the limit, and nothing waits at the beginning of an argument list. -/
structure InLimit (u : Unfinished) : Prop where
  depth_le : u.depth ≤ maxDepth
  fresh : u.focus = .firstArgument → u.pending.powers = []

theorem InLimit.of_depth_le
    (h : u.InLimit) (hdepth : next.depth ≤ u.depth) (hfocus : next.focus ≠ .firstArgument) :
    next.InLimit :=
  ⟨Nat.le_trans hdepth h.depth_le, fun hfirst => (hfocus hfirst).elim⟩

/-- A parenthesis is one more level, and is only read below the limit. -/
theorem inLimit_of_enclose
    {opening : Opening} {focus : Focus} (h : u.enclose lexeme opening focus = .ok next) :
    next.InLimit ∧ next.depth = u.depth + 1 := by
  obtain ⟨hdepth, rfl⟩ := enclose_eq_ok_iff.mp h
  have hnext : depth ⟨.empty, ⟨lexeme, opening, u.pending⟩ :: u.enclosures, focus⟩ =
      u.depth + 1 := depth_enclosed lexeme opening
  exact ⟨⟨by omega, fun _ => rfl⟩, hnext⟩

theorem inLimit_of_closeCall
    {outside : Pending} {outer : List Enclosure} {name : Lexeme} {function : Primitive}
    {arguments : List Expr} (hlevels : levels outer + outside.powers.length ≤ maxDepth)
    (h : closeCall outside outer name function arguments = .ok next) :
    next.InLimit ∧ next.depth = levels outer + outside.powers.length := by
  unfold closeCall at h
  split at h
  · obtain rfl := Except.ok.inj h
    have hdepth := depth_eq ⟨outside, outer, .operand⟩
    rw [depth_complete, hdepth]
    exact ⟨⟨by rw [depth_complete, hdepth]; exact hlevels, by simp [complete]⟩, rfl⟩
  · cases h

theorem inLimit_of_readOperand
    (hlimit : u.InLimit) (h : u.readOperand m lexeme ahead = .ok next) :
    next.InLimit ∧ lexeme.token ≠ .closeParen ∧
      next.depth = u.depth + if lexeme.token = .openParen then 1 else 0 := by
  unfold readOperand at h
  split at h
  · rename_i htoken
    obtain rfl := Except.ok.inj h
    exact ⟨hlimit.of_depth_le (Nat.le_refl _) (by simp [complete]), by simp [htoken]⟩
  · rename_i htoken
    split at h
    · split at h
      · obtain rfl := Except.ok.inj h
        exact ⟨hlimit.of_depth_le (Nat.le_refl _) (by simp), by simp [htoken, depth]⟩
      · cases h
    · split at h
      · obtain rfl := Except.ok.inj h
        exact ⟨hlimit.of_depth_le (Nat.le_refl _) (by simp [complete]), by simp [htoken]⟩
      · cases h
  · rename_i htoken
    obtain ⟨hnext, hdepth⟩ := inLimit_of_enclose h
    exact ⟨hnext, by simp [htoken], by simp [htoken, hdepth]⟩
  · split at h <;> cases h
  · rename_i htoken
    split at h
    · cases h
    · split at h
      · obtain rfl := Except.ok.inj h
        exact ⟨hlimit.of_depth_le (Nat.le_refl _) (by simp), by simp [htoken, depth]⟩
      · cases h
  · cases h

/-- Before anything but a `^` the powers of the group end. -/
theorem inLimit_of_readOperator
    (hlimit : u.InLimit) {value : Expr} (h : u.readOperator value lexeme ahead = .ok next) :
    next.InLimit ∧
      if lexeme.token = .operator .pow then next.depth = u.depth + 1
      else next.depth + (u.pending.powers.length + u.closes (some lexeme.token)) = u.depth := by
  have hlevels := u.depth_eq
  have hle := hlimit.depth_le
  unfold readOperator at h
  split at h
  · rename_i op htoken
    split at h
    · cases h
    · split at h
      · cases h
      · rename_i hshallow
        obtain rfl := Except.ok.inj h
        have hclose : u.closes (some lexeme.token) = 0 := by simp [closes, htoken]
        by_cases hpow : op = .pow
        · subst hpow
          have hnext : depth ⟨u.pending.push .pow lexeme.position value, u.enclosures, .operand⟩ =
              u.depth + 1 := depth_push_pow lexeme.position value
          simp only [decide_true, Bool.true_and, decide_eq_true_eq, Nat.not_le] at hshallow
          rw [if_pos htoken]
          exact ⟨⟨by omega, by simp⟩, hnext⟩
        · have hnext : depth ⟨u.pending.push op lexeme.position value, u.enclosures, .operand⟩ =
              levels u.enclosures := by
            rw [depth_eq]
            rcases op with _ | _ | _ | _ | _ <;> simp [Pending.push] at hpow ⊢
          rw [if_neg (by simp [htoken, hpow]), hclose]
          exact ⟨hlimit.of_depth_le (by omega) (by simp), by omega⟩
  · rename_i htoken
    rw [if_neg (by simp [htoken])]
    split at h
    · cases h
    · rename_i paren outside outer hopen
      obtain rfl := Except.ok.inj h
      have hclose : u.closes (some lexeme.token) = 1 := by simp [closes, htoken, hopen]
      rw [hopen, levels_cons] at hlevels
      dsimp only at hlevels
      have hdepth := depth_eq ⟨outside, outer, .operand⟩
      dsimp only at hdepth
      refine ⟨hlimit.of_depth_le ?_ (by simp [complete]), ?_⟩
      · rw [depth_complete]
        omega
      · rw [depth_complete]
        omega
    · rename_i paren name function arguments outside outer hopen
      have hclose : u.closes (some lexeme.token) = 1 := by simp [closes, htoken, hopen]
      rw [hopen, levels_cons] at hlevels
      dsimp only at hlevels
      obtain ⟨hnext, hdepth⟩ := inLimit_of_closeCall (by omega) h
      exact ⟨hnext, by omega⟩
  · rename_i htoken
    rw [if_neg (by simp [htoken])]
    have hclose : u.closes (some lexeme.token) = 0 := by simp [closes, htoken]
    split at h
    · rename_i paren name function arguments outside outer hopen
      obtain rfl := Except.ok.inj h
      rw [hopen] at hlevels
      have hnext : depth ⟨.empty, ⟨paren, .call name function
          (arguments ++ [u.pending.completeSum value]), outside⟩ :: outer, .operand⟩ =
          levels outer + 1 + outside.powers.length := depth_eq _
      dsimp only [levels_cons] at hlevels
      exact ⟨hlimit.of_depth_le (by omega) (by simp), by omega⟩
    · cases h
  · cases h

/-- A step enters and leaves the levels that it should. -/
theorem inLimit_of_step
    (hlimit : u.InLimit) (h : u.step m lexeme ahead = .ok next) :
    next.InLimit ∧
      next.depth + u.leaves (some lexeme.token) = u.depth + u.enters lexeme.token := by
  unfold step at h
  split at h
  · rename_i hfocus
    obtain ⟨hnext, -, hdepth⟩ := inLimit_of_readOperand hlimit h
    exact ⟨hnext, by simp [leaves, enters, hfocus, hdepth]⟩
  · rename_i hfocus
    split at h
    · rename_i paren name function arguments outside outer htoken hopen
      have hlevels := u.depth_eq
      have hle := hlimit.depth_le
      rw [hlimit.fresh hfocus, hopen, levels_cons] at hlevels
      dsimp only [List.length_nil] at hlevels
      obtain ⟨hnext, hdepth⟩ := inLimit_of_closeCall (by omega) h
      have hleaves : u.leaves (some lexeme.token) = 1 := by
        simp [leaves, hfocus, closes, htoken, hopen]
      have henters : u.enters lexeme.token = 0 := by simp [enters, hfocus, htoken]
      exact ⟨hnext, by omega⟩
    · obtain ⟨hnext, htoken, hdepth⟩ := inLimit_of_readOperand hlimit h
      exact ⟨hnext, by simp [leaves, enters, hfocus, closes, htoken, hdepth]⟩
  · rename_i hfocus
    obtain ⟨hnext, hdepth⟩ := inLimit_of_enclose h
    exact ⟨hnext, by simp [leaves, enters, hfocus, hdepth]⟩
  · rename_i hfocus
    obtain ⟨hnext, hdepth⟩ := inLimit_of_readOperator hlimit h
    refine ⟨hnext, ?_⟩
    by_cases hpow : lexeme.token = .operator .pow
    · rw [if_pos hpow] at hdepth
      simp [leaves, enters, hfocus, hpow, hdepth]
    · rw [if_neg hpow] at hdepth
      simp [leaves, enters, hfocus, hpow, hdepth]

/-! ## A run -/

/-- The reader goes on from each state that it arrives at. -/
theorem Arrives.read_eq
    {count : Int} (h : Arrives m ls count u rest) : u.read m rest = Expr.read m ls := by
  induction h with
  | start => rfl
  | step _ hstep ih => rw [← ih, read, hstep]

theorem Arrives.inLimit
    {count : Int} (h : Arrives m ls count u rest) : u.InLimit ∧ count = u.depth := by
  induction h with
  | start => exact ⟨⟨Nat.zero_le _, fun _ => rfl⟩, rfl⟩
  | step _ hstep ih =>
      obtain ⟨hlimit, hcount⟩ := ih
      obtain ⟨hnext, hdepth⟩ := inLimit_of_step hlimit hstep
      exact ⟨hnext, by omega⟩

/-- The count is the number of levels, stays within the limit, and does not drop below zero when
levels are left, be it before a lexeme that is refused.  If the line is read to its end, then all
levels are left. -/
theorem Arrives.count_bounds
    {count : Int} (h : Arrives m ls count u rest) :
    count = u.depth ∧ count ≤ maxDepth ∧
      (∀ token, 0 ≤ count - u.leaves token) ∧
      ∀ e, u.finish = .ok e → count - u.leaves none = 0 := by
  obtain ⟨hlimit, hcount⟩ := h.inLimit
  have hle := hlimit.depth_le
  refine ⟨hcount, by omega, ?_, ?_⟩
  · intro token
    have := u.leaves_le_depth token
    omega
  · intro e hfinish
    unfold finish at hfinish
    split at hfinish
    · rename_i hfocus hopen
      have hlevels := u.depth_eq
      rw [hopen, levels_nil] at hlevels
      have hleaves : u.leaves none = u.pending.powers.length := by
        simp [leaves, hfocus, closes]
      omega
    · cases hfinish

end Unfinished

end Calculator
