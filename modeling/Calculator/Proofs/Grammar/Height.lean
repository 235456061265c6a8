import Calculator.Proofs.Grammar.Listing

/-!
# How high trees are

The evaluation of a tree is as deep a recursion as the tree is high.  The limit on nesting bounds
the height but for one way down: from a sum or a product to its left operand, which costs no
nesting, so that a chain of `n` operators is a tree of height `n + 1`
(`Derivation.height_sumOfOnes`).  All other ways together are bounded (`Derivation.isLow`),
whatever the line.
-/

namespace Calculator

/-! ## Height -/

namespace Expr

mutual

/-- The height of a tree, if a step to the left operand of an operator counts as given. -/
@[simp]
def heightBy (leftStep : Operator → Nat) : Expr → Nat
  | .number _ _ | .constant _ _ _ | .reference _ _ | .answer _ => 1
  | .negate _ operand => operand.heightBy leftStep + 1
  | .binary _ op left right =>
    max (left.heightBy leftStep + leftStep op) (right.heightBy leftStep + 1)
  | .call _ _ arguments => heightAllBy leftStep arguments + 1

@[simp]
def heightAllBy (leftStep : Operator → Nat) : List Expr → Nat
  | [] => 0
  | first :: rest => max (first.heightBy leftStep) (heightAllBy leftStep rest)

end

/-- The number of evaluations that are under way at once when a tree is evaluated: one for each node
on the longest way down. -/
def height (e : Expr) : Nat :=
  e.heightBy fun _ => 1

end Expr

/-- The operators that chain to the left: those of sums and products. -/
def Operator.chains (op : Operator) : Bool :=
  op != .pow

/-- The height of a tree in which chains of sums and products are flat: the step from such an
operator to its left operand does not count. -/
def Expr.flatHeight (e : Expr) : Nat :=
  e.heightBy fun op => if op.chains then 0 else 1

/-- The lexeme is one of `+`, `-`, `*` and `/`. -/
def Lexeme.chains (l : Lexeme) : Bool :=
  l.token.operator?.any Operator.chains

namespace Expr

variable {leftStep : Operator → Nat}

theorem heightAllBy_le_iff {es : List Expr} {n : Nat} :
    heightAllBy leftStep es ≤ n ↔ ∀ e ∈ es, e.heightBy leftStep ≤ n := by
  induction es with
  | nil => simp
  | cons first rest ih => rw [heightAllBy, Nat.max_le, ih, List.forall_mem_cons]

/-- The token of an operator that chains. -/
def chainsAt (entry : Nat × Token) : Bool :=
  entry.2.operator?.any Operator.chains

theorem countP_listing_le_listingAll {e : Expr} {es : List Expr} (he : e ∈ es) :
    e.listing.countP chainsAt ≤ (listingAll es).countP chainsAt := by
  induction es with
  | nil => cases he
  | cons first rest ih =>
      rw [listingAll, List.countP_append]
      rcases List.mem_cons.mp he with rfl | hrest
      · exact Nat.le_add_right _ _
      · exact Nat.le_trans (ih hrest) (Nat.le_add_left _ _)

/-- Each operator that chains adds at most one to the height of the flat tree. -/
theorem height_le (e : Expr) : e.height ≤ e.flatHeight + e.listing.countP chainsAt := by
  unfold height flatHeight
  induction e using inductionOnChildren with
  | node e ih =>
      rcases e with _ | _ | _ | _ | ⟨position, operand⟩ | ⟨position, op, left, right⟩ |
        ⟨position, name, arguments⟩
      case negate =>
        have hoperand := ih operand (by simp)
        simp only [heightBy, listing, List.countP_cons]
        omega
      case binary =>
        have hleft := ih left (by simp)
        have hright := ih right (by simp)
        simp only [heightBy, listing, List.countP_append, List.countP_cons, chainsAt,
          Token.operator?, Option.any_some]
        by_cases hop : op.chains = true
        · simp only [hop, if_true]
          omega
        · simp only [hop, Bool.false_eq_true, if_false]
          omega
      case call =>
        simp only [heightBy, listing, List.countP_cons]
        suffices heightAllBy (fun _ => 1) arguments ≤
            heightAllBy (fun op => if op.chains then 0 else 1) arguments +
              (listingAll arguments).countP chainsAt by omega
        rw [heightAllBy_le_iff]
        intro e he
        have hchild := ih e he
        have hheight := heightAllBy_le_iff.mp (Nat.le_refl
          (heightAllBy (fun op => if op.chains then 0 else 1) arguments)) e he
        have hcount := countP_listing_le_listingAll he
        omega
      all_goals simp

end Expr

namespace Derivation

/-! ## Derivations are low -/

/-- What a derivation that opens at most `levels` levels of nesting stands for is low: each level
costs five steps, one for an operand of a sum, a product and a power, one for a minus sign, and one
for a call or a number.  The rest of a chain keeps the tree before it low. -/
def IsLow (levels : Nat) : (c : Category) → Derivation c → Prop
  | .primary, d => Expr.flatHeight d.tree ≤ 5 * levels + 1
  | .unary, d => Expr.flatHeight d.tree ≤ 5 * levels + 2
  | .power, d => Expr.flatHeight d.tree ≤ 5 * levels + 3
  | .powerRest, d =>
    ∀ base : Expr, base.flatHeight ≤ 5 * levels + 2 →
      Expr.flatHeight (d.tree base) ≤ 5 * levels + 3
  | .term, d => Expr.flatHeight d.tree ≤ 5 * levels + 4
  | .termRest, d =>
    ∀ left : Expr, left.flatHeight ≤ 5 * levels + 4 →
      Expr.flatHeight (d.tree left) ≤ 5 * levels + 4
  | .expr, d => Expr.flatHeight d.tree ≤ 5 * levels + 5
  | .exprRest, d =>
    ∀ left : Expr, left.flatHeight ≤ 5 * levels + 5 →
      Expr.flatHeight (d.tree left) ≤ 5 * levels + 5
  | .arguments, d | .argumentsRest, d => ∀ e ∈ d.tree, e.flatHeight ≤ 5 * levels + 5

theorem flatHeight_ofName (position : Nat) (name : String) :
    (Expr.ofName position name).flatHeight = 1 := by
  unfold Expr.ofName
  split
  · rfl
  · split <;> rfl

theorem flatHeight_chain
    {op : Operator} (hop : op.chains = true) (position : Nat) (left right : Expr) :
    (Expr.binary position op left right).flatHeight =
      max left.flatHeight (right.flatHeight + 1) := by
  simp [Expr.flatHeight, hop]

theorem isLow
    {m : Memory} {c : Category} (d : Derivation c) {around : Nat} (h : d.Admissible m around) :
    d.IsLow (maxDepth - around) := by
  induction d generalizing around with
  | expr first rest ihFirst ihRest =>
      rw [admissible_expr] at h
      exact ihRest h.2 first.tree (Nat.le_succ_of_le (ihFirst h.1))
  | term first rest ihFirst ihRest =>
      rw [admissible_term] at h
      exact ihRest h.2 first.tree (Nat.le_succ_of_le (ihFirst h.1))
  | power base rest ihBase ihRest =>
      rw [admissible_power] at h
      exact ihRest h.2 base.tree (ihBase h.1)
  | exprEnd | termEnd => exact fun left hleft => hleft
  | powerEnd => exact fun base hbase => Nat.le_succ_of_le hbase
  | exprMore op hop sign next rest ihNext ihRest =>
      rw [admissible_exprMore] at h
      have hnext : Expr.flatHeight next.tree ≤ 5 * (maxDepth - around) + 4 := ihNext h.1
      have hchains : op.chains = true := by rcases hop with rfl | rfl <;> rfl
      intro left hleft
      apply ihRest h.2
      rw [flatHeight_chain hchains]
      omega
  | termMore op hop sign next rest ihNext ihRest =>
      rw [admissible_termMore] at h
      have hnext : Expr.flatHeight next.tree ≤ 5 * (maxDepth - around) + 3 := ihNext h.1
      have hchains : op.chains = true := by rcases hop with rfl | rfl <;> rfl
      intro left hleft
      apply ihRest h.2
      rw [flatHeight_chain hchains]
      omega
  | powerMore caret exponent ihExponent =>
      rw [admissible_powerMore] at h
      have hexponent : Expr.flatHeight exponent.tree ≤ 5 * (maxDepth - (around + 1)) + 3 :=
        ihExponent h.2
      intro base hbase
      have hheight : Expr.flatHeight ((powerMore caret exponent).tree base) =
          max (base.flatHeight + 1) (Expr.flatHeight exponent.tree + 1) := by
        simp [Expr.flatHeight, Operator.chains]
      rw [hheight]
      omega
  | positive operand ihOperand =>
      rw [admissible_positive] at h
      exact Nat.le_succ_of_le (ihOperand h)
  | negative minus operand ihOperand =>
      rw [admissible_negative] at h
      exact Nat.succ_le_succ (ihOperand h)
  | number value literal => exact Nat.le_add_left 1 _
  | name spelling word => exact (flatHeight_ofName _ _).le.trans (Nat.le_add_left 1 _)
  | call spelling word opening args closing ihArgs =>
      rw [admissible_call] at h
      have hargs : ∀ e ∈ args.tree, e.flatHeight ≤ 5 * (maxDepth - (around + 1)) + 5 :=
        ihArgs h.2.2
      have hall := Expr.heightAllBy_le_iff.mpr hargs
      have hheight : Expr.flatHeight (call spelling word opening args closing).tree =
          Expr.heightAllBy (fun op => if op.chains then 0 else 1) args.tree + 1 := rfl
      show Expr.flatHeight (call spelling word opening args closing).tree ≤ _
      rw [hheight]
      omega
  | group opening inner closing ihInner =>
      rw [admissible_group] at h
      have hinner : Expr.flatHeight inner.tree ≤ 5 * (maxDepth - (around + 1)) + 5 := ihInner h.2
      show Expr.flatHeight inner.tree ≤ 5 * (maxDepth - around) + 1
      omega
  | arguments first rest ihFirst ihRest =>
      rw [admissible_arguments] at h
      exact List.forall_mem_cons.mpr ⟨ihFirst h.1, ihRest h.2⟩
  | argumentsEnd => exact fun e he => (List.not_mem_nil he).elim
  | argumentsMore comma next rest ihNext ihRest =>
      rw [admissible_argumentsMore] at h
      exact List.forall_mem_cons.mpr ⟨ihNext h.1, ihRest h.2⟩

end Derivation

/-! ## Long chains are high -/

namespace Derivation

/-- The number one, as an operand. -/
def one (position : Nat) : Derivation .term :=
  .term (.power (.positive (.number (Decimal.toFloat ⟨1, 0⟩) ⟨⟨_, "1", position⟩, rfl⟩)) .powerEnd)
    .termEnd

/-- Any number of times `+1`. -/
def ones (position : Nat) : Nat → Derivation .exprRest
  | 0 => .exprEnd
  | n + 1 =>
    .exprMore .add (.inl rfl) ⟨⟨_, "+", position⟩, rfl⟩ (one (position + 1)) (ones (position + 2) n)

/-- The sum of `n + 1` ones. -/
def sumOfOnes (n : Nat) : Derivation .expr :=
  .expr (one 0) (ones 1 n)

/-- The text of `ones`. -/
def onesText : Nat → List Char
  | 0 => []
  | n + 1 => '+' :: '1' :: onesText n

theorem scanFrom_one
    {rest : List Char} (h : ∀ c ∈ rest.head?, c = '+' ∨ c = ')') (position : Nat) :
    scanFrom position ('1' :: rest) =
      (scanFrom (position + 1) rest).map ((one position).yield ++ ·) := by
  have hread : Token.read? ('1' :: rest) =
      some (.number (Decimal.toFloat ⟨1, 0⟩), ['1'], rest) := by
    rcases rest with _ | ⟨c, rest⟩
    · rfl
    · rcases h c rfl with rfl | rfl <;> rfl
  exact scanFrom_token rfl hread position

theorem scanFrom_onesText (position n : Nat) :
    scanFrom position (onesText n) = .ok (ones position n).yield := by
  induction n generalizing position with
  | zero => simp [onesText, ones, scanFrom]
  | succ n ih =>
      have hnext : ∀ c ∈ (onesText n).head?, c = '+' ∨ c = ')' := by
        rcases n with _ | n <;> simp [onesText]
      have hplus : Token.read? ('+' :: '1' :: onesText n) =
          some (.operator .add, ['+'], '1' :: onesText n) := rfl
      rw [onesText, scanFrom_token rfl hplus, List.length_singleton, scanFrom_one hnext, ih]
      rfl

theorem scan_sumOfOnes (n : Nat) :
    scan (String.ofList ('1' :: onesText n)) = .ok (sumOfOnes n).yield := by
  have hnext : ∀ c ∈ (onesText n).head?, c = '+' ∨ c = ')' := by
    rcases n with _ | n <;> simp [onesText]
  have hvisible : ('1' :: onesText n).all isSkipped = false := by
    simp [isSkipped]
  rw [scan, String.toList_ofList, hvisible, if_neg Bool.false_ne_true, scanFrom_one hnext,
    scanFrom_onesText]
  rfl

theorem admissible_sumOfOnes (m : Memory) (n : Nat) : (sumOfOnes n).Admissible m 0 := by
  have hones : ∀ position, (ones position n).Admissible m 0 := by
    induction n with
    | zero => simp [ones]
    | succ n ih => simp [ones, one, ih]
  simp [sumOfOnes, one, hones]

theorem height_ones (position n : Nat) {left : Expr} (h : 0 < left.height) :
    Expr.height ((ones position n).tree left) = left.height + n := by
  induction n generalizing position left with
  | zero => rfl
  | succ n ih =>
      have hstep : (Expr.binary position .add left (one (position + 1)).tree).height =
          left.height + 1 := by
        show max (left.height + 1) (1 + 1) = _
        omega
      rw [ones, tree, ih _ (by rw [hstep]; omega), hstep]
      omega

theorem height_sumOfOnes (n : Nat) : Expr.height (sumOfOnes n).tree = n + 1 := by
  have hone : Expr.height (one 0).tree = 1 := rfl
  rw [sumOfOnes, tree, height_ones _ _ (by omega), hone]
  omega

end Derivation

/-! ## Parsed lines -/

/-- No bound on height holds for all lines that are parsed: a sum of ones is as high as it is
long. -/
theorem Memory.not_exists_height_bound :
    ¬∃ bound : Nat, ∀ (m : Memory) (line : String) (s : Statement),
      m.parse line = .ok s → s.value.height ≤ bound := by
  rintro ⟨bound, hbound⟩
  have hparse := parse_eq_expression_iff.mpr ⟨_, Derivation.scan_sumOfOnes bound,
    Derivation.admissible_sumOfOnes fresh bound, rfl⟩
  have hheight : Expr.height (Derivation.sumOfOnes bound).tree ≤ bound := hbound _ _ _ hparse
  rw [Derivation.height_sumOfOnes] at hheight
  omega

theorem countP_marks_le (ls : List Lexeme) :
    (marks ls).countP Expr.chainsAt ≤ ls.countP Lexeme.chains := by
  rw [marks, List.countP_map]
  exact List.filter_sublist.countP_le

/-- The height of a parsed tree is bounded but for chains of `+`, `-`, `*` and `/`.  The bound does
not depend on the line if the steps to the left operands of these operators are left out, and each
such operator in the line adds at most one to the height. -/
theorem Memory.height_le_of_parse
    {m : Memory} {line : String} {s : Statement} (h : m.parse line = .ok s) :
    s.value.flatHeight ≤ 5 * (maxDepth + 1) ∧
      ∃ lexemes, scan line = .ok lexemes ∧
        s.value.height ≤ 5 * (maxDepth + 1) + lexemes.countP Lexeme.chains := by
  obtain ⟨lexemes, hscan, hread⟩ := parse_eq_ok_iff.mp h
  obtain ⟨d, rfl, hadm, rfl⟩ := (Statement.read_eq_ok_iff hscan).mp hread
  obtain ⟨value, hvalue, hsub, htree⟩ : ∃ value : Derivation .expr, value.Admissible m 0 ∧
      value.yield.Sublist d.yield ∧ d.tree.value = value.tree := by
    rcases d with value | ⟨letWord, name, target, equals, value⟩
    · exact ⟨value, hadm, List.Sublist.refl _, rfl⟩
    · exact ⟨value, hadm.2,
        (List.suffix_append [letWord.1, target.1, equals.1] value.yield).sublist, rfl⟩
  have hmatch := (scan_eq_ok_iff.mp hscan).2
  have hlow : value.tree.flatHeight ≤ 5 * maxDepth + 5 := value.isLow hvalue
  have hlists : value.tree.listing = marks value.yield :=
    value.lists (fun l hl name htoken => hmatch.text_of_identifier hl htoken) hsub.subset
  have hheight := value.tree.height_le
  have hcount : (marks value.yield).countP Expr.chainsAt ≤ d.yield.countP Lexeme.chains :=
    (countP_marks_le value.yield).trans (hsub.countP_le)
  rw [htree]
  rw [hlists] at hheight
  exact ⟨by omega, _, hscan, by omega⟩

/-- Groups, calls, powers and signs within each other, with a product in them. -/
theorem Memory.height_le_of_parse_nested :
    let line := "-(2 * -abs(-3 ^ -(4 ^ 5))) + 6 + 7"
    ∃ s lexemes, fresh.parse line = .ok s ∧ scan line = .ok lexemes ∧
      s.value.height = 10 ∧ s.value.flatHeight = 8 ∧ lexemes.countP Lexeme.chains = 7 ∧
      s.value.flatHeight ≤ 5 * (maxDepth + 1) ∧
      s.value.height ≤ 5 * (maxDepth + 1) + lexemes.countP Lexeme.chains := by
  intro line
  have hheights : (fresh.parse line).toOption.map (fun s => (s.value.height, s.value.flatHeight)) =
      some (10, 8) := by decide +kernel
  have hcount : (scan line).toOption.map (·.countP Lexeme.chains) = some 7 := by decide +kernel
  rcases hparse : fresh.parse line with fault | s
  · rw [hparse] at hheights
    cases hheights
  · obtain ⟨hflat, lexemes, hscan, hheight⟩ := height_le_of_parse hparse
    rw [hparse, Except.toOption, Option.map_some, Option.some.injEq, Prod.mk.injEq] at hheights
    rw [hscan, Except.toOption, Option.map_some, Option.some.injEq] at hcount
    exact ⟨s, lexemes, rfl, hscan, hheights.1, hheights.2, hcount, hflat, hheight⟩

end Calculator
