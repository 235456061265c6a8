import Calculator.Proofs.Memory.Parsed
import Calculator.Proofs.Memory.Relocation
import Calculator.Proofs.Memory.Table
import Calculator.Proofs.Scanning.Substitution

/-!
# A variable means its value

A line in which a variable is bound to the value of some expression has the value of the line with
the expression written for the variable, in parentheses.  The lexemes of the new line have a
derivation of the same shape, where a group stands for each such name
(`Derivation.exists_replaced`); so neither precedence nor operators next to the name play a part.
-/

namespace Calculator

/-! ## Trees of the same value -/

/-- In the one memory the first tree has the value that the second has in the other, or fails as
that does, wherever their nodes stand. -/
def SameValue (m' : Memory) (e' : Expr) (m : Memory) (e : Expr) : Prop :=
  m'.eval (e'.relocate fun _ => 0) = m.eval (e.relocate fun _ => 0)

namespace SameValue

variable {m m' : Memory} {e e' left left' right right' : Expr} {es es' : List Expr}

theorem negate (h : SameValue m' e' m e) (position' position : Nat) :
    SameValue m' (.negate position' e') m (.negate position e) := by
  unfold SameValue at h ⊢
  rw [Expr.relocate, Expr.relocate, Memory.eval, Memory.eval, h]

theorem binary
    (hleft : SameValue m' left' m left) (hright : SameValue m' right' m right)
    (op : Operator) (position' position : Nat) :
    SameValue m' (.binary position' op left' right') m (.binary position op left right) := by
  unfold SameValue at hleft hright ⊢
  rw [Expr.relocate, Expr.relocate, Memory.eval, Memory.eval, hleft, hright]

theorem evalAll
    (h : List.Forall₂ (fun e' e => SameValue m' e' m e) es' es) :
    m'.evalAll (es'.map (·.relocate fun _ => 0)) = m.evalAll (es.map (·.relocate fun _ => 0)) := by
  induction h with
  | nil => rfl
  | cons hfirst _ ih =>
      unfold SameValue at hfirst
      rw [List.map_cons, List.map_cons, Memory.evalAll, Memory.evalAll, hfirst, ih]

theorem call
    (h : List.Forall₂ (fun e' e => SameValue m' e' m e) es' es) (name : String)
    (position' position : Nat) :
    SameValue m' (.call position' name es') m (.call position name es) := by
  unfold SameValue
  rw [Expr.relocate, Expr.relocate, Expr.relocateAll_eq_map, Expr.relocateAll_eq_map, Memory.eval,
    Memory.eval, evalAll h]

end SameValue

/-! ## Names -/

theorem Expr.relocate_ofName (f : Nat → Nat) (position : Nat) (name : String) :
    (ofName position name).relocate f = ofName (f position) name := by
  unfold ofName
  split
  · rfl
  · split <;> rfl

namespace Memory

variable {x name : String} {v : Float}

theorem get?_bound (m : Memory) (x name : String) (v : Float) :
    (m.bound x v).bindings.get? name = if name = x then some v else m.bindings.get? name :=
  m.bindings.get?_insert x name v

theorem eval_ofName_bound
    {m : Memory} (hx : Name.check x = .ok ()) (position : Nat) :
    (m.bound x v).eval (.ofName position x) = .ok v := by
  obtain ⟨-, hconstant, -, hanswer, -⟩ := Name.fault?_eq_none_iff.mp (Name.check_eq_ok_iff.mp hx)
  have hfind : NamedConstant.find? x = none := by simpa [Name.isConstant] using hconstant
  rw [Expr.ofName, if_neg hanswer, hfind, eval, get?_bound, if_pos rfl]

theorem eval_ofName_of_ne
    (m : Memory) (hne : name ≠ x) (position : Nat) :
    m.eval (.ofName position name) = (m.bound x v).eval (.ofName position name) := by
  unfold Expr.ofName
  split
  · rfl
  · split
    · rfl
    · rw [eval, eval, get?_bound, if_neg hne]

theorem knows_bound_iff
    (m : Memory) (hne : name ≠ x) : (m.bound x v).Knows name ↔ m.Knows name := by
  unfold Knows Bindings.contains
  rw [get?_bound, if_neg hne]
  rfl

end Memory

/-! ## Derivations of the same meaning -/

namespace Derivation

/-- In the one memory the first derivation stands for what the second stands for in the other. -/
def SameMeaning (m' m : Memory) : (c : Category) → Derivation c → Derivation c → Prop
  | .expr, d', d | .term, d', d | .power, d', d | .unary, d', d | .primary, d', d =>
    SameValue m' d'.tree m d.tree
  | .exprRest, d', d | .termRest, d', d | .powerRest, d', d =>
    ∀ left' left : Expr, SameValue m' left' m left → SameValue m' (d'.tree left') m (d.tree left)
  | .arguments, d', d | .argumentsRest, d', d =>
    List.Forall₂ (fun e' e => SameValue m' e' m e) d'.tree d.tree

/-- Whatever lexemes spell the given words in place of those of the derivation, they have a
derivation of the same meaning. -/
def Replaceable (m' m : Memory) (spell : Lexeme → List (Token × String)) {c : Category}
    (d : Derivation c) : Prop :=
  ∀ ls : List Lexeme, ls.map Lexeme.word = d.yield.flatMap spell →
    ∃ d' : Derivation c, d'.yield = ls ∧ d'.Resolves m' ∧ SameMeaning m' m c d' d

/-- The words that take the place of lexemes: they are the same words, but for names, which may
become operands of the same meaning. -/
structure Spelling (m' m : Memory) (spell : Lexeme → List (Token × String)) : Prop where
  symbol : ∀ l : Lexeme, (∀ name, l.token ≠ .identifier name) → spell l = [l.word]
  callee : ∀ (l : Lexeme) (name : String), l.token = .identifier name →
    (Primitive.find? name).isSome = true → spell l = [l.word]
  operand : ∀ (spelling : String) (word : Terminal (.identifier spelling)), m.Knows spelling →
    Replaceable m' m spell (name spelling word)

section Replaced

variable {m m' : Memory} {spell : Lexeme → List (Token × String)} {ls ls' rest rest' : List Lexeme}

theorem exists_append_of_words
    (h : ls.map Lexeme.word = (ls' ++ rest').flatMap spell) :
    ∃ front back, ls = front ++ back ∧ front.map Lexeme.word = ls'.flatMap spell ∧
      back.map Lexeme.word = rest'.flatMap spell := by
  rw [List.flatMap_append] at h
  exact List.map_eq_append_iff.mp h

theorem exists_terminal_of_words
    {token : Token} {l : Terminal token} (hspell : spell l.1 = [l.1.word])
    (h : ls.map Lexeme.word = (l.1 :: rest').flatMap spell) :
    ∃ (l' : Terminal token) (rest : List Lexeme), ls = l'.1 :: rest ∧ l'.1.text = l.1.text ∧
      rest.map Lexeme.word = rest'.flatMap spell := by
  rw [List.flatMap_cons, hspell] at h
  obtain ⟨l', rest, rfl, hword, hrest⟩ := List.map_eq_cons_iff.mp h
  have htoken : l'.token = token := (congrArg Prod.fst hword).trans l.2
  exact ⟨⟨l', htoken⟩, rest, rfl, congrArg Prod.snd hword, hrest⟩

theorem Spelling.exists_symbol
    (hspell : Spelling m' m spell) {token : Token} {l : Terminal token}
    (htoken : ∀ name, token ≠ .identifier name)
    (h : ls.map Lexeme.word = (l.1 :: rest').flatMap spell) :
    ∃ (l' : Terminal token) (rest : List Lexeme), ls = l'.1 :: rest ∧
      rest.map Lexeme.word = rest'.flatMap spell := by
  have hkept : spell l.1 = [l.1.word] := hspell.symbol l.1 fun name => by
    rw [l.2]
    exact htoken name
  obtain ⟨l', rest, hls, -, hrest⟩ := exists_terminal_of_words hkept h
  exact ⟨l', rest, hls, hrest⟩

/-- Two parts, one after the other, are replaced one by one. -/
theorem replaceable_parts
    {c c₁ c₂ : Category} {d₁ : Derivation c₁} {d₂ : Derivation c₂}
    (build : Derivation c₁ → Derivation c₂ → Derivation c)
    (hyield : ∀ a b, (build a b).yield = a.yield ++ b.yield)
    (hresolves : ∀ a b, a.Resolves m' → b.Resolves m' → (build a b).Resolves m')
    (hmeaning : ∀ a b, SameMeaning m' m c₁ a d₁ → SameMeaning m' m c₂ b d₂ →
      SameMeaning m' m c (build a b) (build d₁ d₂))
    (h₁ : Replaceable m' m spell d₁) (h₂ : Replaceable m' m spell d₂) :
    Replaceable m' m spell (build d₁ d₂) := by
  intro ls hls
  rw [hyield] at hls
  obtain ⟨front, back, rfl, hfront, hback⟩ := exists_append_of_words hls
  obtain ⟨a, rfl, ha, hsame⟩ := h₁ front hfront
  obtain ⟨b, rfl, hb, hsame'⟩ := h₂ back hback
  exact ⟨build a b, hyield a b, hresolves a b ha hb, hmeaning a b hsame hsame'⟩

/-- A sign is kept, and what comes after it is replaced. -/
theorem Spelling.replaceable_signed
    (hspell : Spelling m' m spell) {c c₁ : Category} {token : Token} {sign : Terminal token}
    {d : Derivation c₁} (htoken : ∀ name, token ≠ .identifier name)
    (build : Terminal token → Derivation c₁ → Derivation c)
    (hyield : ∀ l a, (build l a).yield = l.1 :: a.yield)
    (hresolves : ∀ l a, a.Resolves m' → (build l a).Resolves m')
    (hmeaning : ∀ l a, SameMeaning m' m c₁ a d → SameMeaning m' m c (build l a) (build sign d))
    (h : Replaceable m' m spell d) : Replaceable m' m spell (build sign d) := by
  intro ls hls
  rw [hyield] at hls
  obtain ⟨l, rest, rfl, hrest⟩ := hspell.exists_symbol htoken hls
  obtain ⟨a, rfl, ha, hsame⟩ := h rest hrest
  exact ⟨build l a, hyield l a, hresolves l a ha, hmeaning l a hsame⟩

/-- A sign is kept, and the two parts after it are replaced one by one. -/
theorem Spelling.replaceable_chain
    (hspell : Spelling m' m spell) {c c₁ c₂ : Category} {token : Token} {sign : Terminal token}
    {d₁ : Derivation c₁} {d₂ : Derivation c₂} (htoken : ∀ name, token ≠ .identifier name)
    (build : Terminal token → Derivation c₁ → Derivation c₂ → Derivation c)
    (hyield : ∀ l a b, (build l a b).yield = l.1 :: (a.yield ++ b.yield))
    (hresolves : ∀ l a b, a.Resolves m' → b.Resolves m' → (build l a b).Resolves m')
    (hmeaning : ∀ l a b, SameMeaning m' m c₁ a d₁ → SameMeaning m' m c₂ b d₂ →
      SameMeaning m' m c (build l a b) (build sign d₁ d₂))
    (h₁ : Replaceable m' m spell d₁) (h₂ : Replaceable m' m spell d₂) :
    Replaceable m' m spell (build sign d₁ d₂) := by
  intro ls hls
  rw [hyield] at hls
  obtain ⟨l, rest, rfl, hrest⟩ := hspell.exists_symbol htoken hls
  obtain ⟨front, back, rfl, hfront, hback⟩ := exists_append_of_words hrest
  obtain ⟨a, rfl, ha, hsame⟩ := h₁ front hfront
  obtain ⟨b, rfl, hb, hsame'⟩ := h₂ back hback
  exact ⟨build l a b, hyield l a b, hresolves l a b ha hb, hmeaning l a b hsame hsame'⟩

/-- What stands between parentheses is replaced. -/
theorem Spelling.exists_enclosed
    (hspell : Spelling m' m spell) {c : Category} {d : Derivation c}
    (h : Replaceable m' m spell d) (opening : Terminal .openParen) (closing : Terminal .closeParen)
    (hls : ls.map Lexeme.word = (opening.1 :: (d.yield ++ [closing.1])).flatMap spell) :
    ∃ (opening' : Terminal .openParen) (d' : Derivation c) (closing' : Terminal .closeParen),
      ls = opening'.1 :: (d'.yield ++ [closing'.1]) ∧ d'.Resolves m' ∧
        SameMeaning m' m c d' d := by
  obtain ⟨opening', rest, rfl, hrest⟩ := hspell.exists_symbol (by simp) hls
  obtain ⟨inside, back, rfl, hinside, hback⟩ := exists_append_of_words hrest
  obtain ⟨closing', last, rfl, hlast⟩ := hspell.exists_symbol (by simp) hback
  obtain rfl : last = [] := by simpa using hlast
  obtain ⟨d', rfl, hresolves, hsame⟩ := h inside hinside
  exact ⟨opening', d', closing', rfl, hresolves, hsame⟩

/-- Where names are replaced by operands of the same meaning, there is a derivation of the same
meaning.  By induction on the derivation: only its names are touched, each within its place. -/
theorem exists_replaced
    (hspell : Spelling m' m spell) {c : Category} (d : Derivation c) (hresolves : d.Resolves m) :
    Replaceable m' m spell d := by
  induction d with
  | expr first rest ihFirst ihRest =>
      exact replaceable_parts expr (fun _ _ => rfl) (fun _ _ => And.intro)
        (fun _ _ hfirst hrest => hrest _ _ hfirst) (ihFirst hresolves.1) (ihRest hresolves.2)
  | term first rest ihFirst ihRest =>
      exact replaceable_parts term (fun _ _ => rfl) (fun _ _ => And.intro)
        (fun _ _ hfirst hrest => hrest _ _ hfirst) (ihFirst hresolves.1) (ihRest hresolves.2)
  | power base rest ihBase ihRest =>
      exact replaceable_parts power (fun _ _ => rfl) (fun _ _ => And.intro)
        (fun _ _ hbase hrest => hrest _ _ hbase) (ihBase hresolves.1) (ihRest hresolves.2)
  | arguments first rest ihFirst ihRest =>
      exact replaceable_parts Derivation.arguments (fun _ _ => rfl) (fun _ _ => And.intro)
        (fun _ _ hfirst hrest => List.Forall₂.cons hfirst hrest) (ihFirst hresolves.1)
        (ihRest hresolves.2)
  | exprMore op hop sign next rest ihNext ihRest =>
      refine hspell.replaceable_chain (by simp) (exprMore op hop) (fun _ _ _ => rfl)
        (fun _ _ _ => And.intro) ?_ (ihNext hresolves.1) (ihRest hresolves.2)
      exact fun l a b hnext hrest left' left hleft =>
        hrest _ _ (hleft.binary hnext op l.1.position sign.1.position)
  | termMore op hop sign next rest ihNext ihRest =>
      refine hspell.replaceable_chain (by simp) (termMore op hop) (fun _ _ _ => rfl)
        (fun _ _ _ => And.intro) ?_ (ihNext hresolves.1) (ihRest hresolves.2)
      exact fun l a b hnext hrest left' left hleft =>
        hrest _ _ (hleft.binary hnext op l.1.position sign.1.position)
  | argumentsMore comma next rest ihNext ihRest =>
      exact hspell.replaceable_chain (by simp) argumentsMore (fun _ _ _ => rfl)
        (fun _ _ _ => And.intro) (fun _ _ _ hnext hrest => List.Forall₂.cons hnext hrest)
        (ihNext hresolves.1) (ihRest hresolves.2)
  | powerMore caret exponent ihExponent =>
      refine hspell.replaceable_signed (by simp) powerMore (fun _ _ => rfl) (fun _ _ => id) ?_
        (ihExponent hresolves)
      exact fun l a hexponent base' base hbase =>
        hbase.binary hexponent .pow l.1.position caret.1.position
  | negative minus operand ihOperand =>
      exact hspell.replaceable_signed (by simp) negative (fun _ _ => rfl) (fun _ _ => id)
        (fun l a hoperand => hoperand.negate l.1.position minus.1.position) (ihOperand hresolves)
  | positive operand ihOperand =>
      intro ls hls
      obtain ⟨a, rfl, ha, hsame⟩ := ihOperand hresolves ls hls
      exact ⟨positive a, rfl, ha, hsame⟩
  | exprEnd =>
      intro ls hls
      exact ⟨exprEnd, (List.map_eq_nil_iff.mp hls).symm, trivial, fun _ _ => id⟩
  | termEnd =>
      intro ls hls
      exact ⟨termEnd, (List.map_eq_nil_iff.mp hls).symm, trivial, fun _ _ => id⟩
  | powerEnd =>
      intro ls hls
      exact ⟨powerEnd, (List.map_eq_nil_iff.mp hls).symm, trivial, fun _ _ => id⟩
  | argumentsEnd =>
      intro ls hls
      exact ⟨argumentsEnd, (List.map_eq_nil_iff.mp hls).symm, trivial, .nil⟩
  | number value literal =>
      intro ls hls
      obtain ⟨literal', rest, rfl, hrest⟩ := hspell.exists_symbol (by simp) hls
      obtain rfl : rest = [] := by simpa using hrest
      exact ⟨number value literal', rfl, trivial, rfl⟩
  | name spelling word => exact hspell.operand spelling word hresolves
  | call spelling word opening args closing ihArgs =>
      obtain ⟨⟨function, hfunction, harity⟩, hargs⟩ := hresolves
      have hkept : spell word.1 = [word.1.word] :=
        hspell.callee word.1 spelling word.2 (by simp [hfunction])
      intro ls hls
      obtain ⟨word', rest, rfl, htext, hrest⟩ := exists_terminal_of_words hkept hls
      obtain ⟨opening', args', closing', rfl, hresolves', hsame⟩ :=
        hspell.exists_enclosed (ihArgs hargs) opening closing hrest
      refine ⟨call spelling word' opening' args' closing', rfl, ⟨?_, hresolves'⟩, ?_⟩
      · exact ⟨function, hfunction, hsame.length_eq.trans harity⟩
      · show SameValue m' (.call word'.1.position word'.1.text args'.tree) m
          (.call word.1.position word.1.text args.tree)
        rw [htext]
        exact SameValue.call hsame word.1.text word'.1.position word.1.position
  | group opening inner closing ihInner =>
      intro ls hls
      obtain ⟨opening', inner', closing', rfl, hresolves', hsame⟩ :=
        hspell.exists_enclosed (ihInner hresolves) opening closing hls
      exact ⟨group opening' inner' closing', rfl, hresolves', hsame⟩

/-- A name that means the same in both memories may be kept. -/
theorem replaceable_name
    {spelling : String} {word : Terminal (.identifier spelling)}
    (hspell : spell word.1 = [word.1.word]) (hknown : m'.Knows spelling)
    (hvalue : m'.eval (.ofName 0 spelling) = m.eval (.ofName 0 spelling)) :
    Replaceable m' m spell (name spelling word) := by
  intro ls hls
  obtain ⟨word', rest, rfl, -, hrest⟩ := exists_terminal_of_words hspell hls
  obtain rfl : rest = [] := by simpa using hrest
  refine ⟨name spelling word', rfl, hknown, ?_⟩
  show m'.eval ((Expr.ofName word'.1.position spelling).relocate fun _ => 0) =
    m.eval ((Expr.ofName word.1.position spelling).relocate fun _ => 0)
  rw [Expr.relocate_ofName, Expr.relocate_ofName, hvalue]

theorem spelling_self (m : Memory) : Spelling m m fun l => [l.word] where
  symbol := fun _ _ => rfl
  callee := fun _ _ _ _ => rfl
  operand := fun _ _ hknown => replaceable_name rfl hknown rfl

end Replaced

/-! ## A name bound to a value -/

variable {m : Memory} {x : String} {v : Float}

/-- The words of an expression in parentheses have the value of the expression. -/
theorem replaceable_bound
    (hx : Name.check x = .ok ()) {value : Derivation .expr} (hresolves : value.Resolves m)
    (hvalue : m.eval value.tree = .ok v) (word : Terminal (.identifier x)) :
    Replaceable m (m.bound x v)
      (Lexeme.wordsWith x (enclosedWords (value.yield.map Lexeme.word))) (name x word) := by
  intro ls hls
  have hwords : ls.map Lexeme.word =
      ((⟨.openParen, "(", 0⟩ : Lexeme) :: (value.yield ++ [⟨.closeParen, ")", 0⟩])).flatMap
        fun l => [l.word] := by
    rw [hls, yield, List.flatMap_singleton, Lexeme.wordsWith, if_pos word.2, enclosedWords,
      ← List.map_eq_flatMap, List.map_cons, List.map_append]
    rfl
  obtain ⟨opening, value', closing, rfl, hresolves', hsame⟩ :=
    (spelling_self m).exists_enclosed (exists_replaced (spelling_self m) value hresolves)
      ⟨⟨.openParen, "(", 0⟩, rfl⟩ ⟨⟨.closeParen, ")", 0⟩, rfl⟩ hwords
  refine ⟨group opening value' closing, rfl, hresolves', ?_⟩
  show m.eval (Expr.relocate (fun _ => 0) value'.tree) =
    (m.bound x v).eval ((Expr.ofName word.1.position x).relocate fun _ => 0)
  have hinside : m.eval (Expr.relocate (fun _ => 0) value'.tree) = .ok v := by
    rw [hsame, Memory.eval_relocate, hvalue]
    rfl
  rw [hinside, Expr.relocate_ofName, Memory.eval_ofName_bound hx]

theorem spelling_bound
    (hx : Name.check x = .ok ()) {value : Derivation .expr} (hresolves : value.Resolves m)
    (hvalue : m.eval value.tree = .ok v) :
    Spelling m (m.bound x v)
      (Lexeme.wordsWith x (enclosedWords (value.yield.map Lexeme.word))) where
  symbol := fun l hl => by rw [Lexeme.wordsWith, if_neg (hl x)]
  callee := by
    intro l spelling htoken hprimitive
    obtain ⟨-, -, hx, -, -⟩ := Name.fault?_eq_none_iff.mp (Name.check_eq_ok_iff.mp hx)
    have hne : spelling ≠ x := fun heq => by
      rw [heq, ← Name.isPrimitive, hx] at hprimitive
      cases hprimitive
    rw [Lexeme.wordsWith, if_neg (by simpa [htoken] using hne)]
  operand := by
    intro spelling word hknown
    by_cases heq : spelling = x
    · subst heq
      exact replaceable_bound hx hresolves hvalue word
    · have hkept : word.1.token ≠ .identifier x := by simpa [word.2] using heq
      apply replaceable_name
      · rw [Lexeme.wordsWith, if_neg hkept]
      · exact (m.knows_bound_iff heq).mp hknown
      · exact m.eval_ofName_of_ne heq 0

end Derivation

namespace Memory

variable {m m' : Memory} {line : String}

/-- The values of parsed lines of the same value are settled alike: an error of such a line has no
place, so that it is the same one as well. -/
theorem valueOf_eq_of_sameValue
    {line' : String} {e e' : Expr} (h' : m'.parse line' = .ok (.expression e'))
    (h : m.parse line = .ok (.expression e)) (hsame : SameValue m' e' m e) :
    m'.valueOf line' = m.valueOf line := by
  have heval : m'.eval e' = m.eval e := by
    unfold SameValue at hsame
    rw [eval_relocate, eval_relocate] at hsame
    -- Only the domain of a function can fail here, and that error has no place to differ in.
    rcases hvalue' : m'.eval e' with fault' | v' <;> rcases hvalue : m.eval e with fault | v <;>
      rw [hvalue', hvalue] at hsame
    · obtain ⟨d', -, rfl⟩ := refuses_of_parse h' .refl hvalue'
      obtain ⟨d, -, rfl⟩ := refuses_of_parse h .refl hvalue
      exact congrArg Except.error (Except.error.inj hsame)
    · cases hsame
    · cases hsame
    · exact congrArg Except.ok (Except.ok.inj hsame)
  rw [valueOf, valueOf, h', h]
  simp only [evalFinite, heval]

/-- A variable means its value.  If a line is an expression where a variable is bound to the value
of another expression, then the line in which that expression is written in parentheses for every
occurrence of the variable has the same value, or the same error, without the binding, provided that
it is not nested too deeply.  The expression may use the former value of the variable. -/
theorem valueOf_substituteName
    {m : Memory} {line name value : String} {v : Float} {e : Expr}
    (hname : Name.check name = .ok ()) (hvalue : m.valueOf value = .ok v)
    (hline : (m.bound name v).parse line = .ok (.expression e))
    (hshallow : ∀ d : Derivation .expr, scan (substituteName line name value) = .ok d.yield →
      ∀ entry ∈ d.nesting 0, entry.2 < maxDepth) :
    m.valueOf (substituteName line name value) = (m.bound name v).valueOf line := by
  obtain ⟨e', hparse', heval⟩ := eval_of_valueOf hvalue
  obtain ⟨dValue, hscanValue, hadmValue, rfl⟩ := parse_eq_expression_iff.mp hparse'
  obtain ⟨dLine, hscanLine, hadmLine, rfl⟩ := parse_eq_expression_iff.mp hline
  obtain ⟨lexemes, hscan, hwords⟩ := scan_substituteName name hscanLine hscanValue
  obtain ⟨d, rfl, hresolves, hsame⟩ :=
    Derivation.exists_replaced (Derivation.spelling_bound hname hadmValue.resolves heval) dLine
      hadmLine.resolves lexemes hwords
  have hparse : m.parse (substituteName line name value) = .ok (.expression d.tree) :=
    parse_eq_expression_iff.mpr ⟨d, hscan, ⟨hresolves, hshallow d hscan⟩, rfl⟩
  exact valueOf_eq_of_sameValue hparse hline hsame

/-- The expression for the variable mentions the variable itself, and its parentheses keep it
together in the product. -/
theorem product_substituteName :
    let m : Memory := ⟨Bindings.empty.insert "x" 2, none⟩
    let line := "2 * x * x"
    let substituted := substituteName line "x" "x + 1"
    substituted = "2 * (x + 1) * (x + 1)" ∧ m.valueOf "x + 1" = .ok 3 ∧
      m.valueOf substituted = (m.bound "x" 3).valueOf line ∧ m.valueOf substituted = .ok 18 := by
  intro m line substituted
  have hvalue : m.valueOf "x + 1" = .ok 3 := by decide +kernel
  have hproduct : (m.bound "x" 3).valueOf line = .ok 18 := by decide +kernel
  have hsubstituted : substituted = "2 * (x + 1) * (x + 1)" := by decide +kernel
  obtain ⟨e, hline, -⟩ := eval_of_valueOf hproduct
  have hlength : (scan substituted).toOption.map List.length = some 13 := by decide +kernel
  have hshallow : ∀ d : Derivation .expr, scan substituted = .ok d.yield →
      ∀ entry ∈ d.nesting 0, entry.2 < maxDepth := by
    intro d hscan entry hentry
    rw [hscan] at hlength
    have hfew : d.yield.length = 13 := Option.some.inj hlength
    have hlevel := d.lt_of_mem_nesting hentry
    have hlimit : maxDepth = 128 := rfl
    omega
  have hsame := valueOf_substituteName (by decide) hvalue hline hshallow
  exact ⟨hsubstituted, hvalue, hsame, hsame.trans hproduct⟩

end Memory

end Calculator
