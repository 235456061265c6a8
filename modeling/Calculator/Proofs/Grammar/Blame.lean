import Calculator.Memory.Parse

/-!
# Which lexemes a fault blames

A fault names lexemes of the line that are what the fault says of them: an unclosed parenthesis is
an opening one, an unknown name is an identifier, and so on (`SyntaxFault.Blames`).  Some of them
were read long before, so what is remembered of them while an expression is read is an invariant
(`Unfinished.Follows`), which a single step keeps (`Unfinished.keeps_step`) and hence all of them.
-/

namespace Calculator

/-- The lexeme is a name among the given lexemes. -/
def Lexeme.NamedIn (ls : List Lexeme) (l : Lexeme) : Prop :=
  l ∈ ls ∧ ∃ name, l.token = .identifier name

/-- What a fault names is among the given lexemes and of the kind that the fault is about. -/
def SyntaxFault.Blames (ls : List Lexeme) : SyntaxFault → Prop
  | .endOfInput | .badName _ _ => True
  | .unclosed paren => paren ∈ ls ∧ paren.token = .openParen
  | .unopened paren => paren ∈ ls ∧ paren.token = .closeParen
  | .operatorRun first last => [first, last].Sublist ls
  | .unexpected lexeme | .tooDeep lexeme | .letWithoutValue lexeme => lexeme ∈ ls
  | .unknownFunction name | .wrongCount name _ _ | .unknownName name => name.NamedIn ls

/-- The parenthesis and the name of an enclosure are among the lexemes. -/
structure Enclosure.From (ls : List Lexeme) (e : Enclosure) : Prop where
  mem : e.paren ∈ ls
  token : e.paren.token = .openParen
  name : ∀ name function arguments, e.opening = .call name function arguments → name.NamedIn ls

/-- All that is remembered of the lexemes read so far is among `ls`, and the rest of them is still
to be read. -/
structure Unfinished.Follows (u : Unfinished) (ls rest : List Lexeme) : Prop where
  suffix : rest <:+ ls
  enclosures : ∀ e ∈ u.enclosures, e.From ls
  callee : ∀ name function, u.focus = .callee name function →
    name.NamedIn ls ∧ isCallAhead rest = true

variable {m : Memory} {line : String} {ls ahead : List Lexeme} {lexeme : Lexeme} {u : Unfinished}

theorem blames_of_runFault?
    (hsuffix : lexeme :: ahead <:+ ls) {fault : SyntaxFault}
    (h : runFault? lexeme ahead = some fault) : fault.Blames ls := by
  obtain ⟨last, hlast, rfl⟩ := Option.map_eq_some_iff.mp h
  have hmem : last ∈ ahead :=
    (List.takeWhile_sublist _).subset (List.mem_of_getLast? hlast)
  have hpair : [lexeme, last].Sublist (lexeme :: ahead) :=
    .cons_cons lexeme (List.singleton_sublist.mpr hmem)
  exact hpair.trans hsuffix.sublist

namespace Unfinished

/-- Reading either goes on with the lexemes ahead or ends with a fault of the lexemes. -/
def Keeps (ls ahead : List Lexeme) : Except SyntaxFault Unfinished → Prop
  | .ok next => next.Follows ls ahead
  | .error fault => fault.Blames ls

theorem follows_of_focus
    {pending : Pending} {enclosures : List Enclosure} {focus : Focus} (hsuffix : ahead <:+ ls)
    (henclosures : ∀ e ∈ enclosures, e.From ls)
    (hfocus : ∀ name function, focus ≠ .callee name function) :
    Follows ⟨pending, enclosures, focus⟩ ls ahead :=
  ⟨hsuffix, henclosures, fun name function h => absurd h (hfocus name function)⟩

theorem follows_complete
    (hsuffix : ahead <:+ ls) (henclosures : ∀ e ∈ u.enclosures, e.From ls) (operand : Expr) :
    (u.complete operand).Follows ls ahead :=
  follows_of_focus hsuffix henclosures (by simp)

/-- A parenthesis is remembered together with the name before it. -/
theorem keeps_enclose
    (hsuffix : lexeme :: ahead <:+ ls) (htoken : lexeme.token = .openParen)
    (henclosures : ∀ e ∈ u.enclosures, e.From ls) {opening : Opening}
    (hopening : ∀ name function arguments, opening = .call name function arguments →
      name.NamedIn ls)
    {focus : Focus} (hfocus : ∀ name function, focus ≠ .callee name function) :
    Keeps ls ahead (u.enclose lexeme opening focus) := by
  have hmem : lexeme ∈ ls := hsuffix.subset List.mem_cons_self
  unfold enclose
  split
  · exact hmem
  · have hnew : ∀ e ∈ ⟨lexeme, opening, u.pending⟩ :: u.enclosures, e.From ls :=
      List.forall_mem_cons.mpr ⟨⟨hmem, htoken, hopening⟩, henclosures⟩
    exact follows_of_focus ((List.suffix_cons lexeme ahead).trans hsuffix) hnew hfocus

theorem keeps_closeCall
    (hsuffix : ahead <:+ ls) {outer : List Enclosure} (houter : ∀ e ∈ outer, e.From ls)
    {name : Lexeme} (hname : name.NamedIn ls) (outside : Pending) (function : Primitive)
    (arguments : List Expr) :
    Keeps ls ahead (closeCall outside outer name function arguments) := by
  unfold closeCall
  split
  · exact follows_complete hsuffix houter _
  · exact hname

/-! ## One step -/

theorem keeps_readOperand
    (hsuffix : lexeme :: ahead <:+ ls) (henclosures : ∀ e ∈ u.enclosures, e.From ls) :
    Keeps ls ahead (u.readOperand m lexeme ahead) := by
  have hmem : lexeme ∈ ls := hsuffix.subset List.mem_cons_self
  have hahead : ahead <:+ ls := (List.suffix_cons lexeme ahead).trans hsuffix
  unfold readOperand
  split
  · exact follows_complete hahead henclosures _
  · rename_i name htoken
    have hname : lexeme.NamedIn ls := ⟨hmem, name, htoken⟩
    split
    · rename_i hcall
      split
      · refine ⟨hahead, henclosures, ?_⟩
        rintro _ _ ⟨⟩
        exact ⟨hname, hcall⟩
      · exact hname
    · split
      · exact follows_complete hahead henclosures _
      · exact hname
  · rename_i htoken
    exact keeps_enclose hsuffix htoken henclosures (by simp) (by simp)
  · rename_i htoken
    split
    · exact ⟨hmem, htoken⟩
    · exact hmem
  · split
    · rename_i hrun
      exact blames_of_runFault? hsuffix hrun
    · split
      · exact follows_of_focus hahead henclosures (by simp)
      · exact hmem
  · exact hmem

theorem keeps_readOperator
    (hsuffix : lexeme :: ahead <:+ ls) (henclosures : ∀ e ∈ u.enclosures, e.From ls)
    (value : Expr) : Keeps ls ahead (u.readOperator value lexeme ahead) := by
  have hmem : lexeme ∈ ls := hsuffix.subset List.mem_cons_self
  have hahead : ahead <:+ ls := (List.suffix_cons lexeme ahead).trans hsuffix
  unfold readOperator
  split
  · split
    · rename_i hrun
      split at hrun
      · cases hrun
      · exact blames_of_runFault? hsuffix hrun
    · split
      · exact hmem
      · exact follows_of_focus hahead henclosures (by simp)
  · rename_i htoken
    split
    · exact ⟨hmem, htoken⟩
    · rename_i outer hopen
      rw [hopen] at henclosures
      exact follows_complete hahead (List.forall_mem_cons.mp henclosures).2 _
    · rename_i name function arguments outside outer hopen
      rw [hopen] at henclosures
      obtain ⟨hinner, houter⟩ := List.forall_mem_cons.mp henclosures
      exact keeps_closeCall hahead houter (hinner.name _ _ _ rfl) outside function _
  · split
    · rename_i paren name function arguments outside outer hopen
      rw [hopen] at henclosures
      obtain ⟨hinner, houter⟩ := List.forall_mem_cons.mp henclosures
      refine follows_of_focus hahead (List.forall_mem_cons.mpr ⟨?_, houter⟩) (by simp)
      refine ⟨hinner.mem, hinner.token, ?_⟩
      rintro _ _ _ ⟨⟩
      exact hinner.name _ _ _ rfl
    · exact hmem
  · exact hmem

theorem keeps_step
    (h : u.Follows ls (lexeme :: ahead)) : Keeps ls ahead (u.step m lexeme ahead) := by
  have hsuffix := h.suffix
  have henclosures := h.enclosures
  unfold step
  split
  · exact keeps_readOperand hsuffix henclosures
  · split
    · rename_i hopen
      rw [hopen] at henclosures
      obtain ⟨hinner, houter⟩ := List.forall_mem_cons.mp henclosures
      have hahead : ahead <:+ ls := (List.suffix_cons lexeme ahead).trans hsuffix
      exact keeps_closeCall hahead houter (hinner.name _ _ _ rfl) _ _ _
    · exact keeps_readOperand hsuffix henclosures
  · rename_i name function hfocus
    -- The name of a function is only taken as such before a parenthesis.
    obtain ⟨hname, hcall⟩ := h.callee name function hfocus
    have htoken : lexeme.token = .openParen := by simpa [isCallAhead] using hcall
    refine keeps_enclose hsuffix htoken henclosures ?_ (by simp)
    rintro _ _ _ ⟨⟩
    exact hname
  · exact keeps_readOperator hsuffix henclosures _

/-! ## All steps -/

theorem blames_endFault (henclosures : ∀ e ∈ u.enclosures, e.From ls) : u.endFault.Blames ls := by
  unfold endFault
  split
  · exact trivial
  · rename_i enclosure outer hopen
    have hinner := henclosures enclosure (hopen ▸ List.mem_cons_self)
    exact ⟨hinner.mem, hinner.token⟩

theorem blames_of_read
    {rest : List Lexeme} (h : u.Follows ls rest) {fault : SyntaxFault}
    (hread : u.read m rest = .error fault) : fault.Blames ls := by
  induction rest generalizing u with
  | nil =>
      rw [read, finish] at hread
      split at hread
      · cases hread
      · cases hread
        exact blames_endFault h.enclosures
  | cons lexeme ahead ih =>
      have hkeeps : Keeps ls ahead (u.step m lexeme ahead) := keeps_step h
      rw [read] at hread
      split at hread
      · rename_i next hstep
        rw [hstep] at hkeeps
        exact ih hkeeps hread
      · rename_i other hstep
        cases hread
        rw [hstep] at hkeeps
        exact hkeeps

end Unfinished

theorem Expr.blames_of_read
    {rest : List Lexeme} (hsuffix : rest <:+ ls) {fault : SyntaxFault}
    (h : Expr.read m rest = .error fault) : fault.Blames ls :=
  Unfinished.blames_of_read (Unfinished.follows_of_focus hsuffix (by simp) (by simp)) h

/-- A statement is refused with a fault of its lexemes. -/
theorem Statement.blames_of_read
    {fault : SyntaxFault} (h : Statement.read m line ls = .error fault) : fault.Blames ls := by
  have hexpr : ∀ {rest : List Lexeme} {make : Expr → Statement}, rest <:+ ls →
      (Expr.read m rest).map make = .error fault → fault.Blames ls := by
    intro rest make hsuffix hmap
    cases hread : Expr.read m rest with
    | error other =>
        rw [hread] at hmap
        cases hmap
        exact Expr.blames_of_read hsuffix hread
    | ok e =>
        rw [hread] at hmap
        cases hmap
  unfold Statement.read at h
  split at h
  · exact hexpr (List.suffix_refl _) h
  · rename_i first rest
    split at h
    · unfold readAssignment at h
      split at h
      · cases h
        exact List.mem_cons_self
      · rename_i equals value hdrop
        dsimp only at h
        split at h
        · cases h
          exact trivial
        · have hvalue : equals :: value <:+ rest := hdrop ▸ List.dropWhile_suffix _
          have hsuffix := ((List.suffix_cons equals value).trans hvalue).trans
            (List.suffix_cons first rest)
          exact hexpr hsuffix h
    · exact hexpr (List.suffix_refl _) h

end Calculator
