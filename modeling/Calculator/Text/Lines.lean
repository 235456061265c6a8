/-!
# Lines of input

A line ends at a line feed, and a carriage return right before the line feed ends with it. The cut
is the same on characters and on bytes, since no other character of UTF-8 holds the byte of a line
feed.
-/

namespace Calculator.Text

/-- The lines of a text in which `feed` ends a line and `ret` right before it goes with it. -/
def cutLines {α : Type} [DecidableEq α] (feed ret : α) : List α → List (List α)
  | [] => []
  | c :: rest =>
    if c = feed then
      [] :: cutLines feed ret rest
    else if c = ret ∧ rest.head? = some feed then
      cutLines feed ret rest
    else
      match cutLines feed ret rest with
      | [] => [[c]]
      | line :: lines => (c :: line) :: lines

def lines (text : String) : List String :=
  (cutLines '\n' '\r' text.toList).map String.ofList

/-- The values before the first absent one. -/
def leadingSome {α : Type} : List (Option α) → List α
  | some a :: rest => a :: leadingSome rest
  | _ => []

/-- The lines of raw input up to the first that is not UTF-8. -/
def readableLines (input : ByteArray) : List String :=
  leadingSome ((cutLines 10 13 input.toList).map fun line => String.fromUTF8? ⟨line.toArray⟩)

theorem cutLines_eq_nil_iff {α : Type} [DecidableEq α] {feed ret : α} {text : List α} :
    cutLines feed ret text = [] ↔ text = [] := by
  fun_induction cutLines feed ret text with
  | case1 => simp
  | case2 => simp
  | case3 _ rest _ hc ih =>
    have : rest ≠ [] := by
      rintro rfl
      simp at hc
    simp [ih, this]
  | case4 => simp
  | case5 => simp

theorem not_mem_of_mem_cutLines {α : Type} [DecidableEq α] {feed ret : α} {text line : List α}
    (h : line ∈ cutLines feed ret text) : feed ∉ line := by
  fun_induction cutLines feed ret text generalizing line with
  | case1 => simp at h
  | case2 _ ih =>
    rcases List.mem_cons.mp h with rfl | h
    · simp
    · exact ih h
  | case3 _ _ _ _ ih => exact ih h
  | case4 c _ hc =>
    obtain rfl := List.mem_singleton.mp h
    simpa using Ne.symm hc
  | case5 c _ hc _ _ _ hcut ih =>
    rcases List.mem_cons.mp h with rfl | h
    · have := ih (by rw [hcut]; exact List.mem_cons_self)
      simp [this, Ne.symm hc]
    · exact ih (by rw [hcut]; exact List.mem_cons_of_mem _ h)

end Calculator.Text
