/-!
# Variable bindings

A table of variables lists each bound name once, in the order of code points. Two tables with the
same look-ups are therefore equal.
-/

namespace Calculator

/-- Names with their values, ordered by name. -/
structure Bindings where
  toList : List (String × Float)
  sorted : toList.Pairwise fun a b => a.1 < b.1

namespace Bindings

def empty : Bindings :=
  ⟨[], .nil⟩

instance : Inhabited Bindings :=
  ⟨empty⟩

def size (b : Bindings) : Nat :=
  b.toList.length

def isEmpty (b : Bindings) : Bool :=
  b.toList.isEmpty

def get? (b : Bindings) (name : String) : Option Float :=
  b.toList.lookup name

def contains (b : Bindings) (name : String) : Bool :=
  (b.get? name).isSome

/-- Puts an entry at its place in an ordered list, over an entry of the same name. -/
def insertEntry (name : String) (value : Float) : List (String × Float) → List (String × Float)
  | [] => [(name, value)]
  | entry :: rest =>
    if name < entry.1 then
      (name, value) :: entry :: rest
    else if name = entry.1 then
      (name, value) :: rest
    else
      entry :: insertEntry name value rest

theorem eq_or_mem_of_mem_insertEntry {name : String} {value : Float} {entry : String × Float}
    {entries : List (String × Float)} (h : entry ∈ insertEntry name value entries) :
    entry = (name, value) ∨ entry ∈ entries := by
  induction entries with
  | nil => simpa [insertEntry] using h
  | cons first rest ih =>
    rw [insertEntry] at h
    split at h
    · simpa using h
    · split at h
      · rcases List.mem_cons.mp h with h | h
        · exact .inl h
        · exact .inr (List.mem_cons_of_mem _ h)
      · rcases List.mem_cons.mp h with rfl | h
        · exact .inr List.mem_cons_self
        · exact (ih h).imp_right (List.mem_cons_of_mem _)

theorem lt_of_not_lt_of_ne {a b : String} (hlt : ¬ a < b) (hne : a ≠ b) : b < a := by
  apply Decidable.byContradiction
  intro hgt
  exact hne (String.le_antisymm (String.not_lt.mp hgt) (String.not_lt.mp hlt))

theorem sorted_insertEntry (name : String) (value : Float) {entries : List (String × Float)}
    (h : entries.Pairwise fun a b => a.1 < b.1) :
    (insertEntry name value entries).Pairwise fun a b => a.1 < b.1 := by
  induction entries with
  | nil => simp [insertEntry]
  | cons first rest ih =>
    have hfirst : ∀ entry ∈ rest, first.1 < entry.1 := (List.pairwise_cons.mp h).1
    rw [insertEntry]
    split
    · rename_i hlt
      refine List.Pairwise.cons ?_ h
      intro entry hentry
      rcases List.mem_cons.mp hentry with rfl | hentry
      · exact hlt
      · exact String.lt_trans hlt (hfirst entry hentry)
    · split
      · rename_i heq
        refine List.Pairwise.cons ?_ h.tail
        intro entry hentry
        exact heq ▸ hfirst entry hentry
      · rename_i hlt hne
        refine List.Pairwise.cons ?_ (ih h.tail)
        intro entry hentry
        rcases eq_or_mem_of_mem_insertEntry hentry with rfl | hentry
        · exact lt_of_not_lt_of_ne hlt hne
        · exact hfirst entry hentry

/-- Binds a name, in place of its former value. -/
def insert (b : Bindings) (name : String) (value : Float) : Bindings :=
  ⟨insertEntry name value b.toList, sorted_insertEntry name value b.sorted⟩

def erase (b : Bindings) (name : String) : Bindings :=
  ⟨b.toList.filter (·.1 != name), b.sorted.filter _⟩

/-- Binds a name to a value, or unbinds it. -/
def put (b : Bindings) (name : String) : Option Float → Bindings
  | some value => b.insert name value
  | none => b.erase name

/-- Binds a name and gives its former value as well. -/
def set (b : Bindings) (name : String) (value : Float) : Option Float × Bindings :=
  (b.get? name, b.insert name value)

/-- Unbinds a name and gives its former value as well. -/
def remove (b : Bindings) (name : String) : Option Float × Bindings :=
  (b.get? name, b.erase name)

@[simp] theorem get?_empty (name : String) : empty.get? name = none := rfl

theorem lookup_cons_eq (name : String) (entry : String × Float)
    (entries : List (String × Float)) :
    (entry :: entries).lookup name =
      if name = entry.1 then some entry.2 else entries.lookup name := by
  rw [List.lookup_cons]
  by_cases h : name = entry.1
  · simp [h]
  · simp [h, beq_eq_false_iff_ne.mpr h]

theorem lookup_insertEntry (name other : String) (value : Float)
    (entries : List (String × Float)) :
    (insertEntry name value entries).lookup other =
      if other = name then some value else entries.lookup other := by
  induction entries with
  | nil => simp only [insertEntry, lookup_cons_eq]
  | cons first rest ih =>
    rw [insertEntry]
    split
    · rw [lookup_cons_eq]
    · split
      · rename_i heq
        rw [lookup_cons_eq, lookup_cons_eq, ← heq]
        split <;> rfl
      · rename_i hne
        rw [lookup_cons_eq, lookup_cons_eq, ih]
        split
        · rename_i hfirst
          rw [if_neg (hfirst ▸ Ne.symm hne)]
        · rfl

theorem get?_insert (b : Bindings) (name other : String) (value : Float) :
    (b.insert name value).get? other = if other = name then some value else b.get? other :=
  lookup_insertEntry name other value b.toList

theorem get?_erase (b : Bindings) (name other : String) :
    (b.erase name).get? other = if other = name then none else b.get? other := by
  simp only [get?, erase]
  induction b.toList with
  | nil => simp
  | cons first rest ih =>
    by_cases hfirst : first.1 = name
    · rw [List.filter_cons_of_neg (by simp [hfirst]), ih, lookup_cons_eq, hfirst]
      split <;> rfl
    · rw [List.filter_cons_of_pos (by simp [hfirst]), lookup_cons_eq, lookup_cons_eq, ih]
      split
      · rename_i hother
        rw [if_neg (hother ▸ hfirst)]
      · rfl

theorem get?_put (b : Bindings) (name other : String) (value? : Option Float) :
    (b.put name value?).get? other = if other = name then value? else b.get? other := by
  cases value? with
  | none => exact get?_erase b name other
  | some value => exact get?_insert b name other value

theorem lookup_eq_none_of_lt {name : String} {entries : List (String × Float)}
    (h : ∀ entry ∈ entries, name < entry.1) : entries.lookup name = none := by
  rw [List.lookup_eq_none_iff]
  intro entry hentry
  apply bne_iff_ne.mpr
  intro heq
  have := h entry hentry
  rw [← heq] at this
  exact String.lt_irrefl name this

/-- Tables with the same look-ups are equal. -/
theorem ext_get? {a b : Bindings} (h : ∀ name, a.get? name = b.get? name) : a = b := by
  obtain ⟨as, has⟩ := a
  obtain ⟨bs, hbs⟩ := b
  suffices as = bs by
    subst this
    rfl
  simp only [get?] at h
  induction as generalizing bs with
  | nil =>
    cases bs with
    | nil => rfl
    | cons second bs =>
      have hnone := h second.1
      rw [lookup_cons_eq, if_pos rfl] at hnone
      cases hnone
  | cons first as ih =>
    cases bs with
    | nil =>
      have hnone := h first.1
      rw [lookup_cons_eq, if_pos rfl] at hnone
      cases hnone
    | cons second bs =>
      have hfirst : ∀ entry ∈ as, first.1 < entry.1 := (List.pairwise_cons.mp has).1
      have hsecond : ∀ entry ∈ bs, second.1 < entry.1 := (List.pairwise_cons.mp hbs).1
      have hname : first.1 = second.1 := by
        apply Decidable.byContradiction
        intro hne
        by_cases hlt : first.1 < second.1
        · have hnone : (second :: bs).lookup first.1 = none := by
            apply lookup_eq_none_of_lt
            intro entry hentry
            rcases List.mem_cons.mp hentry with rfl | hentry
            · exact hlt
            · exact String.lt_trans hlt (hsecond entry hentry)
          have := h first.1
          rw [hnone, lookup_cons_eq, if_pos rfl] at this
          cases this
        · have hgt := lt_of_not_lt_of_ne hlt hne
          have hnone : (first :: as).lookup second.1 = none := by
            apply lookup_eq_none_of_lt
            intro entry hentry
            rcases List.mem_cons.mp hentry with rfl | hentry
            · exact hgt
            · exact String.lt_trans hgt (hfirst entry hentry)
          have := h second.1
          rw [hnone, lookup_cons_eq, if_pos rfl] at this
          cases this
      have hvalue : first.2 = second.2 := by
        have := h first.1
        rw [lookup_cons_eq, lookup_cons_eq, if_pos rfl, if_pos hname] at this
        exact Option.some.inj this
      have hrest : as = bs := by
        apply ih has.tail bs hbs.tail
        intro name
        by_cases hn : name = first.1
        · subst hn
          rw [lookup_eq_none_of_lt hfirst, lookup_eq_none_of_lt (hname ▸ hsecond)]
        · have := h name
          rwa [lookup_cons_eq, lookup_cons_eq, ← hname, if_neg hn, if_neg hn] at this
      rw [hrest, Prod.ext hname hvalue]

/-- Putting back the former value of a name undoes a binding. -/
theorem put_insert_get? (b : Bindings) (name : String) (value : Float) :
    (b.insert name value).put name (b.get? name) = b := by
  apply ext_get?
  intro other
  rw [get?_put, get?_insert]
  split
  · simp_all
  · rfl

end Bindings

end Calculator
