import Calculator.Proofs.Binary64.Arithmetic
import Calculator.Tabulation

/-!
# The values of a grid

A value before the last one is computed in four steps, each of them rounded: the width of the
interval, its product with the index, the quotient of this and the last index, and the sum of that
and the start.  Rounding is monotone, so the values ascend.  What is to be shown is that a quotient
is not above the length of the interval, although the width and the product may have been rounded up
(`toRat_offset_le_length`); then nothing but the products can overflow, and the greatest of them
decides (`Grid.values_cover`).
-/

namespace Calculator

open Binary64

/-! ## Roundings of a quotient -/

section Steps

variable {length : ℚ} {width product offset : Float} {index last : ℕ}

/-- A product by an index is too large by at most one part in 2⁵³. -/
theorem toRat_product_mul_le
    (hwidth : 0 ≤ toRat width) (hproduct : RoundsTo (toRat width * index) product) :
    toRat product * (2 * binade) ≤ toRat width * index * (2 * binade + 1) := by
  have hnonneg : 0 ≤ toRat width * index := mul_nonneg hwidth (Nat.cast_nonneg index)
  refine hproduct.mul_le hnonneg (.inr ⟨units width * index, ?_⟩)
  have hunits := abs_toRat_mul_one width
  rw [abs_of_nonneg hwidth] at hunits
  rw [mul_right_comm, hunits]
  push_cast
  rfl

/-- The quotient of such a product is not above the width. -/
theorem toRat_offset_le_width
    (hfinite : width.isFinite = true) (hwidth : 0 ≤ toRat width)
    (hproduct : RoundsTo (toRat width * index) product)
    (hoffset : RoundsTo (toRat product / last) offset) (hindex : index + 1 ≤ last)
    (hlast : last ≤ binade) : toRat offset ≤ toRat width := by
  have hlast' : (0 : ℚ) < last := Nat.cast_pos.mpr (by omega)
  have hbinade : (0 : ℚ) < 2 * binade := by
    have : (0 : ℚ) < binade := Nat.cast_pos.mpr (by decide)
    linarith
  apply hoffset.le_of_le hfinite
  rw [div_le_iff₀ hlast', ← mul_le_mul_iff_left₀ hbinade]
  have hscaled : index * (2 * binade + 1) ≤ last * (2 * binade) := by
    calc
      index * (2 * binade + 1) = index * (2 * binade) + index := Nat.mul_succ _ _
      _ ≤ index * (2 * binade) + 2 * binade := by omega
      _ = (index + 1) * (2 * binade) := (Nat.succ_mul _ _).symm
      _ ≤ last * (2 * binade) := Nat.mul_le_mul_right _ hindex
  have hscaled' : (index : ℚ) * (2 * binade + 1) ≤ last * (2 * binade) := by exact_mod_cast hscaled
  calc
    toRat product * (2 * binade) ≤ toRat width * index * (2 * binade + 1) :=
      toRat_product_mul_le hwidth hproduct
    _ = toRat width * (index * (2 * binade + 1)) := mul_assoc _ _ _
    _ ≤ toRat width * (last * (2 * binade)) := mul_le_mul_of_nonneg_left hscaled' hwidth
    _ = toRat width * last * (2 * binade) := (mul_assoc _ _ _).symm

/-- A quotient that is not too small is below the width. -/
theorem toRat_offset_lt_width
    (hwidth : 0 < toRat width) (hproduct : RoundsTo (toRat width * index) product)
    (hoffset : RoundsTo (toRat product / last) offset) (hindex : index + 1 ≤ last)
    (hlast : last ≤ binade) (hlarge : binade < units offset) : toRat offset < toRat width := by
  have hpos : (0 : ℚ) < last := Nat.cast_pos.mpr (by omega)
  have hbinade : (0 : ℚ) < binade := Nat.cast_pos.mpr (by decide)
  have hindex' : (index : ℚ) ≤ last - 1 := by
    have : (index : ℚ) + 1 ≤ last := by exact_mod_cast hindex
    linarith
  have hlast' : (last : ℚ) ≤ binade := Nat.cast_le.mpr hlast
  have hquotient : 0 ≤ toRat product / last := div_nonneg (hproduct.nonneg (by positivity)) hpos.le
  have hge := hoffset.binade_lt_of_units_lt hlarge
  rw [abs_of_nonneg hquotient] at hge
  have hoffset_le := hoffset.mul_le hquotient (.inl hge.le)
  have hproduct_le := toRat_product_mul_le hwidth.le hproduct
  generalize (binade : ℚ) = b at hbinade hlast' hoffset_le hproduct_le
  -- Both roundings up together do not make up for the one step that the index is below the last.
  have hstep : (last - 1) * (4 * b + 1) < 4 * b ^ 2 := by
    calc
      (last - 1) * (4 * b + 1) ≤ (b - 1) * (4 * b + 1) := by gcongr
      _ = 4 * b ^ 2 - 3 * b - 1 := by ring
      _ < 4 * b ^ 2 := by linarith
  have hnegative := mul_neg_of_pos_of_neg hwidth (sub_neg.mpr hstep)
  have hscaled : toRat offset * ((2 * b) ^ 2 * last) < toRat width * ((2 * b) ^ 2 * last) := by
    calc
      toRat offset * ((2 * b) ^ 2 * last) = toRat offset * (2 * b) * last * (2 * b) := by ring
      _ ≤ toRat product / last * (2 * b + 1) * last * (2 * b) := by gcongr
      _ = toRat product * (2 * b) * (2 * b + 1) := by field_simp
      _ ≤ toRat width * index * (2 * b + 1) * (2 * b + 1) := by gcongr
      _ ≤ toRat width * (last - 1) * (2 * b + 1) * (2 * b + 1) := by gcongr
      _ = toRat width * ((2 * b) ^ 2 * last) +
          toRat width * ((last - 1) * (4 * b + 1) - 4 * b ^ 2) := by ring
      _ < toRat width * ((2 * b) ^ 2 * last) := by linarith
  exact lt_of_mul_lt_mul_right hscaled (by positivity)

/-- The quotient is not above the length that the width is rounded from. -/
theorem toRat_offset_le_length
    (hlength : RoundsTo length width) (hnonneg : 0 ≤ length) (hunits : ∃ n : ℕ, length * one = n)
    (hproduct : RoundsTo (toRat width * index) product)
    (hoffset : RoundsTo (toRat product / last) offset) (hindex : index + 1 ≤ last)
    (hlast : last ≤ binade) : toRat offset ≤ length := by
  have hwidth : 0 ≤ toRat width := hlength.nonneg hnonneg
  have hle := toRat_offset_le_width hlength.finite hwidth hproduct hoffset hindex hlast
  by_contra hgt
  have hgt : length < toRat offset := lt_of_not_ge hgt
  -- Of the width and the quotient, which are both above the length, the width is nearer to it.
  have hdist := hlength.dist_le offset
  rw [abs_of_nonneg (by linarith), abs_of_nonneg (by linarith)] at hdist
  obtain heq : toRat offset = toRat width := by linarith
  have hone : (0 : ℚ) < one := Nat.cast_pos.mpr Binary64.one_pos
  have hlarge : binade < units offset := by
    obtain ⟨n, hn⟩ := hunits
    by_contra hsmall
    have hgrows : n < units offset := by
      have hoffset' := abs_toRat_mul_one offset
      rw [abs_of_pos (by linarith)] at hoffset'
      have := mul_lt_mul_of_pos_right hgt hone
      rw [hn, hoffset'] at this
      exact_mod_cast this
    have hpos : 0 < binade := by decide
    have := hlength.eq_of_units_lt (n := n) (by rwa [abs_of_nonneg hnonneg]) (by omega)
    linarith
  have := toRat_offset_lt_width (by linarith) hproduct hoffset hindex hlast hlarge
  linarith

end Steps

/-! ## Values -/

namespace Grid

def width (g : Grid) : Float :=
  g.stop - g.start

def product (g : Grid) (index : ℕ) : Float :=
  g.width * ofNat index

def offset (g : Grid) (index : ℕ) : Float :=
  g.product index / ofNat (g.count - 1)

/-- What `check` accepts. -/
structure IsValid (g : Grid) : Prop where
  start_finite : g.start.isFinite = true
  stop_finite : g.stop.isFinite = true
  start_lt_stop : toRat g.start < toRat g.stop
  two_le_count : 2 ≤ g.count

/-- A grid with not too many values, of which the greatest product does not overflow. -/
structure IsTame (g : Grid) : Prop extends IsValid g where
  count_le : g.count ≤ binade + 1
  product_finite : (g.product (g.count - 2)).isFinite = true

/-- The values cover the interval from one end to the other, in ascending order. -/
structure IsCovered (g : Grid) : Prop where
  finite : ∀ v ∈ g.values, v.isFinite = true
  first : ∃ v, g.values.head? = some v ∧ (v == g.start) = true
  ascending : g.values.Pairwise (· ≤ ·)
  within : ∀ v ∈ g.values, g.start ≤ v ∧ v ≤ g.stop

variable {g : Grid} {index index' : ℕ}

theorem isValid_of_check (h : g.check = .ok ()) : g.IsValid := by
  unfold check at h
  split_ifs at h with hfinite hle hcount
  rw [Bool.not_eq_true', Bool.not_eq_false, Bool.and_eq_true] at hfinite
  obtain ⟨hstart, hstop⟩ := hfinite
  rw [le_iff_toRat_le hstop hstart, not_le] at hle
  exact ⟨hstart, hstop, hle, Nat.le_of_not_lt hcount⟩

theorem value_of_succ_eq (h : index + 1 = g.count) : g.value index = g.stop :=
  if_pos h

theorem value_of_succ_ne (h : index + 1 ≠ g.count) :
    g.value index = g.start + g.offset index :=
  if_neg h

namespace IsValid

variable (hg : g.IsValid)

include hg

/-- The length of the interval is a whole number of units. -/
theorem exists_length_mul_one : ∃ n : ℕ, (toRat g.stop - toRat g.start) * one = n := by
  obtain ⟨a, ha⟩ := exists_int_eq_toRat_mul_one g.stop
  obtain ⟨b, hb⟩ := exists_int_eq_toRat_mul_one g.start
  have hle : b ≤ a := by
    have := mul_le_mul_of_nonneg_right hg.start_lt_stop.le (Nat.cast_nonneg one)
    rw [ha, hb] at this
    exact_mod_cast this
  obtain ⟨n, hn⟩ := Int.eq_ofNat_of_zero_le (sub_nonneg.mpr hle)
  exact ⟨n, by rw [sub_mul, ha, hb, ← Int.cast_sub, hn, Int.cast_natCast]⟩

/-- The value before the last one is only finite if its product does not overflow. -/
theorem isFinite_product (h : (g.value (g.count - 2)).isFinite = true) :
    (g.product (g.count - 2)).isFinite = true := by
  have htwo := hg.two_le_count
  rw [value_of_succ_ne (by omega)] at h
  exact isFinite_of_div (isFinite_of_add h)

end IsValid

namespace IsTame

variable (hg : g.IsTame)

include hg

theorem count_lt : g.count < 2 * binade :=
  Nat.lt_of_le_of_lt hg.count_le (by decide)

theorem roundsTo_width : RoundsTo (toRat g.stop - toRat g.start) g.width :=
  roundsTo_sub hg.stop_finite hg.start_finite (isFinite_of_mul hg.product_finite)

theorem toRat_width_nonneg : 0 ≤ toRat g.width :=
  hg.roundsTo_width.nonneg (sub_nonneg.mpr hg.start_lt_stop.le)

/-- No product overflows, because the last one does not. -/
theorem roundsTo_product (h : index + 1 < g.count) :
    RoundsTo (toRat g.width * index) (g.product index) := by
  have hwidth := hg.roundsTo_width.finite
  have hnonneg := hg.toRat_width_nonneg
  have hcount := hg.count_lt
  have hgreatest := roundsTo_mul hwidth (isFinite_ofNat (n := g.count - 2) (by omega))
    hg.product_finite
  have hindex : toRat (ofNat index) = index := toRat_ofNat (by omega)
  have hcount' : toRat (ofNat (g.count - 2)) = (g.count - 2 : ℕ) := toRat_ofNat (by omega)
  rw [← hindex]
  refine roundsTo_mul_of_le hwidth (isFinite_ofNat (by omega)) hgreatest ?_
  rw [hindex, hcount', abs_of_nonneg (by positivity), abs_of_nonneg (by positivity)]
  have hle : (index : ℚ) ≤ (g.count - 2 : ℕ) := Nat.cast_le.mpr (by omega)
  exact mul_le_mul_of_nonneg_left hle hnonneg

theorem roundsTo_offset (h : index + 1 < g.count) :
    RoundsTo (toRat (g.product index) / (g.count - 1 : ℕ)) (g.offset index) := by
  have hproduct := (hg.roundsTo_product h).finite
  have hcount := hg.count_lt
  have hcount' : toRat (ofNat (g.count - 1)) = (g.count - 1 : ℕ) := toRat_ofNat (by omega)
  have hone : (1 : ℚ) ≤ (g.count - 1 : ℕ) := Nat.one_le_cast.mpr (by omega)
  have hpos : (0 : ℚ) < (g.count - 1 : ℕ) := by linarith
  rw [← hcount']
  refine roundsTo_div_of_le hproduct (isFinite_ofNat (by omega)) ?_ (.self hproduct) ?_
  · rw [hcount']
    exact hpos.ne'
  · rw [hcount', abs_div, abs_of_pos hpos]
    exact div_le_self (abs_nonneg _) hone

theorem toRat_offset_nonneg (h : index + 1 < g.count) : 0 ≤ toRat (g.offset index) := by
  have hwidth := hg.toRat_width_nonneg
  have hproduct := (hg.roundsTo_product h).nonneg (by positivity)
  exact (hg.roundsTo_offset h).nonneg (by positivity)

theorem toRat_offset_le (h : index + 1 < g.count) :
    toRat (g.offset index) ≤ toRat g.stop - toRat g.start := by
  have hcount := hg.count_le
  exact toRat_offset_le_length hg.roundsTo_width (sub_nonneg.mpr hg.start_lt_stop.le)
    hg.exists_length_mul_one (hg.roundsTo_product h) (hg.roundsTo_offset h) (by omega) (by omega)

theorem roundsTo_value (h : index + 1 < g.count) :
    RoundsTo (toRat g.start + toRat (g.offset index)) (g.value index) := by
  rw [value_of_succ_ne h.ne]
  have hoffset := (hg.roundsTo_offset h).finite
  have hnonneg := hg.toRat_offset_nonneg h
  have hle := hg.toRat_offset_le h
  rcases abs_le_max_abs_abs (a := toRat g.start) (b := toRat g.start + toRat (g.offset index))
    (c := toRat g.stop) (by linarith) (by linarith) |> le_max_iff.mp with hstart | hstop
  · exact roundsTo_add_of_le hg.start_finite hoffset (.self hg.start_finite) hstart
  · exact roundsTo_add_of_le hg.start_finite hoffset (.self hg.stop_finite) hstop

theorem isFinite_value (h : index < g.count) : (g.value index).isFinite = true := by
  by_cases hlt : index + 1 < g.count
  · exact (hg.roundsTo_value hlt).finite
  · rw [value_of_succ_eq (by omega)]
    exact hg.stop_finite

theorem toRat_start_le_value (h : index < g.count) : toRat g.start ≤ toRat (g.value index) := by
  by_cases hlt : index + 1 < g.count
  · have hoffset := hg.toRat_offset_nonneg hlt
    exact (hg.roundsTo_value hlt).ge_of_ge hg.start_finite (by linarith)
  · rw [value_of_succ_eq (by omega)]
    exact hg.start_lt_stop.le

theorem toRat_value_le_stop (h : index < g.count) : toRat (g.value index) ≤ toRat g.stop := by
  by_cases hlt : index + 1 < g.count
  · have hoffset := hg.toRat_offset_le hlt
    exact (hg.roundsTo_value hlt).le_of_le hg.stop_finite (by linarith)
  · rw [value_of_succ_eq (by omega)]

theorem toRat_value_mono (h : index ≤ index') (h' : index' < g.count) :
    toRat (g.value index) ≤ toRat (g.value index') := by
  by_cases hlt' : index' + 1 < g.count
  · have hlt : index + 1 < g.count := by omega
    have hwidth := hg.toRat_width_nonneg
    have hindex : (index : ℚ) ≤ index' := Nat.cast_le.mpr h
    have hproduct : toRat (g.product index) ≤ toRat (g.product index') :=
      (hg.roundsTo_product hlt).mono (hg.roundsTo_product hlt')
        (mul_le_mul_of_nonneg_left hindex hwidth)
    have hoffset : toRat (g.offset index) ≤ toRat (g.offset index') :=
      (hg.roundsTo_offset hlt).mono (hg.roundsTo_offset hlt')
        (div_le_div_of_nonneg_right hproduct (Nat.cast_nonneg _))
    exact (hg.roundsTo_value hlt).mono (hg.roundsTo_value hlt')
      (add_le_add_right hoffset _)
  · have hstop : g.value index' = g.stop := value_of_succ_eq (by omega)
    rw [hstop]
    exact hg.toRat_value_le_stop (by omega)

theorem toRat_value_zero : toRat (g.value 0) = toRat g.start := by
  have hlt : 0 + 1 < g.count := hg.two_le_count
  have hproduct := hg.roundsTo_product hlt
  have hoffset := hg.roundsTo_offset hlt
  have hvalue := hg.roundsTo_value hlt
  rw [Nat.cast_zero, mul_zero] at hproduct
  rw [hproduct.eq_zero, zero_div] at hoffset
  rw [hoffset.eq_zero, add_zero] at hvalue
  exact hvalue.eq_of_eq hg.start_finite rfl

theorem isCovered : g.IsCovered := by
  have hmem : ∀ v ∈ g.values, ∃ index < g.count, g.value index = v := by
    intro v hv
    simpa [values] using hv
  have hpos : 0 < g.count := by
    have := hg.two_le_count
    omega
  refine ⟨?_, ⟨g.value 0, ?_, ?_⟩, ?_, ?_⟩
  · intro v hv
    obtain ⟨index, hindex, rfl⟩ := hmem v hv
    exact hg.isFinite_value hindex
  · rw [values, List.head?_map, List.head?_range, if_neg hpos.ne', Option.map_some]
  · rw [beq_iff_toRat_eq (hg.isFinite_value hpos) hg.start_finite]
    exact hg.toRat_value_zero
  · rw [values, List.pairwise_map]
    refine List.pairwise_lt_range.imp_of_mem fun hindex hindex' hlt => ?_
    rw [List.mem_range] at hindex hindex'
    rw [le_iff_toRat_le (hg.isFinite_value hindex)
      (hg.isFinite_value hindex')]
    exact hg.toRat_value_mono hlt.le hindex'
  · intro v hv
    obtain ⟨index, hindex, rfl⟩ := hmem v hv
    have hfinite := hg.isFinite_value hindex
    rw [le_iff_toRat_le hg.start_finite hfinite, le_iff_toRat_le hfinite hg.stop_finite]
    exact ⟨hg.toRat_start_le_value hindex, hg.toRat_value_le_stop hindex⟩

end IsTame

/-- A grid that `check` accepts has as many values as its count says, the last of them the end of
the interval.  They cover the interval if the greatest product that they are computed from does not
overflow and there are not too many of them; if it overflows they are not all finite. -/
theorem values_cover {g : Grid} (hcheck : g.check = .ok ()) :
    g.values.length = g.count ∧ g.values.getLast? = some g.stop ∧
      (g.count ≤ 2 ^ 52 + 1 →
        ((g.stop - g.start) * ofNat (g.count - 2)).isFinite = true → g.IsCovered) ∧
      ((∀ v ∈ g.values, v.isFinite = true) →
        ((g.stop - g.start) * ofNat (g.count - 2)).isFinite = true) := by
  have hg := isValid_of_check hcheck
  have htwo := hg.two_le_count
  refine ⟨g.length_values, ?_, fun hcount hproduct => ?_, fun hfinite => ?_⟩
  · rw [values, List.getLast?_map, List.getLast?_range, if_neg (by omega), Option.map_some,
      value_of_succ_eq (by omega)]
  · exact IsTame.isCovered ⟨hg, hcount, hproduct⟩
  · apply hg.isFinite_product
    apply hfinite
    rw [values, List.mem_map]
    exact ⟨g.count - 2, List.mem_range.mpr (by omega), rfl⟩

theorem values_cover_of_four :
    let g : Grid := ⟨.ofBits 0xbff0000000000000, .ofBits 0x4000000000000000, 4⟩
    g.check = .ok () ∧ g.IsCovered := by
  intro g
  have hcheck : g.check = .ok () := by decide +kernel
  exact ⟨hcheck, (values_cover hcheck).2.2.1 (by decide) (by decide +kernel)⟩

/-- The width overflows, and the first value is not a number. -/
theorem value_zero_of_overflow :
    let g : Grid := ⟨.ofBits 0xffe1ccf385ebc8a0, .ofBits 0x7fe1ccf385ebc8a0, 2⟩
    g.check = .ok () ∧ (g.value 0).isNaN = true := by
  decide +kernel

-- The limit of the count is not arbitrary: of a few more than 2⁵² values the last but one can be
-- past the end.
example :
    let g : Grid := ⟨.ofBits 0xbff0000000000000, .ofBits 0x3d477e0000000000, 4512587308086015⟩
    g.check = .ok () ∧ ¬ g.value (g.count - 2) ≤ g.stop := by
  decide +kernel

end Grid

end Calculator
