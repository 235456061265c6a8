import Calculator.Proofs.Decimal.Reading

/-!
# Rounding rational numbers

What arithmetic on doubles gives is an exact rational number, rounded.  In units a number is rounded
to a magnitude (`IsNearestUnits`), and with its sign to a double, if it is not too large
(`RoundsTo`).  Rounding is monotone, it keeps the doubles as they are, and it changes a number by at
most its 2⁵³rd part if the number is a multiple of the unit or not too small (`abs_sub_le`).
-/

namespace Calculator.Binary64

variable {r r' : ℚ} {m m' num den : ℕ} {x y : Float}

/-- No magnitude is nearer to a number of units, and if another one is as near then it is even. -/
structure IsNearestUnits (r : ℚ) (m : ℕ) : Prop where
  dist_le : ∀ k, |(unitsAt m : ℚ) - r| ≤ |(unitsAt k : ℚ) - r|
  even : ∀ k, k ≠ m → |(unitsAt k : ℚ) - r| = |(unitsAt m : ℚ) - r| → m % 2 = 0

/-- The double is what a number is rounded to, and not by overflow. -/
structure RoundsTo (r : ℚ) (x : Float) : Prop where
  finite : x.isFinite = true
  sign : 0 ≤ signFactor x * r
  nearest : IsNearestUnits (|r| * one) (magnitude x)

/-! ## Magnitudes -/

theorem unitsAt_strictMono : StrictMono unitsAt :=
  fun _ _ => unitsAt_lt_unitsAt

theorem abs_units_sub (units num : ℕ) (hden : 0 < den) :
    |(units : ℚ) - num / den| = (units * den).dist num / den := by
  have h := @abs_div_sub_div units 1 num den Nat.one_pos hden
  simpa using h

theorem isNearestUnits_iff (hden : 0 < den) :
    IsNearestUnits (num / den) m ↔ IsNearest (fun k => unitsAt k * den) num m := by
  have hdist := fun k => abs_units_sub (unitsAt k) num hden
  have hpos : (0 : ℚ) < den := Nat.cast_pos.mpr hden
  constructor
  · rintro ⟨hle, heven⟩
    refine ⟨fun k => ?_, fun k hk hdistk => heven k hk ?_⟩
    · have := hle k
      rwa [hdist, hdist, div_le_div_iff_of_pos_right hpos, Nat.cast_le] at this
    · rw [hdist, hdist, hdistk]
  · rintro ⟨hle, heven⟩
    refine ⟨fun k => ?_, fun k hk hdistk => heven k hk ?_⟩
    · rw [hdist, hdist, div_le_div_iff_of_pos_right hpos, Nat.cast_le]
      exact hle k
    · rwa [hdist, hdist, div_left_inj' hpos.ne', Nat.cast_inj] at hdistk

theorem exists_eq_div (hr : 0 ≤ r) : ∃ num den : ℕ, 0 < den ∧ r = num / den := by
  refine ⟨r.num.toNat, r.den, r.den_pos, ?_⟩
  have hnum : ((r.num.toNat : ℤ) : ℚ) = r.num := by
    rw [Int.toNat_of_nonneg (Rat.num_nonneg.mpr hr)]
  rw [← Int.cast_natCast r.num.toNat, hnum, Rat.num_div_den]

theorem add_le_of_abs_sub_le {a b : ℚ} (hlt : b < a) (h : |a - r| ≤ |b - r|) : a + b ≤ 2 * r := by
  have := sq_le_sq.mpr h
  nlinarith

theorem le_add_of_abs_sub_le {a b : ℚ} (hlt : b < a) (h : |b - r| ≤ |a - r|) : 2 * r ≤ a + b := by
  have := sq_le_sq.mpr h
  nlinarith

namespace IsNearestUnits

theorem self (k : ℕ) : IsNearestUnits (unitsAt k) k := by
  have h := (isNearestUnits_iff Nat.one_pos).mpr
    (IsNearest.of_eq (strictMono_unitsAt Nat.one_pos) (Nat.mul_one (unitsAt k)))
  simpa using h

/-- A larger number has no smaller magnitude. -/
theorem mono (h : IsNearestUnits r m) (h' : IsNearestUnits r' m') (hle : r ≤ r') : m ≤ m' := by
  by_contra hlt
  have hunits : (unitsAt m' : ℚ) < unitsAt m :=
    Nat.cast_lt.mpr (unitsAt_lt_unitsAt (Nat.lt_of_not_le hlt))
  have hleft := add_le_of_abs_sub_le hunits (h.dist_le m')
  have hright := le_add_of_abs_sub_le hunits (h'.dist_le m)
  -- Both numbers are half-way between the two magnitudes, of which only one is chosen.
  have hmiddle : r = (unitsAt m + unitsAt m') / 2 := by linarith
  have hmiddle' : r' = (unitsAt m + unitsAt m') / 2 := by linarith
  have hhalf : ((unitsAt m : ℚ) + unitsAt m') / 2 =
      ((unitsAt m + unitsAt m' : ℕ) : ℚ) / (2 : ℕ) := by
    push_cast
    rfl
  rw [hmiddle, hhalf, isNearestUnits_iff Nat.two_pos] at h
  rw [hmiddle', hhalf, isNearestUnits_iff Nat.two_pos] at h'
  exact hlt (h.unique (strictMono_unitsAt Nat.two_pos) h').le

theorem unique (h : IsNearestUnits r m) (h' : IsNearestUnits r m') : m = m' :=
  Nat.le_antisymm (h.mono h' le_rfl) (h'.mono h le_rfl)

/-- A number that is not too small changes by less than its 2⁵³rd part. -/
theorem abs_sub_le (h : IsNearestUnits r m) (hr : binade ≤ r) :
    |(unitsAt m : ℚ) - r| * (2 * binade) ≤ r := by
  have hbinade : (0 : ℚ) < binade := Nat.cast_pos.mpr (by decide)
  obtain ⟨num, den, hden, rfl⟩ := exists_eq_div (hbinade.le.trans hr)
  have hden' : (0 : ℚ) < den := Nat.cast_pos.mpr hden
  obtain ⟨hlower, hupper⟩ := bounds_of_log2 num hden
  generalize (num / den).log2 - 52 = count at hlower hupper
  have hstep : 0 < den * 2 ^ count := Nat.mul_pos hden (Nat.two_pow_pos count)
  have hle : binade * (den * 2 ^ count) ≤ num := by
    rcases hlower with rfl | hle
    · rw [le_div_iff₀ hden'] at hr
      rw [Nat.pow_zero, Nat.mul_one]
      exact_mod_cast hr
    · exact hle
  rw [isNearestUnits_iff hden] at h
  obtain rfl := h.unique (strictMono_unitsAt hden) (isNearest_of_bounds hden hlower hupper)
  have hunits := unitsAt_doublings_mul (divNearest_bounds hden hlower hupper) den
  have hhalf := ((isNearest_mul_iff hstep).mp (isNearest_divNearest num hstep)).1
  rw [← hunits] at hhalf
  generalize unitsAt _ = units at hhalf ⊢
  rw [abs_units_sub units num hden, div_mul_eq_mul_div, div_le_div_iff_of_pos_right hden']
  have : (units * den).dist num * (2 * binade) ≤ num := by
    calc
      (units * den).dist num * (2 * binade) = binade * (2 * (units * den).dist num) := by ring
      _ ≤ binade * (den * 2 ^ count) := Nat.mul_le_mul_left binade hhalf
      _ ≤ num := hle
  exact_mod_cast this

/-- A whole number of units changes by at most its 2⁵³rd part. -/
theorem abs_sub_le_of_nat {n : ℕ} (h : IsNearestUnits n m) :
    |(unitsAt m : ℚ) - n| * (2 * binade) ≤ n := by
  by_cases hsmall : n < 2 * binade
  · have hunits : unitsAt n = n := unitsAt_of_lt hsmall
    rw [← hunits] at h
    rw [h.unique (.self n), hunits, sub_self, abs_zero, zero_mul]
    exact Nat.cast_nonneg n
  · refine h.abs_sub_le (Nat.cast_le.mpr ?_)
    omega

end IsNearestUnits

/-! ## Doubles -/

theorem signFactor_mul_self (x : Float) : signFactor x * signFactor x = 1 := by
  unfold signFactor
  split <;> norm_num

theorem signFactor_cases (x : Float) : signFactor x = 1 ∨ signFactor x = -1 := by
  unfold signFactor
  split
  · exact .inr rfl
  · exact .inl rfl

/-- The absolute value of a double counts its units. -/
theorem abs_toRat_mul_one (x : Float) : |toRat x| * one = units x := by
  have hone : (one : ℚ) ≠ 0 := Nat.cast_ne_zero.mpr one_pos.ne'
  rw [abs_toRat, div_mul_cancel₀ _ hone]

/-- With its sign a double counts its units. -/
theorem exists_int_eq_toRat_mul_one (x : Float) : ∃ k : ℤ, toRat x * one = k := by
  have hone : (one : ℚ) ≠ 0 := Nat.cast_ne_zero.mpr one_pos.ne'
  rcases signFactor_cases x with hx | hx
  · refine ⟨units x, ?_⟩
    rw [toRat, hx, one_mul, div_mul_cancel₀ _ hone, Int.cast_natCast]
  · refine ⟨-units x, ?_⟩
    rw [toRat, hx, neg_one_mul, neg_mul, div_mul_cancel₀ _ hone, Int.cast_neg, Int.cast_natCast]

theorem units_le_units_iff : units x ≤ units y ↔ magnitude x ≤ magnitude y :=
  unitsAt_strictMono.le_iff_le

namespace RoundsTo

theorem self (hx : x.isFinite = true) : RoundsTo (toRat x) x where
  finite := hx
  sign := by
    rw [toRat, ← mul_assoc, signFactor_mul_self, one_mul]
    positivity
  nearest := by
    rw [abs_toRat_mul_one]
    exact .self (magnitude x)

theorem eq_signFactor_mul (h : RoundsTo r x) : r = signFactor x * |r| := by
  have hsign := h.sign
  rcases signFactor_cases x with hx | hx <;> rw [hx] at hsign ⊢
  · rw [one_mul, abs_of_nonneg (by linarith)]
  · rw [abs_of_nonpos (by linarith)]
    ring

theorem sub_eq (h : RoundsTo r x) :
    toRat x - r = signFactor x * (((units x : ℚ) - |r| * one) / one) := by
  have hone : (one : ℚ) ≠ 0 := Nat.cast_ne_zero.mpr one_pos.ne'
  nth_rewrite 1 [h.eq_signFactor_mul]
  rw [toRat, ← mul_sub, sub_div, mul_div_cancel_right₀ _ hone]

theorem units_eq_zero (h : RoundsTo 0 x) : units x = 0 := by
  have hnearest := h.nearest
  have hself := IsNearestUnits.self 0
  rw [abs_zero, zero_mul] at hnearest
  rw [unitsAt_zero, Nat.cast_zero] at hself
  rw [units, hnearest.unique hself, unitsAt_zero]

theorem eq_zero (h : RoundsTo 0 x) : toRat x = 0 := by
  rw [toRat, h.units_eq_zero, Nat.cast_zero, zero_div, mul_zero]

theorem nonneg (h : RoundsTo r x) (hr : 0 ≤ r) : 0 ≤ toRat x := by
  have hsign := h.sign
  rcases signFactor_cases x with hx | hx
  · rw [toRat, hx]
    positivity
  · rw [hx] at hsign
    obtain rfl : r = 0 := by linarith
    exact h.eq_zero.ge

/-- Rounding is monotone. -/
theorem mono (h : RoundsTo r x) (h' : RoundsTo r' y) (hle : r ≤ r') : toRat x ≤ toRat y := by
  have hone : (0 : ℚ) < one := Nat.cast_pos.mpr one_pos
  have hnearest : ∀ {r r' x y}, RoundsTo r x → RoundsTo r' y → |r| ≤ |r'| →
      (units x : ℚ) / one ≤ units y / one := by
    intro r r' x y h h' hle
    rw [div_le_div_iff_of_pos_right hone, Nat.cast_le, units_le_units_iff]
    exact h.nearest.mono h'.nearest (mul_le_mul_of_nonneg_right hle hone.le)
  have hx := div_nonneg (Nat.cast_nonneg (units x)) hone.le
  have hy := div_nonneg (Nat.cast_nonneg (units y)) hone.le
  have hsign := h.sign
  have hsign' := h'.sign
  rw [toRat, toRat]
  rcases signFactor_cases x with hsx | hsx <;> rcases signFactor_cases y with hsy | hsy <;>
    rw [hsx] at hsign ⊢ <;> rw [hsy] at hsign' ⊢
  · have := hnearest h h' (abs_le_abs (by linarith) (by linarith))
    linarith
  · obtain rfl : r = 0 := by linarith
    obtain rfl : r' = 0 := by linarith
    simp [h.units_eq_zero, h'.units_eq_zero]
  · linarith
  · have hle' : |r'| ≤ |r| := by
      rw [abs_of_nonpos (by linarith), abs_of_nonpos (by linarith)]
      linarith
    have := hnearest h' h hle'
    linarith

theorem le_of_le (h : RoundsTo r x) (hy : y.isFinite = true) (hle : r ≤ toRat y) :
    toRat x ≤ toRat y :=
  h.mono (.self hy) hle

theorem ge_of_ge (h : RoundsTo r x) (hy : y.isFinite = true) (hle : toRat y ≤ r) :
    toRat y ≤ toRat x :=
  (RoundsTo.self hy).mono h hle

/-- What is a double already is not changed. -/
theorem eq_of_eq (h : RoundsTo r x) (hy : y.isFinite = true) (heq : r = toRat y) :
    toRat x = toRat y :=
  le_antisymm (h.le_of_le hy heq.le) (h.ge_of_ge hy heq.ge)

/-- No double is nearer to a number than what it is rounded to. -/
theorem dist_le (h : RoundsTo r x) (y : Float) : |toRat x - r| ≤ |toRat y - r| := by
  have hone : (0 : ℚ) < one := Nat.cast_pos.mpr one_pos
  have hdist : ∀ z, |(units z : ℚ) - |r| * one| / one = |(|toRat z| - |r|)| := by
    intro z
    rw [← abs_of_pos hone, ← abs_div, abs_of_pos hone, sub_div, ← abs_toRat,
      mul_div_cancel_right₀ _ hone.ne']
  calc
    |toRat x - r| = |(units x : ℚ) - |r| * one| / one := by
      rw [h.sub_eq, abs_mul, abs_signFactor, one_mul, abs_div, abs_of_pos hone]
    _ ≤ |(units y : ℚ) - |r| * one| / one :=
      div_le_div_of_nonneg_right (h.nearest.dist_le (magnitude y)) hone.le
    _ = |(|toRat y| - |r|)| := hdist y
    _ ≤ |toRat y - r| := abs_abs_sub_abs_le _ _

/-- How much a number changes that is a multiple of the unit or not too small. -/
theorem abs_sub_le
    (h : RoundsTo r x) (hr : binade ≤ |r| * one ∨ ∃ n : ℕ, |r| * one = n) :
    |toRat x - r| * (2 * binade) ≤ |r| := by
  have hone : (0 : ℚ) < one := Nat.cast_pos.mpr one_pos
  have hnearest := h.nearest
  have hchange : |(units x : ℚ) - |r| * one| * (2 * binade) ≤ |r| * one := by
    rcases hr with hlarge | ⟨n, hn⟩
    · exact hnearest.abs_sub_le hlarge
    · rw [hn] at hnearest ⊢
      exact hnearest.abs_sub_le_of_nat
  rw [h.sub_eq, abs_mul, abs_signFactor, one_mul, abs_div, abs_of_pos hone, div_mul_eq_mul_div,
    div_le_iff₀ hone]
  exact hchange

/-- A number that is not negative grows by at most its 2⁵³rd part. -/
theorem mul_le
    (h : RoundsTo r x) (hnonneg : 0 ≤ r) (hr : binade ≤ r * one ∨ ∃ n : ℕ, r * one = n) :
    toRat x * (2 * binade) ≤ r * (2 * binade + 1) := by
  have hbinade : (0 : ℚ) < binade := Nat.cast_pos.mpr (by decide)
  have hchange := h.abs_sub_le (by rwa [abs_of_nonneg hnonneg])
  rw [abs_of_nonneg hnonneg] at hchange
  have hle : (toRat x - r) * (2 * binade) ≤ |toRat x - r| * (2 * binade) :=
    mul_le_mul_of_nonneg_right (le_abs_self _) (by linarith)
  linarith

/-- A whole number of units is not changed if it is less than 2⁵³. -/
theorem eq_of_units_lt {n : ℕ} (h : RoundsTo r x) (hr : |r| * one = n) (hn : n < 2 * binade) :
    toRat x = r := by
  have hunits : unitsAt n = n := unitsAt_of_lt hn
  have hnearest := h.nearest
  rw [hr, ← hunits] at hnearest
  have hchange := h.sub_eq
  rw [hr, units, hnearest.unique (.self n), hunits, sub_self, zero_div, mul_zero] at hchange
  exact sub_eq_zero.mp hchange

/-- Only small numbers are rounded to small ones. -/
theorem binade_lt_of_units_lt (h : RoundsTo r x) (hx : binade < units x) : binade < |r| * one := by
  by_contra hsmall
  have hunits : unitsAt binade = binade := unitsAt_of_lt (by decide)
  have hself := IsNearestUnits.self binade
  rw [hunits] at hself
  have hle := unitsAt_strictMono.monotone (h.nearest.mono hself (le_of_not_gt hsmall))
  rw [hunits] at hle
  exact absurd hx (Nat.not_lt.mpr hle)

end RoundsTo

end Calculator.Binary64
