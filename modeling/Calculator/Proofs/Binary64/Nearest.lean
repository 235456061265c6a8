import Calculator.Binary64.Basic
import Mathlib.Data.Nat.Dist
import Mathlib.Order.Monotone.Basic
import Mathlib.Tactic.Ring

/-!
# Rounding to the nearest

To round is to choose, among the places of an ascending sequence, the one nearest to a target, and
of two equally near the even one; there is only one such place (`IsNearest.unique`).  A quotient is
rounded among the multiples of its denominator, and a fraction among the doubles
(`Binary64.exists_isNearest`).  The doubles near a fraction are multiples of a power of two, among
which the fraction is rounded like a quotient, and all smaller doubles are farther away.
-/

namespace Calculator

/-- Of the numbers `f 0`, `f 1`, … none is nearer to the target than that at place `i`, and if
another is as near then `i` is even. -/
structure IsNearest (f : Nat → Nat) (target i : Nat) : Prop where
  dist_le : ∀ k, (f i).dist target ≤ (f k).dist target
  even : ∀ k, k ≠ i → (f k).dist target = (f i).dist target → i % 2 = 0

namespace IsNearest

variable {f : Nat → Nat} {target i j : Nat}

theorem not_lt_of_isNearest
    (hf : StrictMono f) (hi : IsNearest f target i) (hj : IsNearest f target j) : ¬i < j := by
  intro hlt
  have hij : (f i).dist target = (f j).dist target :=
    Nat.le_antisymm (hi.dist_le j) (hj.dist_le i)
  have hieven := hi.even j (Nat.ne_of_gt hlt) hij.symm
  have hjeven := hj.even i (Nat.ne_of_lt hlt) hij
  -- The target is half-way between two even places, so the odd one between them is nearer.
  have hbetween := hi.dist_le (i + 1)
  have hleft : f i < f (i + 1) := hf (Nat.lt_succ_self i)
  have hright : f (i + 1) < f j := hf (by omega)
  unfold Nat.dist at hij hbetween
  omega

/-- Only one place is nearest. -/
theorem unique
    (hf : StrictMono f) (hi : IsNearest f target i) (hj : IsNearest f target j) : i = j :=
  Nat.le_antisymm (Nat.le_of_not_lt (not_lt_of_isNearest hf hj hi))
    (Nat.le_of_not_lt (not_lt_of_isNearest hf hi hj))

/-- Rounding does not cross a number of the sequence. -/
theorem le_of_le (hf : StrictMono f) (hi : IsNearest f target i) (h : f j ≤ target) : j ≤ i := by
  by_contra hlt
  have hfar := hi.dist_le j
  have hij : f i < f j := hf (Nat.lt_of_not_le hlt)
  unfold Nat.dist at hfar
  omega

theorem ge_of_ge (hf : StrictMono f) (hi : IsNearest f target i) (h : target ≤ f j) : i ≤ j := by
  by_contra hlt
  have hfar := hi.dist_le j
  have hij : f j < f i := hf (Nat.lt_of_not_le hlt)
  unfold Nat.dist at hfar
  omega

/-- A number that is met exactly is nearest. -/
theorem of_eq (hf : StrictMono f) (h : f i = target) : IsNearest f target i where
  dist_le := fun k => by rw [h, Nat.dist_self]; exact Nat.zero_le _
  even := fun k hk hdist => by
    rw [h, Nat.dist_self] at hdist
    exact absurd (hf.injective ((Nat.eq_of_dist_eq_zero hdist).trans h.symm)) hk

/-- Changing the scale changes no place. -/
theorem mul_right (hi : IsNearest f target i) {k : Nat} (hk : 0 < k) :
    IsNearest (fun j => f j * k) (target * k) i where
  dist_le := fun j => by
    rw [Nat.dist_mul_right, Nat.dist_mul_right]
    exact Nat.mul_le_mul_right k (hi.dist_le j)
  even := fun j hj hdist => by
    rw [Nat.dist_mul_right, Nat.dist_mul_right] at hdist
    exact hi.even j hj (Nat.eq_of_mul_eq_mul_right hk hdist)

end IsNearest

/-! ## Multiples of a number -/

variable {num den q : Nat}

theorem strictMono_mul (hden : 0 < den) : StrictMono fun q => q * den :=
  fun _ _ h => Nat.mul_lt_mul_of_pos_right h hden

/-- A multiple is nearest if it is less than half a step away, or half a step and even. -/
theorem isNearest_mul_iff (hden : 0 < den) :
    IsNearest (· * den) num q ↔
      2 * (q * den).dist num ≤ den ∧ (2 * (q * den).dist num = den → q % 2 = 0) := by
  have hnext : (q + 1) * den = q * den + den := Nat.succ_mul q den
  constructor
  · intro h
    by_cases hbelow : q * den ≤ num
    · have habove := h.dist_le (q + 1)
      have htie := h.even (q + 1) (by omega)
      unfold Nat.dist at habove htie ⊢
      rw [hnext] at habove htie
      exact ⟨by omega, fun hhalf => htie (by omega)⟩
    · have hpos : 0 < q := by
        rcases Nat.eq_zero_or_pos q with rfl | hpos
        · simp at hbelow
        · exact hpos
      have hprevious : (q - 1) * den + den = q * den := by
        rw [← Nat.succ_mul, Nat.succ_eq_add_one, Nat.sub_add_cancel hpos]
      have habove := h.dist_le (q - 1)
      have htie := h.even (q - 1) (by omega)
      unfold Nat.dist at habove htie ⊢
      exact ⟨by omega, fun hhalf => htie (by omega)⟩
  · rintro ⟨hhalf, htie⟩
    have hfar : ∀ k, k ≠ q → den ≤ (k * den).dist (q * den) := by
      intro k hk
      rw [Nat.dist_mul_right]
      exact Nat.le_mul_of_pos_left den (Nat.dist_pos_of_ne hk)
    refine ⟨fun k => ?_, fun k hk hdist => htie ?_⟩
    · by_cases hk : k = q
      · rw [hk]
      · have := hfar k hk
        unfold Nat.dist at *
        omega
    · have := hfar k hk
      unfold Nat.dist at *
      omega

theorem mod_of_two_mul_dist
    (hden : 0 < den) (h : 2 * (divNearest num den * den).dist num = den) :
    2 * (num % den) = den := by
  have hdiv := Nat.div_add_mod num den
  have hmod := Nat.mod_lt num hden
  have hcomm := Nat.mul_comm den (num / den)
  unfold divNearest Nat.dist at h
  dsimp only at h
  split at h
  · omega
  · rename_i heq
    exact Nat.compare_eq_eq.mp heq
  · have hnext : (num / den + 1) * den = num / den * den + den := Nat.succ_mul _ _
    rw [hnext] at h
    omega

theorem isNearest_divNearest (num : Nat) (hden : 0 < den) :
    IsNearest (· * den) num (divNearest num den) := by
  have hupper : 2 * (divNearest num den * den) ≤ 2 * num + den := two_mul_divNearest_mul_le hden
  have hlower : 2 * num ≤ 2 * (divNearest num den * den) + den :=
    two_mul_le_two_mul_divNearest_mul hden
  rw [isNearest_mul_iff hden]
  refine ⟨?_, fun hhalf => divNearest_even_of_tie (mod_of_two_mul_dist hden hhalf)⟩
  unfold Nat.dist
  omega

/-! ## Doubles -/

namespace Binary64

theorem strictMono_unitsAt (hden : 0 < den) : StrictMono fun m => unitsAt m * den :=
  fun _ _ h => Nat.mul_lt_mul_of_pos_right (unitsAt_lt_unitsAt h) hden

/-- The doubles from some power of two upwards are multiples of the distance that they have there.
-/
theorem two_pow_dvd_unitsAt {count m : Nat} (h : count = 0 ∨ (count + 1) * binade ≤ m) :
    2 ^ count ∣ unitsAt m := by
  have hcount : count ≤ doublings m := by
    rcases h with rfl | hle
    · exact Nat.zero_le _
    · have hdiv := (Nat.le_div_iff_mul_le (by decide)).mpr hle
      unfold doublings
      omega
  rw [unitsAt, Nat.shiftLeft_eq]
  exact (Nat.pow_dvd_pow 2 hcount).mul_left _

/-- The doubles between two powers of two, both included, in terms of their distance. -/
theorem unitsAt_doublings
    {count q : Nat} (hlower : count = 0 ∨ binade ≤ q) (hupper : q ≤ 2 * binade) :
    unitsAt (count * binade + q) = q * 2 ^ count := by
  by_cases hlast : q = 2 * binade
  · have hplace : count * binade + q = (count + 1 + 1) * binade + 0 := by
      rw [hlast]
      simp only [binade]
      omega
    rw [hplace, unitsAt_eq (by decide), hlast, Nat.shiftLeft_eq]
    simp only [binade, Nat.pow_succ]
    omega
  · by_cases hsmall : q < binade
    · obtain rfl := hlower.resolve_right (Nat.not_le_of_lt hsmall)
      rw [Nat.zero_mul, Nat.zero_add, unitsAt_of_lt (by omega)]
      exact (Nat.mul_one q).symm
    · have hplace : count * binade + q = (count + 1) * binade + (q - binade) := by
        simp only [binade] at hsmall ⊢
        omega
      rw [hplace, unitsAt_eq (by omega), Nat.add_sub_cancel' (Nat.le_of_not_lt hsmall),
        Nat.shiftLeft_eq]

/-- Below a power of two the doubles are farther from a fraction above it than that power is. -/
theorem exists_multiple_or_dist_lt
    {target count step : Nat} (hden : 0 < den) (hstep : den * 2 ^ count = step)
    (hlower : count = 0 ∨ binade * step ≤ target) (m : Nat) :
    (∃ a, unitsAt m * den = a * step) ∨
      (binade * step).dist target < (unitsAt m * den).dist target := by
  by_cases hlarge : count = 0 ∨ (count + 1) * binade ≤ m
  · obtain ⟨a, ha⟩ := two_pow_dvd_unitsAt hlarge
    exact .inl ⟨a, by rw [ha, ← hstep]; ring⟩
  · obtain ⟨hcount, hm⟩ := not_or.mp hlarge
    have hpower : unitsAt ((count + 1) * binade + 0) = binade * 2 ^ count := by
      rw [unitsAt_eq (by decide), Nat.shiftLeft_eq, Nat.add_zero]
    have hlt : unitsAt m * den < binade * 2 ^ count * den := by
      rw [← hpower]
      exact Nat.mul_lt_mul_of_pos_right (unitsAt_lt_unitsAt (by omega)) hden
    have hbinade : binade * 2 ^ count * den = binade * step := by
      rw [← hstep, Nat.mul_assoc, Nat.mul_comm (2 ^ count)]
    have hle := hlower.resolve_left hcount
    right
    unfold Nat.dist
    omega

/-- A fraction between two powers of two is rounded to a place between them. -/
theorem divNearest_bounds
    {target count : Nat} (hden : 0 < den)
    (hlower : count = 0 ∨ binade * (den * 2 ^ count) ≤ target)
    (hupper : target ≤ 2 * binade * (den * 2 ^ count)) :
    (count = 0 ∨ binade ≤ divNearest target (den * 2 ^ count)) ∧
      divNearest target (den * 2 ^ count) ≤ 2 * binade := by
  have hstep : 0 < den * 2 ^ count := Nat.mul_pos hden (Nat.two_pow_pos count)
  have hgrid := isNearest_divNearest target hstep
  exact ⟨hlower.imp_right (hgrid.le_of_le (strictMono_mul hstep)),
    hgrid.ge_of_ge (strictMono_mul hstep) hupper⟩

theorem unitsAt_doublings_mul
    {count q : Nat} (h : (count = 0 ∨ binade ≤ q) ∧ q ≤ 2 * binade) (den : Nat) :
    unitsAt (count * binade + q) * den = q * (den * 2 ^ count) := by
  rw [unitsAt_doublings h.1 h.2, Nat.mul_assoc, Nat.mul_comm (2 ^ count)]

/-- A fraction between two powers of two is rounded among the multiples of the distance of the
doubles there. -/
theorem isNearest_of_bounds
    {target count : Nat} (hden : 0 < den)
    (hlower : count = 0 ∨ binade * (den * 2 ^ count) ≤ target)
    (hupper : target ≤ 2 * binade * (den * 2 ^ count)) :
    IsNearest (fun m => unitsAt m * den) target
      (count * binade + divNearest target (den * 2 ^ count)) := by
  have hstep : 0 < den * 2 ^ count := Nat.mul_pos hden (Nat.two_pow_pos count)
  have hgrid := isNearest_divNearest target hstep
  have hbounds := divNearest_bounds hden hlower hupper
  generalize divNearest target (den * 2 ^ count) = q at hgrid hbounds ⊢
  have hunits := unitsAt_doublings_mul hbounds den
  have hcases : ∀ k, (∃ a, unitsAt k * den = a * (den * 2 ^ count)) ∨
      (q * (den * 2 ^ count)).dist target < (unitsAt k * den).dist target := by
    intro k
    exact (exists_multiple_or_dist_lt hden rfl hlower k).imp_right
      (Nat.lt_of_le_of_lt (hgrid.dist_le binade))
  constructor
  · intro k
    rw [hunits]
    rcases hcases k with ⟨a, ha⟩ | hfar
    · rw [ha]
      exact hgrid.dist_le a
    · exact Nat.le_of_lt hfar
  · intro k hk hdist
    rw [hunits] at hdist
    rcases hcases k with ⟨a, ha⟩ | hfar
    · have haq : a ≠ q := by
        rintro rfl
        exact hk ((strictMono_unitsAt hden).injective (ha.trans hunits.symm))
      rw [ha] at hdist
      have heven := hgrid.even a haq hdist
      simp only [binade]
      omega
    · omega

theorem binade_mul_two_pow (count : Nat) : binade * 2 ^ count = 2 ^ (count + 52) := by
  have hbinade : binade = 2 ^ 52 := rfl
  rw [hbinade, ← Nat.pow_add, Nat.add_comm]

/-- The logarithm of a fraction tells between which powers of two it is. -/
theorem binade_mul_le_of_log2 {num den count : Nat}
    (hden : 0 < den) (hlog : count + 52 = (num / den).log2) : binade * (den * 2 ^ count) ≤ num := by
  have hne : num / den ≠ 0 := by
    intro hzero
    rw [hzero, Nat.log2_zero] at hlog
    omega
  have hle : binade * 2 ^ count ≤ num / den := by
    rw [binade_mul_two_pow, hlog]
    exact Nat.log2_self_le hne
  calc
    binade * (den * 2 ^ count) = binade * 2 ^ count * den := by ring
    _ ≤ num := (Nat.le_div_iff_mul_le hden).mp hle

theorem le_binade_mul_of_log2_le {num den count : Nat}
    (hden : 0 < den) (hlog : (num / den).log2 ≤ count + 52) :
    num ≤ 2 * binade * (den * 2 ^ count) := by
  have hlt : num / den < 2 * binade * 2 ^ count := by
    rw [Nat.mul_assoc, binade_mul_two_pow, Nat.mul_comm, ← Nat.pow_succ]
    exact Nat.lt_of_lt_of_le Nat.lt_log2_self (Nat.pow_le_pow_right (by decide) (by omega))
  calc
    num ≤ 2 * binade * 2 ^ count * den := ((Nat.div_lt_iff_lt_mul hden).mp hlt).le
    _ = 2 * binade * (den * 2 ^ count) := by ring

theorem bounds_of_log2 (target : Nat) (hden : 0 < den) :
    ((target / den).log2 - 52 = 0 ∨
      binade * (den * 2 ^ ((target / den).log2 - 52)) ≤ target) ∧
    target ≤ 2 * binade * (den * 2 ^ ((target / den).log2 - 52)) := by
  refine ⟨?_, le_binade_mul_of_log2_le hden (by omega)⟩
  by_cases hsmall : (target / den).log2 ≤ 52
  · exact .inl (by omega)
  · exact .inr (binade_mul_le_of_log2 hden (by omega))

/-- The magnitude of the double nearest to a fraction, or that of infinity if the fraction is too
large. -/
theorem exists_isNearest (num : Nat) (hden : 0 < den) :
    ∃ m, IsNearest (fun k => unitsAt k * den) (num * one) m ∧
      nearestMagnitude num den = min m infinite := by
  obtain ⟨hlower, hupper⟩ := bounds_of_log2 (num * one) hden
  refine ⟨_, isNearest_of_bounds hden hlower hupper, ?_⟩
  rw [nearestMagnitude, Nat.shiftLeft_eq]

/-- Equal fractions are rounded to the same double. -/
theorem nearestMagnitude_congr
    {num' den' : Nat} (hden : 0 < den) (hden' : 0 < den') (h : num * den' = num' * den) :
    nearestMagnitude num den = nearestMagnitude num' den' := by
  obtain ⟨m, hm, hnearest⟩ := exists_isNearest num hden
  obtain ⟨m', hm', hnearest'⟩ := exists_isNearest num' hden'
  have hscaled := hm.mul_right hden'
  have hscaled' := hm'.mul_right hden
  have hunits : (fun k => unitsAt k * den' * den) = fun k => unitsAt k * den * den' := by
    funext k
    exact Nat.mul_right_comm _ _ _
  have htarget : num' * one * den = num * one * den' := by
    rw [Nat.mul_right_comm, ← h, Nat.mul_right_comm]
  rw [hunits, htarget] at hscaled'
  have hmono : StrictMono fun k => unitsAt k * den * den' := fun _ _ hlt =>
    Nat.mul_lt_mul_of_pos_right (strictMono_unitsAt hden hlt) hden'
  rw [hnearest, hnearest', hscaled.unique hmono hscaled']

end Binary64

end Calculator
