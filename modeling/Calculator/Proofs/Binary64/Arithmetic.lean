import Calculator.Proofs.Binary64.Packing
import Calculator.Proofs.Binary64.Unpacked
import Mathlib.Tactic.FieldSimp

/-!
# Arithmetic on doubles is rounded arithmetic

A sum, a difference, a product or a quotient of finite doubles is the exact one, rounded, unless it
overflows (`roundsTo_add` and the like), and it does not overflow if another one that is not less in
absolute value does not (`isFinite_of_packsTo`).
-/

namespace Calculator.Binary64

open Float.Model Float.Model.UnpackedFloat

variable {x y : Float} {u v : UnpackedFloat} {sign : Sign} {r : ℚ}

/-! ## Packed results -/

/-- What a double is packed to that has a number of units with its sign. -/
def PacksTo (u : UnpackedFloat) (r : ℚ) : Prop :=
  ∃ sign, Packs u sign |r| ∧ 0 ≤ factor sign * r

theorem roundsTo_of_packsTo
    (hbits : x.toBits.toBitVec = UnpackedFloat.pack .binary64 u) (hx : x.isFinite = true)
    (h : PacksTo u (r * one)) : RoundsTo r x := by
  have hone : (0 : ℚ) < one := Nat.cast_pos.mpr one_pos
  obtain ⟨sign, ⟨exponent, mantissa, m, hpack, hnearest, hmagnitude⟩, hsign⟩ := h
  have hparts : HasParts x sign exponent mantissa := hbits.trans hpack
  have hfinite := isFinite_iff_magnitude_lt.mp hx
  rw [← hparts.magnitude_eq] at hmagnitude
  have hm : magnitude x = m := by omega
  refine ⟨hx, ?_, ?_⟩
  · rw [signFactor_eq_factor hparts.isNegative_eq]
    rw [← mul_assoc] at hsign
    exact nonneg_of_mul_nonneg_left hsign hone
  · rw [hm]
    rwa [abs_mul, abs_of_pos hone] at hnearest

/-- Nothing overflows that is not greater than something that does not. -/
theorem isFinite_of_packsTo
    {r' : ℚ} (hbits : x.toBits.toBitVec = UnpackedFloat.pack .binary64 u) (h : PacksTo u (r * one))
    (h' : RoundsTo r' y) (hle : |r| ≤ |r'|) : x.isFinite = true := by
  have hone : (0 : ℚ) < one := Nat.cast_pos.mpr one_pos
  obtain ⟨sign, ⟨exponent, mantissa, m, hpack, hnearest, hmagnitude⟩, -⟩ := h
  have hparts : HasParts x sign exponent mantissa := hbits.trans hpack
  rw [abs_mul, abs_of_pos hone] at hnearest
  have hm := hnearest.mono h'.nearest (mul_le_mul_of_nonneg_right hle hone.le)
  have hfinite := isFinite_iff_magnitude_lt.mp h'.finite
  rw [isFinite_iff_magnitude_lt, hparts.magnitude_eq, hmagnitude]
  exact Nat.lt_of_le_of_lt (Nat.min_le_left _ _) (Nat.lt_of_le_of_lt hm hfinite)

theorem isFinite_of_pack
    (hbits : x.toBits.toBitVec = UnpackedFloat.pack .binary64 u) (hx : x.isFinite = true) :
    u.isFinite = true := by
  cases u with
  | zero | finite => rfl
  | infinity sign =>
      have hparts : HasParts x sign (-1#11) 0#52 := hbits
      exact absurd rfl (hparts.isFinite_iff.mp hx)
  | notANumber =>
      have hparts : HasParts x .positive (-1#11) (1#52 <<< 51) := hbits
      exact absurd rfl (hparts.isFinite_iff.mp hx)

theorem Packs.packsTo (h : Packs u sign r) (hr : 0 ≤ r) : PacksTo u (factor sign * r) := by
  have habs : |factor sign * r| = r := by
    rw [abs_mul, abs_of_nonneg hr]
    cases sign <;> norm_num [factor, Sign.apply]
  refine ⟨sign, by rwa [habs], ?_⟩
  rwa [← mul_assoc, factor_mul_self, one_mul]

theorem packsTo_zero (sign : Sign) : PacksTo (.zero sign) 0 := by
  have hnearest := IsNearestUnits.self 0
  rw [unitsAt_zero, Nat.cast_zero] at hnearest
  have hpacks : Packs (.zero sign) sign 0 := ⟨0#11, 0#52, 0, rfl, hnearest, rfl⟩
  have h := hpacks.packsTo le_rfl
  rwa [mul_zero] at h

/-- A double is packed as it was unpacked. -/
theorem Unpacks.packsTo (h : Unpacks x u) : PacksTo u (toRat x * one) := by
  cases u with
  | notANumber | infinity => cases h
  | zero sign =>
      rw [h.toRat_zero]
      exact packsTo_zero sign
  | finite sign mantissa e hpos =>
      rw [h.toRat_finite]
      refine Packs.packsTo ?_ (by positivity)
      cases h with
      | finite _ _ count _ hsign hlower hupper hmagnitude =>
          obtain ⟨exponent, bits, hpack, hplace⟩ :=
            exists_pack_finite sign hpos hlower hupper
          have hunits : ((unitsAt (count * binade + mantissa) : Nat) : ℚ) =
              mantissa * 2 ^ ((count : Int) - 1074 + 1074) := by
            rw [unitsAt_doublings hlower hupper.le, sub_add_cancel, zpow_natCast]
            push_cast
            rfl
          exact ⟨exponent, bits, _, hpack, hunits ▸ .self _, hplace⟩

/-! ## Sums -/

theorem log2_shiftLeft {n : Nat} (hn : 0 < n) (k : Nat) : (n <<< k).log2 = n.log2 + k := by
  rw [Nat.shiftLeft_eq, Nat.log2_eq_iff (Nat.mul_pos hn (Nat.two_pow_pos k)).ne']
  constructor
  · rw [Nat.pow_add]
    exact Nat.mul_le_mul_right _ (Nat.log2_self_le hn.ne')
  · rw [Nat.add_right_comm, Nat.pow_add]
    exact Nat.mul_lt_mul_of_pos_right Nat.lt_log2_self (Nat.two_pow_pos k)

/-- A whole number at an exponent that is not too high is rounded. -/
theorem packs_roundWithAccuracy_exact
    {n : Nat} {e : Int} (he : e ≤ Format.targetExponent .binary64 (totalExponent n e)) :
    Packs (roundWithAccuracy .binary64 sign n e .exact) sign (n * 2 ^ (e + 1074)) := by
  have hone := Nat.div_one n
  have h : Packs (roundWithAccuracy .binary64 sign (n / 1) e (accuracyOfFraction (n % 1) 1)) sign
      (n * 2 ^ (e + 1074)) :=
    packs_roundWithAccuracy Nat.one_pos (hone.symm ▸ he) (by rw [Nat.cast_one, div_one])
  rw [hone, Nat.mod_one] at h
  exact h

/-- A whole number at any exponent is rounded. -/
theorem packs_round {n : Nat} (hn : 0 < n) (e : Int) :
    Packs (round .binary64 sign n e) sign (n * 2 ^ (e + 1074)) := by
  obtain ⟨shift, hshift⟩ : ∃ shift : Nat,
      (e - Format.targetExponent .binary64 (totalExponent n e)).toNat = shift := ⟨_, rfl⟩
  have htotal : totalExponent (n <<< shift) (e - shift) = totalExponent n e := by
    rw [totalExponent, totalExponent, log2_shiftLeft hn]
    push_cast
    ring
  have hround : round .binary64 sign n e =
      roundWithAccuracy .binary64 sign (n <<< shift) (e - shift) .exact := by
    rw [← hshift]
    rfl
  have hvalue : ((n <<< shift : Nat) : ℚ) * 2 ^ (e - shift + 1074) = n * 2 ^ (e + 1074) := by
    have hsum : e - shift + 1074 = e + 1074 - shift := by omega
    rw [Nat.shiftLeft_eq, hsum, zpow_sub₀ two_ne_zero, zpow_natCast]
    push_cast
    field_simp
  rw [hround, ← hvalue]
  apply packs_roundWithAccuracy_exact
  rw [htotal]
  omega

theorem packsTo_normalize (n e : Int) (zeroSign : Sign) :
    PacksTo (normalize .binary64 n e zeroSign) (n * 2 ^ (e + 1074)) := by
  have hvalue : ∀ {sign : Sign} {k : Nat}, sign.apply k = n →
      (n : ℚ) * 2 ^ (e + 1074) = factor sign * (k * 2 ^ (e + 1074)) := by
    intro sign k hk
    rw [← hk, cast_apply, Int.cast_natCast, mul_assoc]
  unfold UnpackedFloat.normalize
  rcases lt_trichotomy n 0 with hn | rfl | hn
  · have hk : Sign.negative.apply (-n).toNat = n := by
      rw [Sign.apply]
      omega
    rw [Int.compare_eq_lt.mpr hn, hvalue hk]
    exact (packs_round (by omega) e).packsTo (by positivity)
  · rw [Int.compare_eq_eq.mpr rfl, Int.cast_zero, zero_mul]
    exact packsTo_zero zeroSign
  · have hk : Sign.positive.apply n.toNat = n := Int.toNat_of_nonneg hn.le
    rw [Int.compare_eq_gt.mpr hn, hvalue hk]
    exact (packs_round (by omega) e).packsTo (by positivity)

/-- A mantissa at a lower exponent stands for the same number. -/
theorem apply_decreaseExponent
    (sign : Sign) (mantissa : Nat) {e target : Int} (h : target ≤ e) :
    ((sign.apply (decreaseExponent mantissa e target).1 : Int) : ℚ) * 2 ^ (target + 1074) =
      factor sign * (mantissa * 2 ^ (e + 1074)) := by
  obtain ⟨shift, hshift⟩ : ∃ shift : Nat, e - target = shift := ⟨(e - target).toNat, by omega⟩
  have hsum : e + 1074 = shift + (target + 1074) := by omega
  rw [cast_apply, decreaseExponent, hshift, Int.toNat_natCast, Nat.shiftLeft_eq, hsum,
    zpow_add₀ two_ne_zero shift (target + 1074), zpow_natCast]
  push_cast
  ring

theorem Unpacks.packsTo_add (hx : Unpacks x u) (hy : Unpacks y v) :
    PacksTo (UnpackedFloat.add .binary64 u v) ((toRat x + toRat y) * one) := by
  rw [add_mul]
  cases u with
  | notANumber | infinity => cases hx
  | zero sign =>
      rw [hx.toRat_zero, zero_add]
      cases v with
      | notANumber | infinity => cases hy
      | zero sign' =>
          rw [hy.toRat_zero]
          show PacksTo (if sign == sign' then .zero sign else .zero .positive) 0
          split_ifs <;> exact packsTo_zero _
      | finite => exact hy.packsTo
  | finite sign mantissa e hpos =>
      cases v with
      | notANumber | infinity => cases hy
      | zero sign' =>
          rw [hy.toRat_zero, add_zero]
          exact hx.packsTo
      | finite sign' mantissa' e' hpos' =>
          rw [hx.toRat_finite, hy.toRat_finite, ← apply_decreaseExponent _ _ (min_le_left e e'),
            ← apply_decreaseExponent _ _ (min_le_right e e'), ← add_mul, ← Int.cast_add]
          exact packsTo_normalize _ _ _

/-- A sum of doubles is the exact sum, rounded. -/
theorem roundsTo_add
    (hx : x.isFinite = true) (hy : y.isFinite = true) (h : (x + y).isFinite = true) :
    RoundsTo (toRat x + toRat y) (x + y) :=
  roundsTo_of_packsTo rfl h ((unpacks_of_isFinite hx).packsTo_add (unpacks_of_isFinite hy))

theorem roundsTo_add_of_le
    {r' : ℚ} {z : Float} (hx : x.isFinite = true) (hy : y.isFinite = true) (hz : RoundsTo r' z)
    (hle : |toRat x + toRat y| ≤ |r'|) : RoundsTo (toRat x + toRat y) (x + y) :=
  roundsTo_add hx hy <|
    isFinite_of_packsTo rfl ((unpacks_of_isFinite hx).packsTo_add (unpacks_of_isFinite hy)) hz hle

theorem isFinite_of_add (h : (x + y).isFinite = true) : y.isFinite = true := by
  have hsum : (UnpackedFloat.add .binary64 x.toModel.unpack y.toModel.unpack).isFinite = true :=
    isFinite_of_pack rfl h
  show y.toModel.unpack.isFinite = true
  generalize x.toModel.unpack = u at hsum
  generalize y.toModel.unpack = v at hsum
  cases v with
  | zero | finite => rfl
  | notANumber => cases u <;> cases hsum
  | infinity sign' =>
      cases u with
      | notANumber | zero | finite => cases hsum
      | infinity sign =>
          change (if sign == sign' then UnpackedFloat.infinity sign else .notANumber).isFinite =
            true at hsum
          split_ifs at hsum <;> cases hsum

/-! ## Differences -/

theorem apply_neg (sign : Sign) (n : Int) : (-sign).apply n = -sign.apply n := by
  cases sign
  · exact (Int.neg_neg n).symm
  · rfl

theorem sub_unpacked_eq (hy : Unpacks y v) :
    UnpackedFloat.sub .binary64 u v = UnpackedFloat.add .binary64 u v.neg := by
  cases v with
  | notANumber | infinity => cases hy
  | zero sign' =>
      cases u with
      | notANumber | infinity | zero | finite => rfl
  | finite sign' mantissa' e' hpos' =>
      cases u with
      | notANumber | infinity | zero => rfl
      | finite sign mantissa e hpos =>
          show UnpackedFloat.normalize .binary64 (sign.apply _ - sign'.apply _) _ _ =
            UnpackedFloat.normalize .binary64 (sign.apply _ + (-sign').apply _) _ _
          rw [apply_neg, Int.sub_eq_add_neg]

theorem Unpacks.neg (h : Unpacks y v) (hy : y.isFinite = true) : Unpacks (-y) v.neg := by
  have hopposite : ∀ {sign : Sign}, isNegative y = (sign == .negative) →
      isNegative (-y) = (-sign == .negative) := by
    intro sign hsign
    rw [isNegative_neg hy, hsign]
    cases sign <;> rfl
  cases h with
  | zero sign hsign hzero =>
      exact .zero (-sign) (hopposite hsign) ((magnitude_neg hy).trans hzero)
  | finite sign mantissa count hpos hsign hlower hupper hmagnitude =>
      exact .finite (-sign) mantissa count hpos (hopposite hsign) hlower hupper
        ((magnitude_neg hy).trans hmagnitude)

theorem toRat_neg (hx : x.isFinite = true) : toRat (-x) = -toRat x := by
  rw [toRat, toRat, signFactor, signFactor, isNegative_neg hx, units, units, magnitude_neg hx]
  cases isNegative x <;> simp

/-- A difference of doubles is the exact difference, rounded. -/
theorem roundsTo_sub
    (hx : x.isFinite = true) (hy : y.isFinite = true) (h : (x - y).isFinite = true) :
    RoundsTo (toRat x - toRat y) (x - y) := by
  refine roundsTo_of_packsTo rfl h ?_
  have hv := unpacks_of_isFinite hy
  rw [sub_unpacked_eq hv, sub_eq_add_neg, ← toRat_neg hy]
  exact (unpacks_of_isFinite hx).packsTo_add (hv.neg hy)

/-! ## Products -/

theorem factor_mul (sign sign' : Sign) : factor (sign * sign') = factor sign * factor sign' := by
  cases sign <;> cases sign' <;> norm_num [factor, Sign.apply]

theorem cast_one_eq : (one : ℚ) = 2 ^ (1074 : ℤ) := by
  have hshift : ∀ count : ℕ, ((1 <<< count : ℕ) : ℚ) = 2 ^ (count : ℤ) := by
    intro count
    rw [Nat.one_shiftLeft, zpow_natCast]
    push_cast
    rfl
  exact hshift 1074

/-- Products of mantissas have no more than the exponent that rounding gives them. -/
theorem exponent_mul_le
    {mantissa mantissa' count count' : Nat} (hpos : 0 < mantissa) (hpos' : 0 < mantissa')
    (hlower : count = 0 ∨ binade ≤ mantissa) (hlower' : count' = 0 ∨ binade ≤ mantissa') :
    (count - 1074 : Int) + (count' - 1074) ≤ Format.targetExponent .binary64
      (totalExponent (mantissa * mantissa') ((count - 1074 : Int) + (count' - 1074))) := by
  rw [targetExponent_eq]
  rcases Nat.lt_or_ge (mantissa * mantissa') binade with hlt | hle
  · have hsmall : mantissa < binade :=
      Nat.lt_of_le_of_lt (Nat.le_mul_of_pos_right mantissa hpos') hlt
    have hsmall' : mantissa' < binade :=
      Nat.lt_of_le_of_lt (Nat.le_mul_of_pos_left mantissa' hpos) hlt
    omega
  · have hlog : 52 ≤ (mantissa * mantissa').log2 :=
      (Nat.le_log2 (Nat.mul_pos hpos hpos').ne').mpr hle
    omega

theorem toRat_mul_toRat_mul_one (x y : Float) :
    toRat x * toRat y * one = toRat x * one * (toRat y * one) / 2 ^ (1074 : ℤ) := by
  have hone : (one : ℚ) ≠ 0 := Nat.cast_ne_zero.mpr one_pos.ne'
  rw [← cast_one_eq]
  field_simp

theorem Unpacks.packsTo_mul (hx : Unpacks x u) (hy : Unpacks y v) :
    PacksTo (UnpackedFloat.mul .binary64 u v) (toRat x * toRat y * one) := by
  rw [toRat_mul_toRat_mul_one]
  cases u with
  | notANumber | infinity => cases hx
  | zero sign =>
      rw [hx.toRat_zero, zero_mul, zero_div]
      cases v with
      | notANumber | infinity => cases hy
      | zero | finite => exact packsTo_zero _
  | finite sign mantissa e hpos =>
      cases v with
      | notANumber | infinity => cases hy
      | zero sign' =>
          rw [hy.toRat_zero, mul_zero, zero_div]
          exact packsTo_zero _
      | finite sign' mantissa' e' hpos' =>
          have he : e + e' ≤ Format.targetExponent .binary64
              (totalExponent (mantissa * mantissa') (e + e')) := by
            cases hx
            cases hy
            exact exponent_mul_le hpos hpos' ‹_› ‹_›
          have hvalue : toRat x * one * (toRat y * one) / 2 ^ (1074 : ℤ) =
              factor (sign * sign') * ((mantissa * mantissa' : Nat) * 2 ^ (e + e' + 1074)) := by
            have hsum : e + e' + 1074 = e + 1074 + (e' + 1074) - 1074 := by ring
            rw [hx.toRat_finite, hy.toRat_finite, factor_mul, hsum, zpow_sub₀ two_ne_zero,
              zpow_add₀ two_ne_zero (e + 1074)]
            generalize (2 : ℚ) ^ (1074 : ℤ) = scale
            push_cast
            ring
          rw [hvalue]
          exact (packs_roundWithAccuracy_exact he).packsTo (by positivity)

/-- A product of doubles is the exact product, rounded. -/
theorem roundsTo_mul
    (hx : x.isFinite = true) (hy : y.isFinite = true) (h : (x * y).isFinite = true) :
    RoundsTo (toRat x * toRat y) (x * y) :=
  roundsTo_of_packsTo rfl h ((unpacks_of_isFinite hx).packsTo_mul (unpacks_of_isFinite hy))

theorem roundsTo_mul_of_le
    {r' : ℚ} {z : Float} (hx : x.isFinite = true) (hy : y.isFinite = true) (hz : RoundsTo r' z)
    (hle : |toRat x * toRat y| ≤ |r'|) : RoundsTo (toRat x * toRat y) (x * y) :=
  roundsTo_mul hx hy <|
    isFinite_of_packsTo rfl ((unpacks_of_isFinite hx).packsTo_mul (unpacks_of_isFinite hy)) hz hle

theorem isFinite_of_mul (h : (x * y).isFinite = true) : x.isFinite = true := by
  have hproduct : (UnpackedFloat.mul .binary64 x.toModel.unpack y.toModel.unpack).isFinite = true :=
    isFinite_of_pack rfl h
  show x.toModel.unpack.isFinite = true
  generalize x.toModel.unpack = u at hproduct
  generalize y.toModel.unpack = v at hproduct
  cases u with
  | zero | finite => rfl
  | notANumber | infinity => cases v <;> cases hproduct

/-! ## Quotients -/

theorem factor_div (sign sign' : Sign) : factor (sign / sign') = factor sign / factor sign' := by
  have hdiv : sign / sign' = sign * sign' := by
    cases sign <;> cases sign' <;> rfl
  have hinv : (factor sign')⁻¹ = factor sign' := inv_eq_of_mul_eq_one_left (factor_mul_self sign')
  rw [hdiv, factor_mul, div_eq_mul_inv, hinv]

theorem log2_div_ge {n k : Nat} (hn : 0 < n) (hk : 0 < k) (bits : Nat)
    (h : k.log2 + 1 + bits ≤ n.log2) : bits ≤ (n / k).log2 := by
  have hle : 2 ^ bits ≤ n / k := by
    rw [Nat.le_div_iff_mul_le hk]
    calc
      2 ^ bits * k ≤ 2 ^ bits * 2 ^ (k.log2 + 1) := Nat.mul_le_mul_left _ Nat.lt_log2_self.le
      _ = 2 ^ (k.log2 + 1 + bits) := by rw [← Nat.pow_add, Nat.add_comm]
      _ ≤ 2 ^ n.log2 := Nat.pow_le_pow_right (by decide) h
      _ ≤ n := Nat.log2_self_le hn.ne'
  have hpos : 0 < n / k := Nat.lt_of_lt_of_le (Nat.two_pow_pos bits) hle
  exact (Nat.le_log2 hpos.ne').mpr hle

/-- A quotient is computed with all bits that rounding needs. -/
theorem packs_divCore
    {mantissa mantissa' : Nat} (hpos : 0 < mantissa) (hpos' : 0 < mantissa') (e e' : Int) :
    Packs
      (let quotient := divCore .binary64 mantissa e mantissa' e'
      roundWithAccuracy .binary64 sign quotient.1 quotient.2.1 quotient.2.2)
      sign (mantissa * 2 ^ (e - e' + 1074) / mantissa') := by
  obtain ⟨target, htarget⟩ : ∃ target, min (e - e') (Format.targetExponent .binary64
      (totalExponent mantissa e - totalExponent mantissa' e')) = target := ⟨_, rfl⟩
  obtain ⟨shift, hshift⟩ : ∃ shift : Nat, e - e' - target = shift :=
    ⟨(e - e' - target).toNat, by omega⟩
  have hcore : divCore .binary64 mantissa e mantissa' e' =
      ((mantissa <<< shift) / mantissa', target,
        accuracyOfFraction ((mantissa <<< shift) % mantissa') mantissa') := by
    rw [divCore, htarget, hshift, Int.toNat_natCast]
  rw [hcore]
  apply packs_roundWithAccuracy hpos'
  · rw [targetExponent_eq]
    have hlog := log2_shiftLeft hpos shift
    have hbits : mantissa'.log2 + 1 + 52 ≤ (mantissa <<< shift).log2 →
        52 ≤ (mantissa <<< shift / mantissa').log2 :=
      log2_div_ge (by rw [Nat.shiftLeft_eq]; positivity) hpos' 52
    have hexponent : Format.targetExponent .binary64
        (totalExponent mantissa e - totalExponent mantissa' e') =
          max ((mantissa.log2 : Int) + e - mantissa'.log2 - e' - 53) (-1074) := by
      have hwidth : (Format.mantissaBits .binary64 : Int) = 53 := rfl
      have hmin : Format.minExponent .binary64 = -1074 := rfl
      rw [Format.targetExponent, totalExponent, totalExponent, hwidth, hmin]
      omega
    rw [hexponent] at htarget
    show target ≤ max (((mantissa <<< shift / mantissa').log2 : Int) + target - 52) (-1074)
    omega
  · have hsum : e - e' + 1074 = shift + (target + 1074) := by omega
    rw [Nat.shiftLeft_eq, hsum, zpow_add₀ two_ne_zero shift (target + 1074), zpow_natCast]
    push_cast
    ring

theorem Unpacks.packsTo_div (hx : Unpacks x u) (hy : Unpacks y v) (hne : toRat y ≠ 0) :
    PacksTo (UnpackedFloat.div .binary64 u v) (toRat x / toRat y * one) := by
  have hone : (one : ℚ) ≠ 0 := Nat.cast_ne_zero.mpr one_pos.ne'
  have hscale : toRat x / toRat y * one = toRat x * one / (toRat y * one) * 2 ^ (1074 : ℤ) := by
    rw [← cast_one_eq, mul_div_mul_right _ _ hone]
  rw [hscale]
  cases v with
  | notANumber | infinity => cases hy
  | zero sign' => exact absurd hy.toRat_zero (mul_ne_zero hne hone)
  | finite sign' mantissa' e' hpos' =>
      cases u with
      | notANumber | infinity => cases hx
      | zero sign =>
          rw [hx.toRat_zero, zero_div, zero_mul]
          exact packsTo_zero _
      | finite sign mantissa e hpos =>
          have hvalue : toRat x * one / (toRat y * one) * 2 ^ (1074 : ℤ) =
              factor (sign / sign') * (mantissa * 2 ^ (e - e' + 1074) / mantissa') := by
            have hsum : e - e' + 1074 = e + 1074 - (e' + 1074) + 1074 := by ring
            rw [hx.toRat_finite, hy.toRat_finite, factor_div, hsum,
              zpow_add₀ two_ne_zero (e + 1074 - (e' + 1074)), zpow_sub₀ two_ne_zero (e + 1074)]
            have hpower : (2 : ℚ) ^ (e' + 1074) ≠ 0 := zpow_ne_zero _ two_ne_zero
            generalize (2 : ℚ) ^ (1074 : ℤ) = scale
            have hmantissa : (mantissa' : ℚ) ≠ 0 := Nat.cast_ne_zero.mpr hpos'.ne'
            field_simp
          rw [hvalue]
          exact (packs_divCore hpos hpos' e e').packsTo (by positivity)

/-- A quotient of doubles is the exact quotient, rounded. -/
theorem roundsTo_div
    (hx : x.isFinite = true) (hy : y.isFinite = true) (hne : toRat y ≠ 0)
    (h : (x / y).isFinite = true) : RoundsTo (toRat x / toRat y) (x / y) :=
  roundsTo_of_packsTo rfl h ((unpacks_of_isFinite hx).packsTo_div (unpacks_of_isFinite hy) hne)

theorem roundsTo_div_of_le
    {r' : ℚ} {z : Float} (hx : x.isFinite = true) (hy : y.isFinite = true) (hne : toRat y ≠ 0)
    (hz : RoundsTo r' z) (hle : |toRat x / toRat y| ≤ |r'|) :
    RoundsTo (toRat x / toRat y) (x / y) :=
  roundsTo_div hx hy hne <|
    isFinite_of_packsTo rfl ((unpacks_of_isFinite hx).packsTo_div (unpacks_of_isFinite hy) hne) hz
      hle

theorem isFinite_of_div (h : (x / y).isFinite = true) : x.isFinite = true := by
  have hquotient :
      (UnpackedFloat.div .binary64 x.toModel.unpack y.toModel.unpack).isFinite = true :=
    isFinite_of_pack rfl h
  show x.toModel.unpack.isFinite = true
  generalize x.toModel.unpack = u at hquotient
  generalize y.toModel.unpack = v at hquotient
  cases u with
  | zero | finite => rfl
  | notANumber | infinity => cases v <;> cases hquotient

/-! ## Natural numbers -/

/-- A natural number with few significant bits is a double, if it is not too large. -/
theorem exists_unitsAt_eq {n k : ℕ} (hn : n < 2 * binade) (hk : k ≤ 900) :
    ∃ m, unitsAt m = n * 2 ^ k * one ∧ m < infinite := by
  rcases Nat.eq_zero_or_pos n with rfl | hpos
  · exact ⟨0, by rw [unitsAt_zero, Nat.zero_mul, Nat.zero_mul], by decide⟩
  · obtain ⟨bits, hbits⟩ : ∃ bits, n.log2 + bits = 52 := by
      have hlog : n.log2 < 53 := (Nat.log2_lt hpos.ne').mpr hn
      exact ⟨52 - n.log2, by omega⟩
    have hbinade : 2 ^ n.log2 * 2 ^ bits = binade := by
      rw [← Nat.pow_add, hbits]
      rfl
    have hlower : binade ≤ n * 2 ^ bits := by
      rw [← hbinade]
      exact Nat.mul_le_mul_right _ (Nat.log2_self_le hpos.ne')
    have hupper : n * 2 ^ bits ≤ 2 * binade := by
      rw [← hbinade, ← Nat.mul_assoc, ← Nat.pow_succ']
      exact Nat.mul_le_mul_right _ Nat.lt_log2_self.le
    have hone : 2 ^ bits * 2 ^ (n.log2 + 1022) = one := by
      have hshift : ∀ count, bits + (n.log2 + 1022) = count →
          2 ^ bits * 2 ^ (n.log2 + 1022) = 1 <<< count := by
        rintro count rfl
        rw [Nat.one_shiftLeft, ← Nat.pow_add]
      exact hshift 1074 (by omega)
    refine ⟨(n.log2 + 1022 + k) * binade + n * 2 ^ bits, ?_, ?_⟩
    · rw [unitsAt_doublings (.inr hlower) hupper, Nat.pow_add, ← hone]
      generalize 2 ^ (n.log2 + 1022) = scale
      ring
    · calc
        (n.log2 + 1022 + k) * binade + n * 2 ^ bits ≤ (52 + 1022 + 900) * binade + 2 * binade :=
          Nat.add_le_add (Nat.mul_le_mul_right _ (by omega)) hupper
        _ < infinite := by decide

theorem magnitude_ofNat {n m : ℕ} (hm : unitsAt m = n * one) (hlt : m < infinite) :
    magnitude (ofNat n) = m := by
  obtain ⟨m', hm', hnearest⟩ := exists_isNearest n Nat.one_pos
  have hmono := strictMono_unitsAt Nat.one_pos
  obtain rfl : m = m' :=
    (IsNearest.of_eq hmono (by rw [Nat.mul_one, hm])).unique hmono hm'
  rw [ofNat, nearest, hnearest, Nat.min_eq_left hlt.le, magnitude_ofMagnitude hlt.le]

/-- The double is a natural number. -/
structure IsNatural (x : Float) (n : ℕ) : Prop where
  finite : x.isFinite = true
  toRat_eq : toRat x = n

/-- Natural numbers with few significant bits are doubles. -/
theorem isNatural_ofNat_mul_two_pow {n k : ℕ} (hn : n < 2 * binade) (hk : k ≤ 900) :
    IsNatural (ofNat (n * 2 ^ k)) (n * 2 ^ k) := by
  obtain ⟨m, hm, hlt⟩ := exists_unitsAt_eq hn hk
  have hmagnitude := magnitude_ofNat hm hlt
  have hone : (one : ℚ) ≠ 0 := Nat.cast_ne_zero.mpr one_pos.ne'
  have hsign : isNegative (ofNat (n * 2 ^ k)) = false :=
    isNegative_ofMagnitude (Nat.min_le_right _ _)
  constructor
  · rwa [isFinite_iff_magnitude_lt, hmagnitude]
  · rw [toRat, signFactor, hsign, if_neg Bool.false_ne_true, units, hmagnitude, hm, one_mul,
      Nat.cast_mul, mul_div_cancel_right₀ _ hone]

/-- Natural numbers up to a limit are doubles. -/
theorem isNatural_ofNat {n : ℕ} (hn : n < 2 * binade) : IsNatural (ofNat n) n := by
  have h := isNatural_ofNat_mul_two_pow hn (Nat.zero_le 900)
  rwa [Nat.pow_zero, Nat.mul_one] at h

theorem isFinite_ofNat {n : ℕ} (hn : n < 2 * binade) : (ofNat n).isFinite = true :=
  (isNatural_ofNat hn).finite

theorem toRat_ofNat {n : ℕ} (hn : n < 2 * binade) : toRat (ofNat n) = n :=
  (isNatural_ofNat hn).toRat_eq

end Calculator.Binary64
