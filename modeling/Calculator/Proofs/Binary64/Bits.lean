import Calculator.Binary64.Basic
import Mathlib.Algebra.Group.Nat.Defs
import Mathlib.Data.Nat.Basic
import Mathlib.Order.Basic
import Mathlib.Tactic.SplitIfs

/-!
# Sign and magnitude of a double

A double is its sign and its magnitude (`eq_of_magnitude_eq`), and it is finite exactly below the
magnitude of infinity.  Negation changes the sign of a finite double and nothing else
(`HasParts.neg`).  All this is read off the three parts that the bits of a double are packed of: to
unpack them gives a mantissa and an exponent (`unpack_parts`), and to pack these gives the three
parts again (`pack_unpack_parts`).
-/

namespace Calculator.Binary64

open Float.Model Float.Model.UnpackedFloat

variable {x y : Float} {sign : Sign} {exponent : BitVec 11} {mantissa : BitVec 52}

/-! ## Parts -/

theorem toNat_packComponents
    (sign : Sign) (exponent : BitVec 11) (mantissa : BitVec 52) :
    (packComponents .binary64 sign exponent mantissa).toNat =
      sign.toBitVec.toNat * signBit + (exponent.toNat * binade + mantissa.toNat) := by
  have hexponent := exponent.isLt
  have hmantissa := mantissa.isLt
  rw [packComponents, BitVec.toNat_append, BitVec.toNat_append,
    ← Nat.shiftLeft_add_eq_or_of_lt hexponent, ← Nat.shiftLeft_add_eq_or_of_lt hmantissa,
    Nat.shiftLeft_eq, Nat.shiftLeft_eq]
  simp only [signBit, binade]
  omega

theorem parts_lt_signBit (exponent : BitVec 11) (mantissa : BitVec 52) :
    exponent.toNat * binade + mantissa.toNat < signBit := by
  have hexponent := exponent.isLt
  have hmantissa := mantissa.isLt
  simp only [signBit, binade]
  omega

/-- The bits below the sign determine the exponent and the mantissa. -/
theorem parts_inj {exponent' : BitVec 11} {mantissa' : BitVec 52}
    (h : exponent.toNat * binade + mantissa.toNat = exponent'.toNat * binade + mantissa'.toNat) :
    exponent = exponent' ∧ mantissa = mantissa' := by
  have hmantissa := mantissa.isLt
  have hmantissa' := mantissa'.isLt
  simp only [binade] at h
  exact ⟨BitVec.eq_of_toNat_eq (by omega), BitVec.eq_of_toNat_eq (by omega)⟩

theorem exists_packComponents_eq (bits : BitVec 64) :
    ∃ sign exponent mantissa, bits = packComponents .binary64 sign exponent mantissa := by
  have hbits := bits.isLt
  obtain ⟨sign, hsign⟩ : ∃ sign : Sign, sign.toBitVec.toNat = bits.toNat / signBit := by
    by_cases hlt : bits.toNat < signBit
    · exact ⟨.positive, (Nat.div_eq_of_lt hlt).symm⟩
    · refine ⟨.negative, ?_⟩
      rw [Sign.toBitVec, BitVec.toNat_ofNat]
      simp only [signBit] at hlt ⊢
      omega
  refine ⟨sign, .ofNat 11 (bits.toNat / binade), .ofNat 52 bits.toNat, BitVec.eq_of_toNat_eq ?_⟩
  rw [toNat_packComponents, hsign, BitVec.toNat_ofNat, BitVec.toNat_ofNat]
  simp only [signBit, binade]
  omega

theorem ofBitVec_unpackSign (sign : Sign) (exponent : BitVec 11) (mantissa : BitVec 52) :
    Sign.ofBitVec (unpackSign (packComponents .binary64 sign exponent mantissa)) = sign := by
  have hlt := parts_lt_signBit exponent mantissa
  have hunpack :
      unpackSign (packComponents .binary64 sign exponent mantissa) = sign.toBitVec := by
    apply BitVec.eq_of_toNat_eq
    unfold unpackSign
    rw [BitVec.toNat_cast, BitVec.extractLsb_toNat, toNat_packComponents,
      Nat.shiftRight_eq_div_pow]
    have hsign := sign.toBitVec.isLt
    have hquotient : (sign.toBitVec.toNat * signBit +
        (exponent.toNat * binade + mantissa.toNat)) / signBit = sign.toBitVec.toNat := by
      rw [Nat.mul_comm, Nat.mul_add_div (by decide), Nat.div_eq_of_lt hlt, Nat.add_zero]
    exact (congrArg (· % 2) hquotient).trans (Nat.mod_eq_of_lt hsign)
  rw [hunpack]
  cases sign <;> rfl

/-! ## Unpacking -/

/-- A sign with a mantissa that may be zero. -/
def unpacked (sign : Sign) (mantissa : Nat) (e : Int) : UnpackedFloat :=
  if h : mantissa = 0 then .zero sign else .finite sign mantissa e (Nat.pos_of_ne_zero h)

theorem unpacked_eq_finite {q : Nat} (hpos : 0 < q) (sign : Sign) (e : Int) :
    unpacked sign q e = .finite sign q e hpos :=
  dif_neg hpos.ne'

/-- A mantissa with its first bit, which is not among the bits of a double. -/
def fullMantissa (exponent : BitVec 11) (mantissa : BitVec 52) : Nat :=
  if exponent = 0#11 then mantissa.toNat else binade + mantissa.toNat

theorem fullMantissa_bounds (exponent : BitVec 11) (mantissa : BitVec 52) :
    (exponent.toNat - 1 = 0 ∨ binade ≤ fullMantissa exponent mantissa) ∧
      fullMantissa exponent mantissa < 2 * binade ∧
      (exponent.toNat - 1) * binade + fullMantissa exponent mantissa =
        exponent.toNat * binade + mantissa.toNat := by
  have hmantissa := mantissa.isLt
  unfold fullMantissa
  split
  · rename_i hzero
    rw [hzero]
    simp only [binade]
    exact ⟨.inl rfl, by omega, rfl⟩
  · rename_i hne
    have hexponent : exponent.toNat ≠ 0 := fun h => hne (BitVec.eq_of_toNat_eq h)
    obtain ⟨count, hcount⟩ := Nat.exists_eq_succ_of_ne_zero hexponent
    refine ⟨.inr (Nat.le_add_right _ _), ?_, ?_⟩
    · simp only [binade]
      omega
    · rw [hcount, Nat.succ_sub_one, Nat.succ_mul, Nat.add_assoc]

theorem unpack_eq_unpacked
    (bits : BitVec (Format.numBits .binary64)) (hexponent : unpackExponent bits ≠ -1#11) :
    UnpackedFloat.unpack .binary64 bits =
      unpacked (Sign.ofBitVec (unpackSign bits))
        (fullMantissa (unpackExponent bits) (unpackMantissa bits))
        (((unpackExponent bits).toNat - 1 : Nat) - 1074) := by
  have hbias : ((Format.exponentBias .binary64 : Int) +
      (Format.mantissaBitsWithoutImplicit .binary64 : Int)) = 1075 := rfl
  unfold UnpackedFloat.unpack fullMantissa
  rw [if_neg hexponent]
  by_cases hzero : unpackExponent bits = 0#11
  · rw [if_pos hzero, if_pos hzero]
    by_cases hnone : unpackMantissa bits = 0#52
    · rw [dif_pos hnone, hnone]
      rfl
    · have hpos : 0 < (unpackMantissa bits).toNat := BitVec.toNat_pos_of_ne_zero hnone
      rw [dif_neg hnone, unpacked_eq_finite hpos, UnpackedFloat.finite.injEq, hbias, hzero]
      exact ⟨rfl, rfl, rfl⟩
  · rw [if_neg hzero, if_neg hzero]
    have hne : (unpackExponent bits).toNat ≠ 0 := fun h => hzero (BitVec.eq_of_toNat_eq h)
    have hpos : 0 < binade + (unpackMantissa bits).toNat := Nat.add_pos_left (by decide) _
    have hmantissa : (1#1 ++ unpackMantissa bits).toNat = binade + (unpackMantissa bits).toNat := by
      rw [BitVec.toNat_append, ← Nat.shiftLeft_add_eq_or_of_lt (unpackMantissa bits).isLt]
      rfl
    rw [unpacked_eq_finite hpos, UnpackedFloat.finite.injEq, hbias]
    exact ⟨rfl, hmantissa, by omega⟩

/-- Unpacked, the parts of a finite double are a mantissa and an exponent. -/
theorem unpack_parts (sign : Sign) (mantissa : BitVec 52) (hexponent : exponent ≠ -1#11) :
    UnpackedFloat.unpack .binary64 (packComponents .binary64 sign exponent mantissa) =
      unpacked sign (fullMantissa exponent mantissa) ((exponent.toNat - 1 : Nat) - 1074) := by
  rw [unpack_eq_unpacked _ (unpackExponent_packComponents.trans_ne hexponent),
    unpackExponent_packComponents, unpackMantissa_packComponents, ofBitVec_unpackSign]

/-! ## Packing -/

variable {q count : Nat}

/-- Without its first bit a full mantissa is what is left of it. -/
theorem mod_two_pow_add_binade (hpos : 0 < q) (hupper : q < 2 * binade) (hlog : q.log2 = 52) :
    q % 2 ^ 52 + binade = q := by
  have hlower : 2 ^ q.log2 ≤ q := Nat.log2_self_le hpos.ne'
  rw [hlog] at hlower
  simp only [binade] at hupper ⊢
  omega

theorem lt_binade_of_log2_ne (hpos : 0 < q) (hupper : q < 2 * binade) (hlog : q.log2 ≠ 52) :
    q < binade := by
  have hlog_le : q.log2 ≤ 52 := Nat.le_of_lt_succ ((Nat.log2_lt hpos.ne').mpr hupper)
  exact (Nat.log2_lt hpos.ne').mp (Nat.lt_of_le_of_ne hlog_le hlog)

/-- The bits of a mantissa between two powers of two. -/
theorem exists_pack_finite
    (sign : Sign) (hpos : 0 < q) (hlower : count = 0 ∨ binade ≤ q) (hupper : q < 2 * binade) :
    ∃ (exponent : BitVec 11) (mantissa : BitVec 52),
      UnpackedFloat.pack .binary64 (.finite sign q (count - 1074) hpos) =
        packComponents .binary64 sign exponent mantissa ∧
      exponent.toNat * binade + mantissa.toNat = min (count * binade + q) infinite := by
  have hpack : UnpackedFloat.pack .binary64 (.finite sign q (count - 1074) hpos) =
      if 2048 ≤ ((count : Int) - 1074 + 1023 + 52).toNat + 1 then packedInfinity .binary64 sign
      else if q.log2 + 1 = 53 then
        packComponents .binary64 sign (.ofNat 11 ((count : Int) - 1074 + 1023 + 52).toNat)
          (.ofNat 52 q)
      else packComponents .binary64 sign 0#11 (.ofNat 52 q) := rfl
  have hbiased : ((count : Int) - 1074 + 1023 + 52).toNat = count + 1 := by omega
  rw [hpack, hbiased]
  have hinfinite : infinite = 2047 * binade := rfl
  split_ifs with hlarge hnormal
  · refine ⟨-1#11, 0#52, rfl, ?_⟩
    have hones : (-1#11).toNat = 2047 := rfl
    have hzero : (0#52).toNat = 0 := rfl
    rw [hones, hzero, hinfinite, min_eq_right]
    · rfl
    · have hq : binade ≤ q := hlower.resolve_left (by omega)
      calc
        2047 * binade = 2046 * binade + binade := by rw [Nat.succ_mul]
        _ ≤ count * binade + q := Nat.add_le_add (Nat.mul_le_mul_right _ (by omega)) hq
  · refine ⟨BitVec.ofNat 11 (count + 1), BitVec.ofNat 52 q, rfl, ?_⟩
    have hq := mod_two_pow_add_binade hpos hupper (by omega)
    have hexponent : (count + 1) % 2 ^ 11 = count + 1 := Nat.mod_eq_of_lt (by omega)
    rw [BitVec.toNat_ofNat, BitVec.toNat_ofNat, hinfinite, hexponent, Nat.succ_mul, Nat.add_assoc,
      Nat.add_comm binade, hq, min_eq_left]
    calc
      count * binade + q ≤ count * binade + 2 * binade := Nat.add_le_add_left hupper.le _
      _ = (count + 2) * binade := (Nat.add_mul _ _ _).symm
      _ ≤ 2047 * binade := Nat.mul_le_mul_right _ (by omega)
  · refine ⟨0#11, BitVec.ofNat 52 q, rfl, ?_⟩
    have hq := lt_binade_of_log2_ne hpos hupper (by omega)
    obtain rfl : count = 0 := hlower.resolve_right (Nat.not_le_of_lt hq)
    have hmantissa : (BitVec.ofNat 52 q).toNat = q := Nat.mod_eq_of_lt hq
    have hzero : (0#11).toNat = 0 := rfl
    rw [hmantissa, hzero, Nat.zero_mul, Nat.zero_add, min_eq_left]
    exact hq.le.trans (by decide)

theorem exists_pack_unpacked
    (sign : Sign) (hlower : count = 0 ∨ binade ≤ q) (hupper : q < 2 * binade) :
    ∃ (exponent : BitVec 11) (mantissa : BitVec 52),
      UnpackedFloat.pack .binary64 (unpacked sign q (count - 1074)) =
        packComponents .binary64 sign exponent mantissa ∧
      exponent.toNat * binade + mantissa.toNat = min (count * binade + q) infinite := by
  rcases Nat.eq_zero_or_pos q with rfl | hpos
  · obtain rfl : count = 0 := hlower.resolve_right (by decide)
    exact ⟨0#11, 0#52, rfl, by decide⟩
  · rw [unpacked, dif_neg hpos.ne']
    exact exists_pack_finite sign hpos hlower hupper

/-- To pack what the parts of a finite double were unpacked to gives the parts again. -/
theorem pack_unpack_parts
    (sign : Sign) (mantissa : BitVec 52) (hexponent : exponent ≠ -1#11) :
    UnpackedFloat.pack .binary64
        (UnpackedFloat.unpack .binary64 (packComponents .binary64 sign exponent mantissa)) =
      packComponents .binary64 sign exponent mantissa := by
  obtain ⟨hlower, hupper, hparts⟩ := fullMantissa_bounds exponent mantissa
  obtain ⟨exponent', mantissa', hpack, hparts'⟩ := exists_pack_unpacked sign hlower hupper
  have hle : exponent.toNat * binade + mantissa.toNat ≤ infinite := by
    have hlt := exponent.isLt
    have hlt' := mantissa.isLt
    have hne : exponent.toNat ≠ 2047 := fun h => hexponent (BitVec.eq_of_toNat_eq h)
    simp only [infinite, binade]
    omega
  rw [hparts, min_eq_left hle] at hparts'
  obtain ⟨rfl, rfl⟩ := parts_inj hparts'
  rw [unpack_parts sign _ hexponent, hpack]

/-! ## The parts of a double -/

/-- The bits of a double are a sign, an exponent and a mantissa. -/
def HasParts (x : Float) (sign : Sign) (exponent : BitVec 11) (mantissa : BitVec 52) : Prop :=
  x.toBits.toBitVec = packComponents .binary64 sign exponent mantissa

theorem exists_hasParts (x : Float) :
    ∃ sign exponent mantissa, HasParts x sign exponent mantissa :=
  exists_packComponents_eq x.toBits.toBitVec

namespace HasParts

variable (h : HasParts x sign exponent mantissa)

include h

theorem toNat_toBits :
    x.toBits.toNat =
      sign.toBitVec.toNat * signBit + (exponent.toNat * binade + mantissa.toNat) := by
  rw [← toNat_packComponents, ← h]
  rfl

theorem magnitude_eq : magnitude x = exponent.toNat * binade + mantissa.toNat := by
  rw [magnitude, h.toNat_toBits, Nat.mul_add_mod_self_right,
    Nat.mod_eq_of_lt (parts_lt_signBit exponent mantissa)]

theorem isNegative_eq : isNegative x = (sign == .negative) := by
  have hlt := parts_lt_signBit exponent mantissa
  have hbits := h.toNat_toBits
  cases sign with
  | negative =>
      have hle : signBit ≤ x.toBits.toNat := by
        rw [hbits, Sign.toBitVec, BitVec.toNat_ofNat]
        omega
      rw [isNegative, decide_eq_true hle]
      rfl
  | positive =>
      have hle : ¬signBit ≤ x.toBits.toNat := by
        rw [hbits, Sign.toBitVec, BitVec.toNat_ofNat]
        omega
      rw [isNegative, decide_eq_false hle]
      rfl

theorem isFinite_iff : x.isFinite = true ↔ exponent ≠ -1#11 := by
  have hx : x.isFinite = (UnpackedFloat.unpack .binary64 x.toBits.toBitVec).isFinite := rfl
  rw [hx, h]
  by_cases hexponent : exponent = -1#11
  · refine iff_of_false ?_ fun hne => hne hexponent
    unfold UnpackedFloat.unpack
    rw [if_pos (unpackExponent_packComponents.trans hexponent)]
    split <;> exact Bool.false_ne_true
  · refine iff_of_true ?_ hexponent
    rw [unpack_parts sign mantissa hexponent]
    rcases Nat.eq_zero_or_pos (fullMantissa exponent mantissa) with hzero | hpos
    · rw [hzero]
      rfl
    · rw [unpacked_eq_finite hpos]
      rfl

/-- Negation changes the sign of a finite double and keeps the other parts. -/
theorem neg (hfinite : x.isFinite = true) : HasParts (-x) (-sign) exponent mantissa := by
  have hexponent := h.isFinite_iff.mp hfinite
  have hunpacked : ∀ q e, (unpacked sign q e).neg = unpacked (-sign) q e := by
    intro q e
    rcases Nat.eq_zero_or_pos q with rfl | hpos
    · rfl
    · rw [unpacked_eq_finite hpos, unpacked_eq_finite hpos]
      rfl
  have hneg : (-x).toBits.toBitVec = UnpackedFloat.pack .binary64
      (UnpackedFloat.unpack .binary64 x.toBits.toBitVec).neg := rfl
  rw [HasParts, hneg, h, unpack_parts sign mantissa hexponent, hunpacked,
    ← unpack_parts (-sign) mantissa hexponent, pack_unpack_parts (-sign) mantissa hexponent]

end HasParts

/-! ## Sign and magnitude -/

theorem isFinite_iff_magnitude_lt : x.isFinite = true ↔ magnitude x < infinite := by
  obtain ⟨sign, exponent, mantissa, h⟩ := exists_hasParts x
  have hexponent := exponent.isLt
  have hmantissa := mantissa.isLt
  have hones : (-1#11).toNat = 2047 := rfl
  rw [h.isFinite_iff, h.magnitude_eq, ne_eq, ← BitVec.toNat_inj, hones]
  simp only [infinite, binade]
  omega

theorem magnitude_neg (hfinite : x.isFinite = true) : magnitude (-x) = magnitude x := by
  obtain ⟨sign, exponent, mantissa, h⟩ := exists_hasParts x
  rw [(h.neg hfinite).magnitude_eq, h.magnitude_eq]

theorem isNegative_neg (hfinite : x.isFinite = true) : isNegative (-x) = !isNegative x := by
  obtain ⟨sign, exponent, mantissa, h⟩ := exists_hasParts x
  rw [(h.neg hfinite).isNegative_eq, h.isNegative_eq]
  cases sign <;> rfl

theorem isFinite_neg (hfinite : x.isFinite = true) : (-x).isFinite = true := by
  rw [isFinite_iff_magnitude_lt, magnitude_neg hfinite]
  exact isFinite_iff_magnitude_lt.mp hfinite

theorem toNat_toBits_eq (x : Float) :
    x.toBits.toNat = (if isNegative x then signBit else 0) + magnitude x := by
  obtain ⟨sign, exponent, mantissa, h⟩ := exists_hasParts x
  rw [h.toNat_toBits, h.isNegative_eq, h.magnitude_eq]
  congr 1
  cases sign with
  | negative => exact Nat.one_mul signBit
  | positive => exact Nat.zero_mul signBit

theorem eq_of_toBits_eq (h : x.toBits = y.toBits) : x = y := by
  obtain ⟨⟨bits, hbits⟩⟩ := x
  obtain ⟨⟨bits', hbits'⟩⟩ := y
  obtain rfl : bits = bits' := h
  rfl

theorem eq_of_magnitude_eq
    (hsign : isNegative x = isNegative y) (hmagnitude : magnitude x = magnitude y) : x = y := by
  apply eq_of_toBits_eq
  rw [← UInt64.toNat_inj, toNat_toBits_eq x, toNat_toBits_eq y, hsign, hmagnitude]

/-! ## Doubles of given magnitude -/

theorem toNat_toBits_ofMagnitude {n : Nat} (h : n ≤ infinite) :
    (ofMagnitude n).toBits.toNat = n := by
  rcases Nat.lt_or_eq_of_le h with hlt | rfl
  · let bits : BitVec 64 := BitVec.ofNat 64 n
    have hvalue : bits.toNat = n := Nat.mod_eq_of_lt (Nat.lt_trans hlt (by decide))
    obtain ⟨sign, exponent, mantissa, hbits⟩ := exists_packComponents_eq bits
    have hparts := toNat_packComponents sign exponent mantissa
    rw [← hbits, hvalue] at hparts
    have hexponent : exponent ≠ -1#11 := by
      rintro rfl
      have hones : (-1#11).toNat = 2047 := rfl
      rw [hones] at hparts
      simp only [infinite, binade] at hlt hparts
      omega
    have hpack : (ofMagnitude n).toBits.toBitVec =
        UnpackedFloat.pack .binary64 (UnpackedFloat.unpack .binary64 bits) := rfl
    rw [hbits, pack_unpack_parts _ _ hexponent, ← hbits] at hpack
    exact (congrArg BitVec.toNat hpack).trans hvalue
  · decide +kernel

theorem magnitude_ofMagnitude {n : Nat} (h : n ≤ infinite) : magnitude (ofMagnitude n) = n := by
  rw [magnitude, toNat_toBits_ofMagnitude h]
  exact Nat.mod_eq_of_lt (Nat.lt_of_le_of_lt h (by decide))

theorem isNegative_ofMagnitude {n : Nat} (h : n ≤ infinite) :
    isNegative (ofMagnitude n) = false := by
  rw [isNegative, toNat_toBits_ofMagnitude h]
  exact decide_eq_false (Nat.not_le_of_lt (Nat.lt_of_le_of_lt h (by decide)))

end Calculator.Binary64
