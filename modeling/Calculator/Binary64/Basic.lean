import Calculator.Binary64.Rounding

/-!
# Doubles as exact numbers

A double is read through its bits. Below the sign the bits are a number, the magnitude, which
counts the non-negative doubles upwards from zero. Every finite double is a whole multiple of the
least positive one, and `units` is that multiple, so that all exact arithmetic on doubles is
arithmetic on natural numbers. In the other direction `nearest` rounds any fraction to the nearest
double.
-/

namespace Calculator.Binary64

/-- The place value of the sign in the bits of a double. -/
def signBit : Nat := 0x8000000000000000

/-- The number of doubles from a power of two up to the next one. -/
def binade : Nat := 0x10000000000000

/-- The magnitude of infinity, just above those of the finite doubles. -/
def infinite : Nat := 0x7FF * binade

/-- The number of units in one: the least positive double is one halved 1074 times. -/
def one : Nat := 1 <<< 1074

/-- The largest number up to which every natural number is a double of its own. -/
def maxSafe : Nat := 2 * binade - 1

def isNegative (x : Float) : Bool :=
  signBit ≤ x.toBits.toNat

/-- The bits below the sign: zero has magnitude zero, and the next double up has the next one. -/
def magnitude (x : Float) : Nat :=
  x.toBits.toNat % signBit

/-- How often the distance between neighbours has doubled on the way up from zero. -/
def doublings (magnitude : Nat) : Nat :=
  magnitude / binade - 1

/-- The finite double of a given magnitude in units. -/
def unitsAt (magnitude : Nat) : Nat :=
  (magnitude - doublings magnitude * binade) <<< doublings magnitude

/-- The absolute value of a finite double in units. -/
def units (x : Float) : Nat :=
  unitsAt (magnitude x)

def ofMagnitude (magnitude : Nat) : Float :=
  Float.ofBits (UInt64.ofNat magnitude)

def infinity : Float :=
  ofMagnitude infinite

def nan : Float :=
  ofMagnitude (infinite + binade / 2)

/-- The magnitude nearest to `num / den`; a fraction half-way goes to the even magnitude, and one
too large for a double to infinity. -/
def nearestMagnitude (num den : Nat) : Nat :=
  let doublings := (num * one / den).log2 - 52
  min (doublings * binade + divNearest (num * one) (den <<< doublings)) infinite

/-- The double nearest to `num / den`. -/
def nearest (num den : Nat) : Float :=
  ofMagnitude (nearestMagnitude num den)

/-- The double nearest to a natural number. -/
def ofNat (n : Nat) : Float :=
  nearest n 1

/-- The natural number that a double is, unless it is not one or exceeds `maxSafe`. -/
def toNat? (x : Float) : Option Nat :=
  let whole := units x / one
  if magnitude x < infinite ∧ units x % one = 0 ∧ (isNegative x → units x = 0) ∧ whole ≤ maxSafe
  then some whole
  else none

theorem one_pos : 0 < one := by
  decide +kernel

theorem two_pow_mul_one (n : Nat) : Nat.pow 2 n * one = Nat.pow 2 (n + 1074) := by
  have hshift : ∀ count, Nat.pow 2 n * 1 <<< count = Nat.pow 2 (n + count) := by
    intro count
    rw [Nat.one_shiftLeft]
    exact (Nat.pow_add 2 n count).symm
  exact hshift 1074

theorem unitsAt_of_lt {magnitude : Nat} (h : magnitude < 2 * binade) :
    unitsAt magnitude = magnitude := by
  have hzero : doublings magnitude = 0 := by
    simp only [doublings, binade] at h ⊢
    omega
  simp [unitsAt, hzero]

/-- Over one doubling the units grow in equal steps. -/
theorem unitsAt_eq {count rest : Nat} (h : rest < binade) :
    unitsAt ((count + 1) * binade + rest) = (binade + rest) <<< count := by
  have hcount : doublings ((count + 1) * binade + rest) = count := by
    simp only [doublings, binade] at h ⊢
    omega
  have hrest : (count + 1) * binade + rest - count * binade = binade + rest := by
    simp only [binade]
    omega
  rw [unitsAt, hcount, hrest]

theorem shiftLeft_lt_shiftLeft {a b : Nat} (h : a < b) (count : Nat) :
    a <<< count < b <<< count := by
  rw [Nat.shiftLeft_eq, Nat.shiftLeft_eq]
  exact Nat.mul_lt_mul_of_pos_right h (Nat.two_pow_pos count)

theorem unitsAt_lt_unitsAt_succ (magnitude : Nat) :
    unitsAt magnitude < unitsAt (magnitude + 1) := by
  by_cases hsmall : magnitude + 1 < 2 * binade
  · rw [unitsAt_of_lt hsmall, unitsAt_of_lt (Nat.lt_of_succ_lt hsmall)]
    exact Nat.lt_succ_self magnitude
  · obtain ⟨count, rest, hrest, rfl⟩ :
        ∃ count rest, rest < binade ∧ magnitude = (count + 1) * binade + rest := by
      refine ⟨magnitude / binade - 1, magnitude % binade, Nat.mod_lt _ (by decide), ?_⟩
      simp only [binade] at hsmall ⊢
      omega
    rw [unitsAt_eq hrest]
    by_cases hlast : rest + 1 < binade
    · rw [Nat.add_assoc, unitsAt_eq hlast]
      exact shiftLeft_lt_shiftLeft (Nat.lt_succ_self _) count
    · have hnext : (count + 1) * binade + rest + 1 = (count + 1 + 1) * binade + 0 := by
        simp only [binade] at hrest hlast ⊢
        omega
      have hdouble : (binade + 0) <<< (count + 1) = (2 * binade) <<< count := by
        rw [Nat.add_zero, Nat.shiftLeft_succ_inside]
      rw [hnext, unitsAt_eq (by decide), hdouble]
      refine shiftLeft_lt_shiftLeft ?_ count
      omega

/-- A double of greater magnitude is greater. -/
theorem unitsAt_lt_unitsAt {a b : Nat} (h : a < b) : unitsAt a < unitsAt b := by
  induction b with
  | zero => exact absurd h (Nat.not_lt_zero a)
  | succ b ih =>
    rcases Nat.lt_succ_iff_lt_or_eq.mp h with h | rfl
    · exact Nat.lt_trans (ih h) (unitsAt_lt_unitsAt_succ b)
    · exact unitsAt_lt_unitsAt_succ a

end Calculator.Binary64
