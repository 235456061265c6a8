/-!
# Rounding a quotient

A quotient of natural numbers is rounded to the nearest natural number, and a half to the even
neighbour. The rounded quotient is within half a unit of the exact one, and an exact quotient stays
as it is.
-/

namespace Calculator

/-- The natural number nearest to `num / den`; of two equally near the even one. -/
def divNearest (num den : Nat) : Nat :=
  let quotient := num / den
  match compare (2 * (num % den)) den with
  | .lt => quotient
  | .eq => quotient + quotient % 2
  | .gt => quotient + 1

theorem divNearest_mul_right {q den : Nat} (h : 0 < den) : divNearest (q * den) den = q := by
  have : compare 0 den = .lt := Nat.compare_eq_lt.mpr h
  simp [divNearest, h, this]

theorem two_mul_divNearest_mul_le {num den : Nat} (h : 0 < den) :
    2 * (divNearest num den * den) ≤ 2 * num + den := by
  have hdiv := Nat.div_add_mod num den
  have hcomm := Nat.mul_comm den (num / den)
  have hbit := Nat.mod_lt (num / den) (show 0 < 2 by decide)
  unfold divNearest
  dsimp only
  split
  · omega
  · rename_i hc
    have hc := Nat.compare_eq_eq.mp hc
    have : num / den % 2 * den ≤ 1 * den := Nat.mul_le_mul_right den (by omega)
    rw [Nat.add_mul]
    omega
  · rename_i hc
    have hc := Nat.compare_eq_gt.mp hc
    rw [Nat.add_mul]
    omega

theorem two_mul_le_two_mul_divNearest_mul {num den : Nat} (h : 0 < den) :
    2 * num ≤ 2 * (divNearest num den * den) + den := by
  have hdiv := Nat.div_add_mod num den
  have hcomm := Nat.mul_comm den (num / den)
  have hmod := Nat.mod_lt num h
  unfold divNearest
  dsimp only
  split
  · rename_i hc
    have hc := Nat.compare_eq_lt.mp hc
    omega
  · rename_i hc
    have hc := Nat.compare_eq_eq.mp hc
    rw [Nat.add_mul]
    omega
  · rename_i hc
    rw [Nat.add_mul]
    omega

theorem divNearest_even_of_tie {num den : Nat} (h : 2 * (num % den) = den) :
    divNearest num den % 2 = 0 := by
  have : compare (2 * (num % den)) den = .eq := Nat.compare_eq_eq.mpr h
  simp only [divNearest, this]
  omega

end Calculator
