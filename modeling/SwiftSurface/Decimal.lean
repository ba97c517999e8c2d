/-!
# Decimal numbers and the range of doubles

Text formats take a decimal number only if it rounds to a finite double-precision number.
`Decimal.isFinite` decides that in exact arithmetic and without forming a power of ten that is
longer than the number itself.

* `isFinite_natural` and `isFinite_fraction` say that nothing but the magnitude decides.
-/

namespace SwiftSurface

/-- A decimal number without its sign: `coefficient * 10 ^ exponent`. -/
structure Decimal where
  coefficient : Nat
  exponent : Int
deriving DecidableEq

namespace Decimal

/-- The least magnitude that rounds to no finite double: 54 ones and then 970 zeros in binary. It
lies half a unit above the greatest double, which has 53 ones and then 971 zeros, and a tie there
goes up. -/
def firstInfinite : Nat :=
  (Nat.pow 2 54 - 1) * Nat.pow (Nat.pow 2 97) 10

/-- Does the number round to a finite double? From `10 ^ 309` on none does, and a negative exponent
that takes away all digits of the coefficient always leaves one. -/
def isFinite (d : Decimal) : Bool :=
  match d.exponent with
  | .ofNat up => d.coefficient == 0 || (up ≤ 308 && d.coefficient * Nat.pow 10 up < firstInfinite)
  | .negSucc down =>
    d.coefficient < firstInfinite * Nat.pow 10 (min (down + 1) (d.coefficient.log2 + 1))

theorem firstInfinite_pos : 0 < firstInfinite := by decide

theorem firstInfinite_le_pow {up : Nat} (large : 308 < up) : firstInfinite ≤ Nat.pow 10 up := by
  obtain ⟨more, rfl⟩ : ∃ more, up = 103 * 3 + more := ⟨up - 309, by omega⟩
  have base : firstInfinite ≤ Nat.pow (Nat.pow 10 103) 3 := by decide
  have split : Nat.pow 10 (103 * 3 + more) = Nat.pow (Nat.pow 10 103) 3 * Nat.pow 10 more := by
    generalize 103 = n
    exact (Nat.pow_add 10 (n * 3) more).trans (congrArg (· * _) (Nat.pow_mul 10 n 3))
  exact split ▸ Nat.le_trans base (Nat.le_mul_of_pos_right _ (Nat.pow_pos (by decide)))

theorem lt_pow_log2_succ (n : Nat) : n < Nat.pow 10 (n.log2 + 1) :=
  Nat.lt_of_lt_of_le Nat.lt_log2_self (Nat.pow_le_pow_left (by decide) _)

theorem isFinite_natural (c up : Nat) :
    isFinite ⟨c, .ofNat up⟩ = true ↔ c * Nat.pow 10 up < firstInfinite := by
  by_cases zero : c = 0
  · simp [isFinite, zero, firstInfinite_pos]
  by_cases small : up ≤ 308
  · simp [isFinite, zero, small]
  have large : firstInfinite ≤ c * Nat.pow 10 up :=
    Nat.le_trans (firstInfinite_le_pow (Nat.lt_of_not_le small))
      (Nat.le_mul_of_pos_left _ (Nat.pos_of_ne_zero zero))
  simpa [isFinite, zero, small, -Nat.pow_eq] using large

theorem isFinite_fraction (c down : Nat) :
    isFinite ⟨c, .negSucc down⟩ = true ↔ c < firstInfinite * Nat.pow 10 (down + 1) := by
  by_cases long : down + 1 ≤ c.log2 + 1
  · simp [isFinite, Nat.min_eq_left long]
  have short : c.log2 + 1 ≤ down + 1 := by omega
  have small : c < firstInfinite * Nat.pow 10 (c.log2 + 1) :=
    Nat.lt_of_lt_of_le (lt_pow_log2_succ c) (Nat.le_mul_of_pos_left _ firstInfinite_pos)
  have smaller : c < firstInfinite * Nat.pow 10 (down + 1) :=
    Nat.lt_of_lt_of_le small
      (Nat.mul_le_mul_left _ (Nat.pow_le_pow_right (by decide) short))
  simpa [isFinite, Nat.min_eq_right short, smaller, -Nat.pow_eq] using small

end Decimal

end SwiftSurface
