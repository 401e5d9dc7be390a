import Mathlib.Order.Monotone.Basic
import Mathlib.Tactic.Ring

/-! Magnitudes of IEEE-754 doubles. The bits below the sign bit stand for a multiple of the smallest
positive double, and grow with it; so an order on bits is an order on numbers.
-/

namespace Lib.Binary64

open Nat

/-- How many times the smallest positive double `2 ^ -1074` is the number with magnitude bits
`m`. Infinity is taken for the number that would follow the largest finite one.
-/
def units (m : Nat) : Nat :=
  if m / 2 ^ 52 = 0 then m % 2 ^ 52
  else (2 ^ 52 + m % 2 ^ 52) * 2 ^ (m / 2 ^ 52 - 1)

/-- A subnormal number counts its fraction. -/
theorem units_subnormal {m : Nat} (h : m < 2 ^ 52) : units m = m := by
  rw [units, if_pos (div_eq_of_lt h), mod_eq_of_lt h]

/-- A normal number with a significand of 53 bits, the first of which is not stored. -/
theorem units_normal {e sig : Nat} (hlow : 2 ^ 52 ≤ sig) (hhigh : sig < 2 ^ 53)
    : units (e * 2 ^ 52 + sig) = sig * 2 ^ e := by
  have hexp : (e * 2 ^ 52 + sig) / 2 ^ 52 = e + 1 := by omega
  have hfrac : (e * 2 ^ 52 + sig) % 2 ^ 52 = sig - 2 ^ 52 := by omega
  rw [units, hexp, hfrac, if_neg (Nat.succ_ne_zero e), Nat.add_sub_cancel,
    Nat.add_sub_cancel' hlow]

/-- Every bit pattern is subnormal or normal. -/
theorem bits_cases (m : Nat)
    : m < 2 ^ 52 ∨ ∃ e sig, 2 ^ 52 ≤ sig ∧ sig < 2 ^ 53 ∧ m = e * 2 ^ 52 + sig := by
  rcases lt_or_ge m (2 ^ 52) with hsub | hnormal
  · exact .inl hsub
  · exact .inr ⟨m / 2 ^ 52 - 1, 2 ^ 52 + m % 2 ^ 52, by omega, by omega, by omega⟩

/-- The next bit pattern stands for a larger number, also across a power of two. -/
theorem units_lt_succ (m : Nat) : units m < units (m + 1) := by
  rcases bits_cases m with hsub | ⟨e, sig, hlow, hhigh, rfl⟩
  · rw [units_subnormal hsub]
    rcases lt_or_ge (m + 1) (2 ^ 52) with hnext | hnext
    · rw [units_subnormal hnext]
      exact lt_succ_self m
    have hnext := @units_normal 0 (m + 1) hnext (by omega)
    rw [Nat.zero_mul, Nat.zero_add, pow_zero, mul_one] at hnext
    rw [hnext]
    exact lt_succ_self m
  rw [units_normal hlow hhigh]
  rcases lt_or_ge (sig + 1) (2 ^ 53) with hnext | hnext
  · rw [Nat.add_assoc, units_normal (le_succ_of_le hlow) hnext]
    exact mul_lt_mul_of_pos_right (lt_succ_self sig) (Nat.two_pow_pos e)
  have hcarry : e * 2 ^ 52 + sig + 1 = (e + 1) * 2 ^ 52 + 2 ^ 52 := by omega
  have hdouble : 2 ^ 52 * 2 ^ (e + 1) = 2 ^ 53 * 2 ^ e := by ring
  rw [hcarry, units_normal (Nat.le_refl _) (by omega), hdouble]
  exact mul_lt_mul_of_pos_right hhigh (Nat.two_pow_pos e)

theorem units_strictMono : StrictMono units := strictMono_nat_of_lt_succ units_lt_succ

end Lib.Binary64
