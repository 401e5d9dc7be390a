import Mathlib.Algebra.Order.Field.Rat
import Mathlib.Order.Compare
import Mathlib.Tactic.Linarith
import GraphiteSql.Lib.Binary64
import GraphiteSql.Value

/-! What the bits of a double stand for, and the two conversions between doubles and 64-bit
integers that comparisons make: truncation toward zero, and rounding to the nearest double.
-/

namespace GraphiteSql

open Lib Nat

namespace F64

def isInfinite (r : F64) : Bool :=
  r.magnitude == 0x7ff0000000000000

def isFinite (r : F64) : Bool :=
  r.magnitude < 0x7ff0000000000000

/-- The number in units of the smallest positive double. -/
def units (r : F64) : Int :=
  if r.isNegative then -(Binary64.units r.magnitude : Int) else Binary64.units r.magnitude

/-- The smallest positive double is one shifted down by this many binary places. -/
@[irreducible]
def places : Nat := 1074

def one : Nat := 2 ^ places

def toRat (r : F64) : ℚ :=
  (r.units : ℚ) / one

theorem one_eq_mul {n k : Nat} (h : n + k = 1074) : one = 2 ^ n * 2 ^ k := by
  have hplaces : places = n + k := by rw [places, h]
  rw [one, hplaces, pow_add]

theorem one_pos : 0 < one := Nat.two_pow_pos places

/-- A power of two as a double: exponent bits `k + 1023`, no fraction bits. -/
theorem units_twoPow (k : Nat) : Binary64.units ((k + 1022) * 2 ^ 52 + 2 ^ 52) = 2 ^ k * one := by
  obtain ⟨w, hw⟩ : ∃ w, w = 1022 := ⟨_, rfl⟩
  rw [← hw, Binary64.units_normal (Nat.le_refl _) (by omega), @one_eq_mul 52 w (by omega)]
  ring

theorem key_lt_iff (a b : F64) : a.key < b.key ↔ a.units < b.units := by
  have hmono : ∀ {m n : Nat}, Binary64.units m < Binary64.units n ↔ m < n :=
    Binary64.units_strictMono.lt_iff_lt
  have hzero : Binary64.units 0 = 0 := rfl
  have hpos : ∀ {m : Nat}, 0 < Binary64.units m ↔ 0 < m := fun {m} => by
    rw [← hzero]
    exact hmono
  unfold key units
  cases a.isNegative <;> cases b.isNegative
  · simp [hmono]
  · simp only [Bool.false_eq_true, if_false, if_true]
    omega
  · have ha := @hpos a.magnitude
    have hb := @hpos b.magnitude
    simp only [Bool.false_eq_true, if_false, if_true]
    omega
  · simp [hmono]

theorem compare_key (a b : F64) : compare a.key b.key = compare a.units b.units := by
  have hlt := key_lt_iff a b
  have hgt := key_lt_iff b a
  rcases lt_trichotomy a.units b.units with h | h | h
  · rw [compare_lt_iff_lt.mpr h, compare_lt_iff_lt.mpr (hlt.mpr h)]
  · have heq : a.key = b.key := by omega
    rw [heq, h, compare_eq_iff_eq.mpr rfl, compare_eq_iff_eq.mpr rfl]
  · rw [compare_gt_iff_gt.mpr h, compare_gt_iff_gt.mpr (hgt.mpr h)]

theorem partialCmp_eq {a b : F64} (ha : a.isNaN = false) (hb : b.isNaN = false)
    : a.partialCmp b = some (compare a.units b.units) := by
  rw [partialCmp, ha, hb, ← compare_key]
  rfl

/-- The integer part of a magnitude, from the number of units it has. -/
theorem truncMagnitude_eq (r : F64) : r.truncMagnitude = Binary64.units r.magnitude / one := by
  unfold truncMagnitude exponent fraction
  rcases Binary64.bits_cases r.magnitude with hsub | ⟨e, sig, hlow, hhigh, hbits⟩
  · rw [if_pos (by omega), Binary64.units_subnormal hsub, div_eq_of_lt]
    obtain ⟨w, hw⟩ : ∃ w, 52 + w = 1074 := ⟨1022, rfl⟩
    rw [one_eq_mul hw]
    exact Nat.lt_of_lt_of_le hsub (Nat.le_mul_of_pos_right _ (Nat.two_pow_pos w))
  have hexp : r.magnitude / 2 ^ 52 = e + 1 := by omega
  have hsig : 2 ^ 52 + r.magnitude % 2 ^ 52 = sig := by omega
  rw [hexp, hsig, hbits, Binary64.units_normal hlow hhigh]
  split_ifs with hsmall hpart
  · -- below one: 53 bits shifted by at most 1021 places
    obtain ⟨w, hw⟩ : ∃ w, 53 + w = 1074 := ⟨1021, rfl⟩
    have hlt : sig * 2 ^ e < one := calc
      sig * 2 ^ e < 2 ^ 53 * 2 ^ e := mul_lt_mul_of_pos_right hhigh (Nat.two_pow_pos e)
      _ ≤ 2 ^ 53 * 2 ^ w := mul_le_mul_left _ (Nat.pow_le_pow_right (by decide) (by omega))
      _ = one := (one_eq_mul hw).symm
    exact (div_eq_of_lt hlt).symm
  · have hshift : 1075 - (e + 1) + e = 1074 := by omega
    rw [one_eq_mul hshift, Nat.mul_div_mul_right _ _ (Nat.two_pow_pos e)]
  obtain ⟨w, hw⟩ : ∃ w, w = 1074 := ⟨_, rfl⟩
  obtain ⟨k, hk⟩ : ∃ k, e = w + k := ⟨e - w, by omega⟩
  have hshift : e + 1 - 1075 = k := by omega
  have hwhole : sig * 2 ^ e = sig * 2 ^ k * one := by
    rw [hk, @one_eq_mul 0 w (by omega)]
    ring
  rw [hshift, hwhole, Nat.mul_div_cancel _ one_pos]

theorem minI64_units : minI64.units = -(2 ^ 63 * one) := by
  have hbits : minI64.magnitude = (63 + 1022) * 2 ^ 52 + 2 ^ 52 := by decide
  rw [units, hbits, units_twoPow]
  rfl

theorem twoPow63_units : twoPow63.units = 2 ^ 63 * one := by
  have hbits : twoPow63.magnitude = (63 + 1022) * 2 ^ 52 + 2 ^ 52 := by decide
  rw [units, hbits, units_twoPow]
  rfl

/-- Truncation is exact for a double in the range of 64-bit integers. -/
theorem asI64_toInt {r : F64} (hnan : r.isNaN = false) (hlow : -(2 ^ 63 * (one : Int)) ≤ r.units)
    (hhigh : r.units < 2 ^ 63 * (one : Int))
    : r.asI64.toInt
      = if r.isNegative then -((Binary64.units r.magnitude / one : Nat) : Int)
        else (Binary64.units r.magnitude / one : Nat) := by
  unfold units at hlow hhigh
  rw [asI64, hnan, truncMagnitude_eq, if_neg Bool.false_ne_true]
  generalize Binary64.units r.magnitude = m at hlow hhigh ⊢
  split_ifs at hlow hhigh ⊢
  · have hm : m ≤ 2 ^ 63 * one := by
      zify
      linarith
    have hdiv : m / one ≤ 2 ^ 63 := Nat.div_le_of_le_mul (by rw [Nat.mul_comm]; exact hm)
    generalize m / one = t at hdiv ⊢
    rw [max_eq_left (by omega), Int64.toInt_ofInt_of_le (by omega) (by omega)]
  have hm : m < 2 ^ 63 * one := by
    zify
    exact hhigh
  have hdiv : m / one < 2 ^ 63 := Nat.div_lt_of_lt_mul (by rw [Nat.mul_comm]; exact hm)
  generalize m / one = t at hdiv ⊢
  rw [min_eq_left (by omega), Int64.toInt_ofInt_of_le (by omega) (by omega)]

theorem bitsOfNat_le (n : Nat) : bitsOfNat n ≤ (n.log2 + 1022) * 2 ^ 52 + 2 ^ 53 := by
  have hlt : n < 2 ^ (n.log2 + 1) := lt_log2_self
  unfold bitsOfNat
  dsimp only
  generalize n.log2 = top at hlt ⊢
  split_ifs with hsmall hup
  · have hsig : n * 2 ^ (52 - top) ≤ 2 ^ (top + 1) * 2 ^ (52 - top) :=
      mul_le_mul_right _ (Nat.le_of_lt hlt)
    rw [← pow_add, show top + 1 + (52 - top) = 53 by omega] at hsig
    omega
  all_goals
    have hsig : n / 2 ^ (top - 52) < 2 ^ 53 := by
      apply Nat.div_lt_of_lt_mul
      rw [← pow_add, show top - 52 + 53 = top + 1 by omega]
      exact hlt
    omega

/-- An integer with a significand of at most 53 bits is not rounded. -/
theorem units_bitsOfNat {n sig k : Nat} (hn : n = sig * 2 ^ k) (hpos : n ≠ 0)
    (hsig : sig < 2 ^ 53) : Binary64.units (bitsOfNat n) = n * one := by
  have hle : 2 ^ n.log2 ≤ n := log2_self_le hpos
  have hlt : n < 2 ^ (n.log2 + 1) := lt_log2_self
  unfold bitsOfNat
  dsimp only
  generalize n.log2 = top at hle hlt ⊢
  obtain ⟨w, hw⟩ : ∃ w, w = 1022 := ⟨_, rfl⟩
  rw [← hw]
  split_ifs with hsmall hup
  · have hscale : 2 ^ top * 2 ^ (52 - top) = 2 ^ 52 := by
      rw [← pow_add, Nat.add_sub_cancel' hsmall]
    have hlow := mul_le_mul_right (2 ^ (52 - top)) hle
    have hhigh := mul_lt_mul_of_pos_right hlt (Nat.two_pow_pos (52 - top))
    rw [Nat.pow_succ, mul_right_comm] at hhigh
    rw [hscale] at hlow hhigh
    rw [Binary64.units_normal hlow (by omega), Nat.mul_assoc, ← one_eq_mul (by omega)]
  all_goals
    -- the low bits that rounding drops are zero
    have hdvd : 2 ^ (top - 52) ∣ n := by
      have hk : top - 52 ≤ k := by
        by_contra hshort
        have hfew : sig * 2 ^ k < 2 ^ 53 * 2 ^ (top - 53) :=
          Nat.mul_lt_mul_of_lt_of_le hsig (Nat.pow_le_pow_right (by decide) (by omega))
            (Nat.two_pow_pos _)
        rw [← pow_add, show 53 + (top - 53) = top by omega] at hfew
        omega
      rw [hn]
      exact Nat.dvd_mul_left_of_dvd (pow_dvd_pow 2 hk) sig
    obtain ⟨low, hlow⟩ := hdvd
    have hunit := Nat.two_pow_pos (top - 52)
    rw [hlow, mul_mod_right] at hup
    rw [hlow, Nat.mul_div_cancel_left _ hunit]
  · omega
  have hsplit : 2 ^ top = 2 ^ (top - 52) * 2 ^ 52 := by
    rw [← pow_add, Nat.sub_add_cancel (by omega)]
  rw [Nat.pow_succ, hlow, hsplit, Nat.mul_assoc] at hlt
  rw [hlow, hsplit] at hle
  have hfirst := le_of_mul_le_mul_left hle hunit
  have hlast := lt_of_mul_lt_mul_left hlt
  obtain ⟨e, he⟩ : ∃ e, top = e + 52 := ⟨top - 52, by omega⟩
  rw [Binary64.units_normal hfirst (by omega), he, Nat.add_sub_cancel,
    @one_eq_mul 52 w (by omega)]
  ring

/-- The sign and the magnitude of a converted integer. -/
theorem ofI64_bits {i : Int64} (hi : i ≠ 0)
    : (ofI64 i).magnitude = bitsOfNat i.toInt.natAbs
      ∧ (ofI64 i).isNegative = decide (i.toInt < 0)
      ∧ (ofI64 i).isNaN = false := by
  have hlow := i.le_toInt
  have hhigh := i.toInt_lt
  have hne : i.toInt.natAbs ≠ 0 := fun h => hi (Int64.toInt_inj.mp (Int.natAbs_eq_zero.mp h))
  have htop : i.toInt.natAbs.log2 < 64 := (log2_lt hne).mpr (by omega)
  have hbits : bitsOfNat i.toInt.natAbs < 1087 * 2 ^ 52 + 1 := by
    have hle := bitsOfNat_le i.toInt.natAbs
    omega
  unfold isNaN magnitude isNegative ofI64
  rw [if_neg hne]
  generalize bitsOfNat i.toInt.natAbs = b at hbits ⊢
  have hword : ∀ {n : Nat}, n < 2 ^ 64 → (UInt64.ofNat n).toNat = n := fun {n} hn => by
    rw [UInt64.toNat_ofNat', mod_eq_of_lt hn]
  by_cases hneg : i.toInt < 0
  · rw [if_pos hneg, hword (by omega), decide_eq_true hneg]
    exact ⟨by omega, decide_eq_true (by omega), decide_eq_false (by omega)⟩
  · rw [if_neg hneg, hword (by omega), decide_eq_false hneg]
    exact ⟨by omega, decide_eq_false (by omega), decide_eq_false (by omega)⟩

theorem ofI64_units {i : Int64} {sig k : Nat} (h : i.toInt.natAbs = sig * 2 ^ k)
    (hsig : sig < 2 ^ 53) : (ofI64 i).units = i.toInt * one := by
  by_cases hi : i = 0
  · subst hi
    exact (Int.zero_mul _).symm
  obtain ⟨hmag, hneg, -⟩ := ofI64_bits hi
  have hne : i.toInt.natAbs ≠ 0 := fun h => hi (Int64.toInt_inj.mp (Int.natAbs_eq_zero.mp h))
  rw [units, hmag, hneg, units_bitsOfNat h hne hsig]
  by_cases hsign : i.toInt < 0
  · rw [decide_eq_true hsign, if_pos rfl]
    have habs : (i.toInt.natAbs : Int) = -i.toInt := by omega
    push_cast
    rw [← Int.natCast_natAbs, habs]
    ring
  rw [decide_eq_false hsign]
  have habs : (i.toInt.natAbs : Int) = i.toInt := by omega
  push_cast
  rw [← Int.natCast_natAbs, habs]

end F64

end GraphiteSql
