import Mathlib.Algebra.Order.Ring.Abs
import GraphiteSql.Value.Double

/-! The `ieee754` functions: a double taken apart into a mantissa and a power of two, and put
together again. Shifts and masks of bits are written as divisions and remainders.
-/

namespace GraphiteSql.Ieee754

open Lib Lib.Binary64

/-- Addition of `i64` numbers, which panics outside their range. -/
def addI64 (a b : Int) : Result Int :=
  if -2 ^ 63 ≤ a + b ∧ a + b < 2 ^ 63 then .ok (a + b)
  else .error (.panic "attempt to add with overflow")

-- Taking apart

def halve : (fuel m : Nat) → (e : Int) → Result (Nat × Int)
  | 0, _, _ => .error .diverge
  | fuel + 1, m, e => do
      if e < 1075 ∧ 0 < m ∧ m % 2 = 0 then halve fuel (m / 2) (← addI64 e 1)
      else return (m, e)

/-- The bits read as an `i64`. -/
def signedBits (r : F64) : Int :=
  if r.isNegative then r.magnitude - 2 ^ 63 else r.magnitude

def zero : F64 := { bits := 0 }

/-- The sign bit is turned over. -/
def neg (r : F64) : F64 := { bits := r.bits + 0x8000000000000000 }

def parts (rIn : F64) : Result (Int64 × Int32) := do
  let isNeg := rIn.partialCmp zero = some .lt
  let a := signedBits (if isNeg then neg rIn else rIn)
  if a = 0 then return (0, -1075) else
  let e := a / 2 ^ 52
  let m := (a % 2 ^ 52).toNat
  let (m, e) ← halve 64 (if e = 0 then m * 2 else m + 2 ^ 52) e
  return (.ofInt (if isNeg then -m else m), .ofInt (e - 1075))

-- Putting together

/-- Shift down while the mantissa has more than 53 bits. -/
def shrink : (fuel m : Nat) → (e : Int) → Result (Nat × Int)
  | 0, _, _ => .error .diverge
  | fuel + 1, m, e => do
      if m / 2 ^ 32 / 2 ^ 21 % 2 ^ 11 ≠ 0 then shrink fuel (m / 2) (← addI64 e 1)
      else return (m, e)

/-- Shift up while the mantissa has fewer than 53 bits. -/
def grow : (fuel m : Nat) → (e : Int) → Result (Nat × Int)
  | 0, _, _ => .error .diverge
  | fuel + 1, m, e => do
      if m ≠ 0 ∧ m / 2 ^ 32 / 2 ^ 20 % 2 ^ 12 = 0 then grow fuel (m * 2) (← addI64 e (-1))
      else return (m, e)

/-- The bits of a mantissa with a biased exponent, which is cut to the range of doubles. -/
def assemble (m : Nat) (e : Int) (isNeg : Bool) : F64 :=
  let (m, e) :=
    if e ≤ 0 then (if 64 ≤ 1 - e then 0 else m / 2 ^ (1 - e).toNat, 0)
    else (m, if 0x7ff < e then 0x7ff else e)
  { bits := .ofNat (m % 2 ^ 52 + e.toNat * 2 ^ 52 + (if isNeg then 2 ^ 63 else 0)) }

/-- The minimum has no negation, and overflows before it is tested for. -/
def compose (mIn eIn : Int64) : Result (Option F64) := do
  let e := max (-10000) (min eIn.toInt 10000)
  if mIn = Int64.minValue then .error (.panic "attempt to negate with overflow")
  else if mIn = 0 ∧ -1000 < e ∧ e < 1000 then return some zero
  else
    let (m, e) ← shrink 64 mIn.toInt.natAbs e
    let (m, e) ← grow 64 m e
    return some (assemble m (← addI64 e 1075) (mIn.toInt < 0))

-- Exact values

theorem two_zpow_pos (e : Int) : (0 : ℚ) < 2 ^ e := zpow_pos two_pos e

def value (m : Nat) (e : Int) : ℚ := m * 2 ^ e

variable {α : Type} {fuel m n k : Nat} {e x : Int}

theorem value_shift (c : Int) : value m (e + c) = value m e * 2 ^ c := by
  rw [value, value, zpow_add₀ two_ne_zero, mul_assoc]

theorem value_add (k : Nat) : value (m * 2 ^ k) e = value m (e + k) := by
  rw [value_shift, value, value, zpow_natCast, Nat.cast_mul, Nat.cast_pow, Nat.cast_ofNat,
    mul_right_comm]

theorem value_half (h : m % 2 = 0) : value (m / 2) (e + 1) = value m e := by
  have hmul : value (m / 2 * 2 ^ 1) e = value (m / 2) (e + 1) := value_add 1
  rw [← hmul, Nat.pow_one, Nat.div_mul_cancel (Nat.dvd_of_mod_eq_zero h)]

/-- Of two equal values, the one with the smaller exponent has the longer mantissa. -/
theorem eq_mul_pow (h : value m e = value n x) (hle : e ≤ x) : m = n * 2 ^ (x - e).toNat := by
  rw [show x = e + (x - e).toNat by omega, ← value_add] at h
  exact_mod_cast mul_right_cancel₀ (zpow_ne_zero e two_ne_zero) h

theorem lt_add_of_value (h : value m e = value n x) (hn : n ≠ 0) (hm : m < 2 ^ k) : x < e + k := by
  by_contra hle
  have hmul := eq_mul_pow h (by omega)
  have hpow := Nat.pow_le_pow_right (show 0 < 2 by decide) (show k ≤ (x - e).toNat by omega)
  have := Nat.le_mul_of_pos_left (2 ^ (x - e).toNat) (Nat.pos_of_ne_zero hn)
  omega

-- Loops

theorem addI64_bind {f : Int → Result α} {b : Int} (he : e.natAbs ≤ 20000) (hb : b.natAbs ≤ 20000)
    : (addI64 e b >>= f) = f (e + b) := by
  rw [addI64, if_pos ⟨by omega, by omega⟩]
  rfl

theorem halve_spec (hm : m ≠ 0) (hfuel : m < 2 ^ fuel) (he : e.natAbs + fuel ≤ 20000)
    : ∃ m' e', halve fuel m e = .ok (m', e') ∧ value m' e' = value m e ∧ m' ≠ 0 ∧ m' ≤ m
      ∧ e ≤ e' ∧ e' ≤ e + fuel ∧ (m' % 2 = 1 ∨ 1075 ≤ e') := by
  induction fuel generalizing m e with
  | zero => omega
  | succ fuel ih =>
    rw [halve, addI64_bind (by omega) (by decide)]
    split
    · obtain ⟨m', e', hok, hvalue, hne, hle, hlow, hhigh, hend⟩ :=
        @ih (m / 2) (e + 1) (by omega) (by omega) (by omega)
      exact ⟨m', e', hok, hvalue.trans (value_half (by omega)), hne, by omega, by omega, by omega,
        hend⟩
    · exact ⟨m, e, rfl, rfl, hm, le_rfl, le_rfl, by omega, by omega⟩

/-- What is shifted out is zero if the value has a mantissa of 53 bits. -/
theorem shrink_spec (hm : m ≠ 0) (hbits : m < 2 ^ 64) (hfuel : m < 2 ^ 53 * 2 ^ fuel)
    (he : e.natAbs + fuel ≤ 20000)
    : ∃ m' e', shrink (fuel + 1) m e = .ok (m', e') ∧ m' ≠ 0 ∧ m' < 2 ^ 53
      ∧ e'.natAbs ≤ e.natAbs + fuel
      ∧ ∀ n x, n < 2 ^ 53 → value m e = value n x → value m' e' = value n x := by
  induction fuel generalizing m e with
  | zero =>
    rw [shrink, if_neg (by omega)]
    exact ⟨m, e, rfl, hm, by omega, le_rfl, fun _ _ _ h => h⟩
  | succ fuel ih =>
    rw [shrink, addI64_bind (by omega) (by decide)]
    split
    · obtain ⟨m', e', hok, hne, hlt, hbound, hvalue⟩ :=
        @ih (m / 2) (e + 1) (by omega) (by omega) (by omega) (by omega)
      refine ⟨m', e', hok, hne, hlt, by omega, fun n x hn h => hvalue n x hn ?_⟩
      have hlt : e < x := by
        by_contra hle
        have hmul := eq_mul_pow h.symm (by omega)
        have := Nat.le_mul_of_pos_right m (Nat.two_pow_pos (e - x).toNat)
        omega
      have hmul := eq_mul_pow h (by omega)
      rw [show (x - e).toNat
        = (x - e).toNat - 1 + 1 by omega, Nat.pow_succ, ← Nat.mul_assoc] at hmul
      rw [value_half (by omega), h]
    · exact ⟨m, e, rfl, hm, by omega, by omega, fun _ _ _ h => h⟩

theorem grow_spec (hm : m ≠ 0) (hbits : m < 2 ^ 53) (hfuel : 2 ^ 52 ≤ m * 2 ^ fuel)
    (he : e.natAbs + fuel ≤ 20000)
    : ∃ m' e', grow (fuel + 1) m e = .ok (m', e') ∧ 2 ^ 52 ≤ m' ∧ m' < 2 ^ 53
      ∧ e'.natAbs ≤ e.natAbs + fuel ∧ value m' e' = value m e := by
  induction fuel generalizing m e with
  | zero =>
    rw [grow, if_neg (by omega)]
    exact ⟨m, e, rfl, by omega, hbits, le_rfl, rfl⟩
  | succ fuel ih =>
    rw [grow, addI64_bind (by omega) (by decide)]
    split
    · obtain ⟨m', e', hok, hlow, hhigh, hbound, hvalue⟩ :=
        @ih (m * 2) (e + -1) (by omega) (by omega) (by rwa [Nat.mul_assoc, ← Nat.pow_succ'])
          (by omega)
      have hdouble := @value_half (m * 2) (e + -1) (by omega)
      rw [Nat.mul_div_cancel m two_pos, Int.neg_add_cancel_right] at hdouble
      exact ⟨m', e', hok, hlow, hhigh, by omega, hvalue.trans hdouble.symm⟩
    · exact ⟨m, e, rfl, by omega, hbits, by omega, rfl⟩

-- Composing

theorem compose_spec {mIn eIn : Int64} (hzero : mIn ≠ 0) (hmin : mIn ≠ Int64.minValue)
    : ∃ m e, compose mIn eIn = .ok (some (assemble m (e + 1075) (mIn.toInt < 0)))
      ∧ 2 ^ 52 ≤ m ∧ m < 2 ^ 53 ∧ ∀ n x, n < 2 ^ 53 →
        value mIn.toInt.natAbs (max (-10000) (min eIn.toInt 10000)) = value n x
        → value m e = value n x := by
  have hmin' : mIn.toInt ≠ -2 ^ 63 := fun h => hmin (Int64.toInt_inj.mp h)
  have hzero' : mIn.toInt ≠ 0 := fun h => hzero (Int64.toInt_inj.mp h)
  have hlow := mIn.le_toInt
  have hhigh := mIn.toInt_lt
  obtain ⟨m₁, e₁, hshrink, hm₁, hlt, he₁, hexact⟩ := @shrink_spec 63 mIn.toInt.natAbs
    (max (-10000) (min eIn.toInt 10000)) (by omega) (by omega) (by omega) (by omega)
  obtain ⟨m, e, hgrow, hnormal, hlt', he, hvalue⟩ :=
    @grow_spec 63 m₁ e₁ hm₁ hlt (by omega) (by omega)
  refine ⟨m, e, ?_, hnormal, hlt', fun n x hn h => hvalue.trans (hexact n x hn h)⟩
  rw [compose, if_neg hmin, if_neg fun h => hzero h.1, hshrink, except_ok_bind]
  dsimp only
  rw [hgrow, except_ok_bind]
  exact addI64_bind (by omega) (by decide)

theorem bits_eq (r : F64)
    : r = { bits := .ofNat (r.magnitude + if r.isNegative then 2 ^ 63 else 0) } := by
  have hlt := r.bits.toNat_lt
  have hbits : r.magnitude + (if r.isNegative then 2 ^ 63 else 0) = r.bits.toNat := by
    unfold F64.magnitude F64.isNegative
    by_cases hneg : 2 ^ 63 ≤ r.bits.toNat
    · rw [decide_eq_true hneg, if_pos rfl]
      omega
    · rw [decide_eq_false hneg, if_neg Bool.false_ne_true]
      omega
  rw [hbits, UInt64.ofNat_toNat]

theorem toRat_eq (r : F64) : r.toRat = r.units * 2 ^ (-1074 : Int) := by
  rw [F64.toRat, F64.one, F64.places, Nat.cast_pow, div_eq_mul_inv, zpow_neg]
  rfl

theorem toRat_signed (r : F64)
    : r.toRat = if r.isNegative then -value (units r.magnitude) (-1074)
      else value (units r.magnitude) (-1074) := by
  rw [toRat_eq, F64.units, value]
  split
  · rw [Int.cast_neg, Int.cast_natCast, neg_mul]
  · rw [Int.cast_natCast]

theorem value_nonneg : 0 ≤ value m e := mul_nonneg (Nat.cast_nonneg m) (two_zpow_pos e).le

theorem abs_toRat (r : F64) : |r.toRat| = value (units r.magnitude) (-1074) := by
  rw [toRat_signed]
  split
  · rw [abs_neg, abs_of_nonneg value_nonneg]
  · exact abs_of_nonneg value_nonneg

/-- Equal numbers have the same sign and the same magnitude. -/
theorem sign_eq {r : F64} {i : Int} (hi : i ≠ 0) (h : r.toRat = i * 2 ^ x)
    : decide (i < 0) = r.isNegative ∧ value i.natAbs x = |r.toRat| := by
  have hpow := two_zpow_pos x
  refine ⟨?_, by rw [h, abs_mul, abs_of_pos hpow, value, Nat.cast_natAbs, Int.cast_abs]⟩
  have hnonneg := @value_nonneg (units r.magnitude) (-1074)
  rw [toRat_signed] at h
  cases hr : r.isNegative with
  | true =>
    rw [hr, if_pos rfl, neg_eq_iff_eq_neg, ← neg_mul, ← Int.cast_neg] at h
    rw [h, mul_nonneg_iff_of_pos_right hpow, Int.cast_nonneg_iff] at hnonneg
    exact decide_eq_true (by omega)
  | false =>
    rw [hr, if_neg Bool.false_ne_true] at h
    rw [h, mul_nonneg_iff_of_pos_right hpow, Int.cast_nonneg_iff] at hnonneg
    exact decide_eq_false (by omega)

/-- A mantissa of 53 bits is put together to the double of its value. -/
theorem assemble_eq {r : F64} (hfin : r.isFinite = true) (hlow : 2 ^ 52 ≤ m) (hhigh : m < 2 ^ 53)
    (h : value m e = |r.toRat|) : assemble m (e + 1075) r.isNegative = r := by
  have hlt : r.magnitude < 0x7ff0000000000000 := of_decide_eq_true hfin
  rw [abs_toRat] at h
  conv_rhs => rw [bits_eq r]
  rw [assemble]
  by_cases hexp : e + 1075 ≤ 0
  · have hmul := eq_mul_pow h (by omega)
    have hne : units r.magnitude ≠ 0 := by
      intro h0
      rw [h0, Nat.zero_mul] at hmul
      omega
    have hshift := lt_add_of_value h hne hhigh
    have hsub : r.magnitude < 2 ^ 52 := by
      rcases bits_cases r.magnitude with hsub | ⟨exp, sig, hsig, hsig', hmag⟩
      · exact hsub
      · rw [hmag, units_normal hsig hsig'] at hmul
        have hpow := Nat.pow_le_pow_right two_pos (show 1 ≤ (-1074 - e).toNat by omega)
        have := Nat.mul_le_mul (Nat.mul_le_mul hsig (Nat.one_le_two_pow (n := exp))) hpow
        omega
    rw [if_pos hexp, if_neg (by omega), show 1 - (e + 1075) = -1074 - e by omega, hmul,
      Nat.mul_div_cancel _ (Nat.two_pow_pos _), units_subnormal hsub]
    dsimp only
    rw [Nat.mod_eq_of_lt hsub]
    rfl
  · have hmul := eq_mul_pow h.symm (by omega)
    have hmag : r.magnitude = (e - -1074).toNat * 2 ^ 52 + m := by
      refine units_strictMono.injective ?_
      rw [units_normal hlow hhigh, hmul]
    have hbits : m % 2 ^ 52 + (e + 1075).toNat * 2 ^ 52 = (e - -1074).toNat * 2 ^ 52 + m := by omega
    rw [if_neg hexp, hmag]
    dsimp only
    rw [if_neg (by omega), hbits]

theorem compose_exact {r : F64} {mIn eIn : Int64} (hzero : mIn ≠ 0) (hmin : mIn ≠ Int64.minValue)
    (hfin : r.isFinite = true) (h : r.toRat = mIn.toInt * 2 ^ eIn.toInt)
    : compose mIn eIn = .ok (some r) := by
  have hlt : r.magnitude < 0x7ff0000000000000 := of_decide_eq_true hfin
  have hne : mIn.toInt ≠ 0 := fun h => hzero (Int64.toInt_inj.mp h)
  have hlow := mIn.le_toInt
  have hhigh := mIn.toInt_lt
  obtain ⟨hsign, hvalue⟩ := sign_eq hne h
  obtain ⟨m, e, hok, hm, hm', hexact⟩ := @compose_spec mIn eIn hzero hmin
  obtain ⟨n, k, hn, hk, hunits⟩
      : ∃ n k, n < 2 ^ 53 ∧ k ≤ 2045 ∧ units r.magnitude = n * 2 ^ k := by
    rcases bits_cases r.magnitude with hsub | ⟨k, n, hn, hn', hmag⟩
    · exact ⟨r.magnitude,
        0, by omega, by omega, by rw [units_subnormal hsub, Nat.pow_zero, Nat.mul_one]⟩
    · exact ⟨n, k, hn', by omega, by rw [hmag, units_normal hn hn']⟩
  rw [abs_toRat, hunits, value_add] at hvalue
  have hn0 : n ≠ 0 := by
    rintro rfl
    rw [value, value, Nat.cast_zero, zero_mul] at hvalue
    exact mul_ne_zero (Nat.cast_ne_zero.mpr (Int.natAbs_ne_zero.mpr hne))
      (zpow_ne_zero _ two_ne_zero) hvalue
  have hlower := lt_add_of_value (k := 64) hvalue hn0 (by omega)
  have hupper := lt_add_of_value hvalue.symm (Int.natAbs_ne_zero.mpr hne) hn
  rw [show max (-10000) (min eIn.toInt 10000) = eIn.toInt by omega] at hexact
  rw [hok, hsign, assemble_eq hfin hm hm' ?_]
  rw [abs_toRat, hunits, value_add]
  exact hexact n _ hn hvalue

-- Taking apart and putting together

section Parts

variable {r : F64} (hfin : r.isFinite = true) (hneg : r ≠ neg zero)

include hfin hneg

theorem isNeg_iff : r.partialCmp zero = some .lt ↔ r.isNegative = true := by
  have hbits : r.bits.toNat ≠ 2 ^ 63 := fun h => hneg (congrArg F64.mk (UInt64.toNat_inj.mp h))
  have hlt := r.bits.toNat_lt
  have hmag : r.magnitude < 0x7ff0000000000000 := of_decide_eq_true hfin
  have hnan : r.isNaN = false := decide_eq_false (by omega)
  rw [F64.partialCmp, hnan, show zero.isNaN = false from rfl, Bool.or_false,
    if_neg Bool.false_ne_true, Option.some.injEq, compare_lt_iff_lt, F64.key, show zero.key = 0
      from rfl]
  unfold F64.magnitude F64.isNegative
  by_cases h : 2 ^ 63 ≤ r.bits.toNat
  · rw [decide_eq_true h, if_pos rfl]
    exact iff_of_true (by omega) rfl
  · rw [decide_eq_false h, if_neg Bool.false_ne_true]
    exact iff_of_false (by omega) Bool.false_ne_true

theorem signedBits_abs
    : signedBits (if r.partialCmp zero = some .lt then neg r else r) = r.magnitude := by
  have hsign := isNeg_iff hfin hneg
  have hlt := r.bits.toNat_lt
  have hadd : (neg r).bits.toNat = (r.bits.toNat + 2 ^ 63) % 2 ^ 64 := UInt64.toNat_add _ _
  cases hr : r.isNegative with
  | true =>
    have hhigh : 2 ^ 63 ≤ r.bits.toNat := of_decide_eq_true hr
    have hpos : (neg r).isNegative = false := decide_eq_false (by omega)
    rw [if_pos (hsign.mpr hr), signedBits, hpos, if_neg Bool.false_ne_true, F64.magnitude,
      F64.magnitude, hadd]
    omega
  | false =>
    rw [if_neg fun h => Bool.eq_false_iff.mp hr (hsign.mp h), signedBits, hr,
      if_neg Bool.false_ne_true]

omit hfin in
theorem parts_zero (hmag : r.magnitude = 0) : parts r = .ok (0, -1075) ∧ r = zero := by
  have hbits : r.bits.toNat ≠ 2 ^ 63 := fun h => hneg (congrArg F64.mk (UInt64.toNat_inj.mp h))
  have hlt := r.bits.toNat_lt
  have hr : r = zero := by
    rw [F64.magnitude] at hmag
    exact congrArg F64.mk (UInt64.toNat_inj.mp (show r.bits.toNat = 0 by omega))
  rw [hr]
  exact ⟨rfl, rfl⟩

/-- Before the loop the mantissa counts halves of the unit. -/
theorem parts_start (hmag : r.magnitude ≠ 0)
    : ∃ m e : Nat, m ≠ 0 ∧ m < 2 ^ 53 ∧ e ≤ 2046 ∧ value m (e - 1075) = |r.toRat|
      ∧ parts r = halve 64 m e >>= fun (m, e) =>
        .ok (.ofInt (if r.isNegative then -m else m), .ofInt (e - 1075)) := by
  have hlt : r.magnitude < 0x7ff0000000000000 := of_decide_eq_true hfin
  have hsign := isNeg_iff hfin hneg
  rw [parts, signedBits_abs hfin hneg, if_neg (by omega), abs_toRat]
  rcases bits_cases r.magnitude with hsub | ⟨e, sig, hlow, hhigh, hsig⟩
  · refine ⟨r.magnitude * 2 ^ 1, 0, by omega, by omega, by omega, ?_, ?_⟩
    · rw [units_subnormal hsub, value_add]
      rfl
    · simp only [hsign, show (r.magnitude : Int) / 2 ^ 52 = 0 by omega,
        show ((r.magnitude : Int) % 2 ^ 52).toNat = r.magnitude by omega]
      rfl
  · refine ⟨sig, e + 1, by omega, hhigh, by omega, ?_, ?_⟩
    · rw [hsig, units_normal hlow hhigh, value_add]
      congr 1
      omega
    · simp only [hsign, show (r.magnitude : Int) / 2 ^ 52 = e + 1 by omega,
        show ((r.magnitude : Int) % 2 ^ 52).toNat = sig - 2 ^ 52 by omega,
        if_neg (show (e : Int) + 1 ≠ 0 by omega), Nat.sub_add_cancel hlow]
      rfl

theorem parts_spec (hmag : r.magnitude ≠ 0)
    : ∃ (m : Int64) (e : Int32), parts r = .ok (m, e) ∧ m ≠ 0 ∧ m ≠ Int64.minValue
      ∧ r.toRat = m.toInt * 2 ^ e.toInt ∧ (m.toInt % 2 = 1 ∨ 0 ≤ e.toInt) := by
  obtain ⟨m, e, hm, hlt, he, hvalue, hparts⟩ := parts_start hfin hneg hmag
  obtain ⟨m', e', hok, hvalue', hne, hle, hlow, hhigh, hend⟩ :=
    @halve_spec 64 m e hm (by omega) (by omega)
  obtain ⟨v, hv⟩ : ∃ v : Int, (if r.isNegative then -(m' : Int) else m') = v := ⟨_, rfl⟩
  have habs : v.natAbs = m' := by
    rw [← hv]
    split <;> omega
  have hint : (Int64.ofInt v).toInt = v := Int64.toInt_ofInt_of_le (by omega) (by omega)
  have hexp : (Int32.ofInt (e' - 1075)).toInt = e' - 1075 :=
    Int32.toInt_ofInt_of_le (by omega) (by omega)
  rw [hok, except_ok_bind] at hparts
  dsimp only at hparts
  rw [hv] at hparts
  refine ⟨_, _, hparts, ?_, ?_, ?_, ?_⟩
  · exact fun h => hne (by rw [← habs, ← hint, h]; rfl)
  · intro h
    have hmin : v = -2 ^ 63 := by rw [← hint, h]; rfl
    omega
  · have hscale : value m' (e' - 1075) = |r.toRat| := by
      rw [← hvalue, Int.sub_eq_add_neg, Int.sub_eq_add_neg, value_shift, hvalue', ← value_shift]
    rw [hint, hexp, toRat_signed, ← abs_toRat, ← hscale, ← hv, value]
    split
    · rw [Int.cast_neg, Int.cast_natCast, neg_mul]
    · rw [Int.cast_natCast]
  · rw [hint, hexp]
    omega

end Parts

/-- Taking apart and putting together are exact and inverse to each other. -/
theorem ieee754_exact
    : (∀ r : F64, r.isFinite = true → r ≠ neg zero → ∃ m e, parts r = .ok (m, e)
        ∧ r.toRat = m.toInt * 2 ^ e.toInt ∧ (m.toInt % 2 = 1 ∨ m = 0 ∨ 0 ≤ e.toInt)
        ∧ compose m e.toInt64 = .ok (some r))
      ∧ ∀ m e : Int64, m ≠ 0 → m ≠ Int64.minValue → (∃ r, compose m e = .ok (some r))
        ∧ ∀ r : F64, r.isFinite = true → r.toRat = m.toInt * 2 ^ e.toInt
          → compose m e = .ok (some r) := by
  constructor
  · intro r hfin hneg
    by_cases hmag : r.magnitude = 0
    · obtain ⟨hparts, rfl⟩ := parts_zero hneg hmag
      refine ⟨_, _, hparts, ?_, .inr (.inl rfl), rfl⟩
      rw [toRat_eq, show zero.units = 0 from rfl, show (0 : Int64).toInt = 0 from rfl,
        Int.cast_zero,
        zero_mul, zero_mul]
    · obtain ⟨m, e, hparts, hzero, hmin, hvalue, hodd⟩ := parts_spec hfin hneg hmag
      refine ⟨m, e, hparts, hvalue, hodd.imp_right .inr, compose_exact hzero hmin hfin ?_⟩
      rw [hvalue, Int32.toInt_toInt64]
  · intro m e hzero hmin
    obtain ⟨_, _, hok, -⟩ := @compose_spec m e hzero hmin
    exact ⟨⟨_, hok⟩, fun r hfin => compose_exact hzero hmin hfin⟩

/-- The double 45.25 is 181 quarters. -/
theorem ieee754_quarters
    : (∃ m e, parts ⟨0x4046a00000000000⟩ = .ok (m, e)
        ∧ compose m e.toInt64 = .ok (some ⟨0x4046a00000000000⟩))
      ∧ parts ⟨0x4046a00000000000⟩ = .ok (181, -2) ∧ ∃ r, compose 181 (-2) = .ok (some r) := by
  obtain ⟨m, e, hparts, -, -, hcompose⟩ :=
    ieee754_exact.1 ⟨0x4046a00000000000⟩ (by decide) (by decide)
  exact ⟨⟨m, e, hparts, hcompose⟩, by decide, (ieee754_exact.2 181 (-2) (by decide) (by decide)).1⟩

end GraphiteSql.Ieee754
