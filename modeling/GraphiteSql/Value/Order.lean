import GraphiteSql.Lib.Ordering
import GraphiteSql.Value.Double

/-! The order of values is a total preorder once no NaN is involved, under the binary order and
under every built-in collation, and it compares integers with doubles exactly.
-/

namespace GraphiteSql

open Lib Nat List

namespace F64

/-- The integer part of a double has at most 53 significant bits. -/
theorem trunc_significand (m : Nat)
    : ∃ sig k, Binary64.units m / one = sig * 2 ^ k ∧ sig < 2 ^ 53 := by
  by_cases hsmall : Binary64.units m / one < 2 ^ 53
  · exact ⟨_, 0, (mul_one _).symm, hsmall⟩
  have hlarge : 2 ^ 53 * one ≤ Binary64.units m :=
    (le_div_iff_mul_le one_pos).mp (Nat.le_of_not_lt hsmall)
  obtain ⟨w, hw⟩ : ∃ w, w = 1074 := ⟨_, rfl⟩
  have hone : one = 2 ^ w := by rw [@one_eq_mul 0 w (by omega), pow_zero, one_mul]
  rcases Binary64.bits_cases m with hsub | ⟨e, sig, hlow, hhigh, rfl⟩
  · have := one_pos
    rw [Binary64.units_subnormal hsub] at hlarge
    omega
  rw [Binary64.units_normal hlow hhigh, hone] at hlarge ⊢
  have he : w ≤ e := by
    by_contra hlt
    have hpow : 2 ^ e ≤ 2 ^ w := Nat.pow_le_pow_right (by decide) (by omega)
    have hless := Nat.mul_lt_mul_of_lt_of_le hhigh hpow (Nat.two_pow_pos w)
    omega
  obtain ⟨k, rfl⟩ := Nat.exists_eq_add_of_le he
  refine ⟨sig, k, ?_, hhigh⟩
  rw [Nat.pow_add, Nat.mul_left_comm, Nat.mul_div_cancel_left _ (Nat.two_pow_pos w)]

theorem ofI64_of_trunc {i : Int64} {m : Nat} (h : i.toInt.natAbs = Binary64.units m / one)
    : (ofI64 i).units = i.toInt * one ∧ (ofI64 i).isNaN = false := by
  obtain ⟨sig, k, hsplit, hsig⟩ := trunc_significand m
  refine ⟨ofI64_units (h.trans hsplit) hsig, ?_⟩
  by_cases hi : i = 0
  · subst hi
    decide
  · exact (ofI64_bits hi).2.2

theorem asI64_bounds {r : F64} (hnan : r.isNaN = false)
    (hlow : -(2 ^ 63 * (one : Int)) ≤ r.units) (hhigh : r.units < 2 ^ 63 * (one : Int))
    : (r.asI64.toInt - 1) * one < r.units ∧ r.units < (r.asI64.toInt + 1) * one
      ∧ r.asI64.toInt.natAbs = Binary64.units r.magnitude / one := by
  have hval := asI64_toInt hnan hlow hhigh
  have hfloor : Binary64.units r.magnitude / one * one ≤ Binary64.units r.magnitude :=
    div_mul_le_self _ _
  have hceil : Binary64.units r.magnitude < (Binary64.units r.magnitude / one + 1) * one := by
    rw [Nat.mul_comm]
    exact lt_mul_div_succ _ one_pos
  have hpos := one_pos
  rw [units]
  generalize Binary64.units r.magnitude = m at hval hfloor hceil ⊢
  generalize m / one = t at hval hfloor hceil ⊢
  zify at hfloor hceil hpos
  split_ifs at hval ⊢
  · exact ⟨by rw [hval]; linarith, by rw [hval]; linarith, by omega⟩
  · exact ⟨by rw [hval]; linarith, by rw [hval]; linarith, by omega⟩

end F64

/-- The mixed comparison is the comparison of numbers. Only doubles beyond `2 ^ 53` could be
rounded away from the integer they are compared with, and those are integers themselves.
-/
theorem intFloatCmp_eq (i : Int64) {r : F64} (hnan : r.isNaN = false)
    : intFloatCmp i r = compare (i.toInt * F64.one) r.units := by
  have hpos : (0 : Int) < F64.one := by exact_mod_cast F64.one_pos
  have hmul : ∀ {a b : Int}, a ≤ b → a * F64.one ≤ b * F64.one := fun h =>
    mul_le_mul_of_nonneg_right h hpos.le
  unfold intFloatCmp
  rw [hnan, if_neg Bool.false_ne_true, F64.partialCmp_eq hnan (by decide),
    F64.partialCmp_eq hnan (by decide), F64.minI64_units, F64.twoPow63_units]
  simp only [Option.some.injEq, compare_lt_iff_lt, ne_eq]
  by_cases hbelow : r.units < -(2 ^ 63 * F64.one)
  · have hi := hmul i.le_toInt
    rw [if_pos hbelow, eq_comm, compare_gt_iff_gt]
    linarith
  by_cases habove : r.units < 2 ^ 63 * F64.one
  swap
  · have hi := mul_lt_mul_of_pos_right i.toInt_lt hpos
    rw [if_neg hbelow, if_pos habove, eq_comm, compare_lt_iff_lt]
    linarith
  rw [if_neg hbelow, if_neg (not_not.mpr habove)]
  obtain ⟨hlower, hupper, habs⟩ := F64.asI64_bounds hnan (le_of_not_gt hbelow) habove
  rcases lt_trichotomy i.toInt r.asI64.toInt with h | h | h
  · have hi := hmul (Int.le_sub_one_of_lt h)
    rw [compare_lt_iff_lt.mpr h, eq_comm, compare_lt_iff_lt]
    linarith
  · obtain ⟨hexact, hnumber⟩ := F64.ofI64_of_trunc ((congrArg Int.natAbs h).trans habs)
    rw [compare_eq_iff_eq.mpr h, F64.partialCmp_eq hnumber hnan, hexact]
    rfl
  · have hi := hmul (Int.add_one_le_of_lt h)
    rw [compare_gt_iff_gt.mpr h, eq_comm, compare_gt_iff_gt]
    linarith

/-- What values are compared by: the storage class, the number, and the bytes of a text or
blob. `fold` gives the bytes that texts are compared by.
-/
def Value.key (fold : Bytes → Bytes) : Value → Nat × Int × Bytes
  | .null => (0, 0, [])
  | .integer i => (1, i.toInt * F64.one, [])
  | .real r => (1, r.units, [])
  | .text t => (2, 0, fold t)
  | .blob b => (3, 0, b)

def compareKey : Nat × Int × Bytes → Nat × Int × Bytes → Ordering :=
  compareLex (compareOn fun k => k.1)
    (compareLex (compareOn fun k => k.2.1) (compareOn fun k => k.2.2))

instance : Std.TransCmp compareKey :=
  inferInstanceAs (Std.TransCmp (compareLex _ (compareLex _ _)))

def Value.isNumber : Value → Bool
  | .real r => !r.isNaN
  | _ => true

theorem compareKey_number (c : Nat) (n n' : Int)
    : compareKey (c, n, []) (c, n', []) = compare n n' := by
  show (compare c c).then ((compare n n').then .eq) = compare n n'
  rw [compare_eq_iff_eq.mpr rfl]
  cases compare n n' <;> rfl

/-- Two texts, or two blobs, are compared by their bytes. -/
theorem compareKey_bytes (c : Nat) (b b' : Bytes)
    : compareKey (c, 0, b) (c, 0, b') = compare b b' := by
  show (compare c c).then (compare b b') = compare b b'
  rw [compare_eq_iff_eq.mpr rfl]
  rfl

theorem compare_integers (x y : Int) : compare x y = compare (x * F64.one) (y * F64.one) := by
  have hpos : (0 : Int) < F64.one := by exact_mod_cast F64.one_pos
  rcases lt_trichotomy x y with h | h | h
  · rw [compare_lt_iff_lt.mpr h, compare_lt_iff_lt.mpr (mul_lt_mul_of_pos_right h hpos)]
  · rw [h, compare_eq_iff_eq.mpr rfl, compare_eq_iff_eq.mpr rfl]
  · rw [compare_gt_iff_gt.mpr h, compare_gt_iff_gt.mpr (mul_lt_mul_of_pos_right h hpos)]

/-- Without NaNs, values are compared by their keys. -/
theorem cmpValues_key (fold : Bytes → Bytes) {a b : Value} (ha : a.isNumber) (hb : b.isNumber)
    (htext : ∀ x y, ¬(a = .text x ∧ b = .text y))
    : cmpValues a b = compareKey (a.key fold) (b.key fold) := by
  cases a with
  | null => cases b <;> rfl
  | integer i =>
    cases b with
    | integer j => exact (compare_integers _ _).trans (compareKey_number 1 _ _).symm
    | real r =>
      have hr : r.isNaN = false := by simpa [Value.isNumber] using hb
      exact (intFloatCmp_eq i hr).trans (compareKey_number 1 _ _).symm
    | null | text | blob => rfl
  | real r =>
    have hr : r.isNaN = false := by simpa [Value.isNumber] using ha
    cases b with
    | integer i =>
      rw [cmpValues, intFloatCmp_eq i hr]
      exact Std.OrientedOrd.eq_swap.symm.trans (compareKey_number 1 _ _).symm
    | real r' =>
      have hr' : r'.isNaN = false := by simpa [Value.isNumber] using hb
      rw [cmpValues, F64.partialCmp_eq hr hr']
      exact (compareKey_number 1 _ _).symm
    | null | text | blob => rfl
  | text t =>
    cases b with
    | text t' => exact absurd ⟨rfl, rfl⟩ (htext t t')
    | null | integer | real | blob => rfl
  | blob b' =>
    cases b with
    | blob b'' => exact (compareKey_bytes 3 b' b'').symm
    | null | integer | real | text => rfl

def builtInCollations : List Collation := [.binary, .noCase, .rTrim]

def Collation.fold : Collation → Bytes → Bytes
  | .noCase => List.map toAsciiLowercase
  | .rTrim => trimEndSpaces
  | _ => id

theorem cmpText_fold {coll : Collation} (hcoll : coll ∈ builtInCollations) (x y : Bytes)
    : cmpText x y coll = compare (coll.fold x) (coll.fold y) := by
  simp only [builtInCollations, mem_cons, not_mem_nil, or_false] at hcoll
  rcases hcoll with rfl | rfl | rfl <;> rfl

/-- A comparison of an integer with a double is the comparison of their rational values, and
the infinities lie beyond every integer.
-/
structure ExactOnNumbers (cmp : Value → Value → Ordering) : Prop where
  finite : ∀ (i : Int64) (r : F64), r.isFinite
    → cmp (.integer i) (.real r) = compare (i.toInt : ℚ) r.toRat
      ∧ cmp (.real r) (.integer i) = compare r.toRat (i.toInt : ℚ)
  infinite : ∀ (i : Int64) (r : F64), r.isInfinite
    → cmp (.integer i) (.real r) = if r.isNegative then .gt else .lt

namespace F64

theorem isNaN_of_isFinite {r : F64} (h : r.isFinite) : r.isNaN = false := by
  have hlt : r.magnitude < 0x7ff0000000000000 := of_decide_eq_true h
  exact decide_eq_false (by omega)

theorem isNaN_of_isInfinite {r : F64} (h : r.isInfinite) : r.isNaN = false := by
  have heq : r.magnitude = 0x7ff0000000000000 := eq_of_beq h
  exact decide_eq_false (by omega)

theorem compare_toRat (x : Int) (r : F64)
    : compare (x : ℚ) r.toRat = compare (x * one) r.units := by
  have hpos : (0 : ℚ) < one := by exact_mod_cast one_pos
  rcases lt_trichotomy (x * one) r.units with h | h | h
  · rw [compare_lt_iff_lt.mpr h, compare_lt_iff_lt, toRat, lt_div_iff₀ hpos]
    exact_mod_cast h
  · rw [compare_eq_iff_eq.mpr h, compare_eq_iff_eq, toRat, eq_div_iff hpos.ne']
    exact_mod_cast h
  · rw [compare_gt_iff_gt.mpr h, compare_gt_iff_gt, toRat, div_lt_iff₀ hpos]
    exact_mod_cast h

theorem compare_infinite (i : Int64) {r : F64} (h : r.isInfinite)
    : compare (i.toInt * one) r.units = if r.isNegative then .gt else .lt := by
  obtain ⟨k, hk⟩ : ∃ k, k = 1024 := ⟨_, rfl⟩
  have hbits : r.magnitude = (k + 1022) * 2 ^ 52 + 2 ^ 52 := by
    rw [hk]
    exact eq_of_beq h
  have hpow : 2 ^ 63 < 2 ^ k := Nat.pow_lt_pow_right (by decide) (by omega)
  have hfar : 2 ^ 63 * one < 2 ^ k * one := mul_lt_mul_of_pos_right hpow one_pos
  have hlow := mul_le_mul_of_nonneg_right i.le_toInt (Int.natCast_nonneg one)
  have hhigh := mul_le_mul_of_nonneg_right i.toInt_lt.le (Int.natCast_nonneg one)
  zify at hfar
  rw [units, hbits, units_twoPow]
  push_cast
  split_ifs
  · rw [compare_gt_iff_gt]
    linarith
  · rw [compare_lt_iff_lt]
    linarith

end F64

theorem exactOnNumbers {cmp : Value → Value → Ordering}
    (h : ∀ i r, cmp (.integer i) (.real r) = cmpValues (.integer i) (.real r))
    (h' : ∀ i r, cmp (.real r) (.integer i) = cmpValues (.real r) (.integer i))
    : ExactOnNumbers cmp where
  finite i r hr := by
    have hnan := F64.isNaN_of_isFinite hr
    rw [h, h', cmpValues, cmpValues, intFloatCmp_eq i hnan, ← F64.compare_toRat]
    exact ⟨rfl, Std.OrientedOrd.eq_swap.symm⟩
  infinite i r hr := by
    rw [h, cmpValues, intFloatCmp_eq i (F64.isNaN_of_isInfinite hr), F64.compare_infinite i hr]

theorem cmpValues_totalPreorder : TotalPreorderOn (fun v => v.isNumber = true) cmpValues := by
  refine .of_key (Value.key id) compareKey fun a b ha hb => ?_
  by_cases htext : ∃ x y, a = .text x ∧ b = .text y
  · obtain ⟨x, y, rfl, rfl⟩ := htext
    exact (compareKey_bytes 2 x y).symm
  · exact cmpValues_key id ha hb fun x y h => htext ⟨x, y, h⟩

theorem cmpValuesColl_totalPreorder {coll : Collation} (hcoll : coll ∈ builtInCollations)
    : TotalPreorderOn (fun v => v.isNumber = true) (cmpValuesColl · · coll) := by
  refine .of_key (Value.key (coll.fold ∘ asStr)) compareKey fun a b ha hb => ?_
  by_cases htext : ∃ x y, a = .text x ∧ b = .text y
  · obtain ⟨x, y, rfl, rfl⟩ := htext
    exact (cmpText_fold hcoll _ _).trans (compareKey_bytes 2 _ _).symm
  have hplain : cmpValuesColl a b coll = cmpValues a b := by
    unfold cmpValuesColl
    split
    · exact absurd ⟨_, _, rfl, rfl⟩ htext
    · rfl
  exact hplain.trans (cmpValues_key _ ha hb fun x y h => htext ⟨x, y, h⟩)

/-- Values without NaN are totally preordered and numbers are compared exactly, by the binary
order and under every built-in collation.
-/
theorem value_order_total_and_exact
    : (TotalPreorderOn (fun v => v.isNumber = true) cmpValues ∧ ExactOnNumbers cmpValues)
      ∧ ∀ coll ∈ builtInCollations,
        TotalPreorderOn (fun v => v.isNumber = true) (cmpValuesColl · · coll)
          ∧ ExactOnNumbers (cmpValuesColl · · coll) :=
  ⟨⟨cmpValues_totalPreorder, exactOnNumbers (fun _ _ => rfl) (fun _ _ => rfl)⟩,
    fun _ hcoll => ⟨cmpValuesColl_totalPreorder hcoll,
      exactOnNumbers (fun _ _ => rfl) (fun _ _ => rfl)⟩⟩

end GraphiteSql
