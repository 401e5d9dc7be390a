import GraphiteSql.Lib.Bytes
import Mathlib.Data.Nat.Bitwise

/-! Bitmaps stored in bytes, least significant bit first. -/

namespace Lib.Bitmap

open List Nat

def get (map : Bytes) (i : Nat) : Bool :=
  map.getD (i / 8) 0 &&& (1 <<< UInt8.ofNat (i % 8)) != 0

def set (map : Bytes) (i : Nat) : Bytes :=
  map.modify (i / 8) fun b => b ||| (1 <<< UInt8.ofNat (i % 8))

theorem mask_toNat {k : Nat} (hk : k < 8) : (1 <<< UInt8.ofNat k : UInt8).toNat = 2 ^ k := by
  have hpow : 2 ^ k < 2 ^ 8 := Nat.pow_lt_pow_right (by decide) hk
  rw [UInt8.toNat_shiftLeft, UInt8.toNat_ofNat', mod_eq_of_lt (lt_trans hk (by decide)),
    mod_eq_of_lt hk, UInt8.toNat_one, one_shiftLeft, mod_eq_of_lt hpow]

theorem mask_test {k : Nat} (hk : k < 8) (b : UInt8)
    : (b &&& (1 <<< UInt8.ofNat k) != 0) = b.toNat.testBit k := by
  have hand : (b &&& (1 <<< UInt8.ofNat k)).toNat = (b.toNat.testBit k).toNat * 2 ^ k := by
    rw [UInt8.toNat_and, mask_toNat hk, and_two_pow]
  rw [Bool.eq_iff_iff, bne_iff_ne, ne_eq, ← UInt8.toNat_inj, hand]
  cases b.toNat.testBit k <;> simp

theorem test_or_mask {k : Nat} (hk : k < 8) (b : UInt8) (j : Nat)
    : (b ||| (1 <<< UInt8.ofNat k)).toNat.testBit j = (decide (k = j) || b.toNat.testBit j) := by
  rw [UInt8.toNat_or, mask_toNat hk, testBit_or, testBit_two_pow, Bool.or_comm]

theorem length_set (map : Bytes) (i : Nat) : (set map i).length = map.length :=
  length_modify ..

theorem get_eq (map : Bytes) (i : Nat) : get map i = (map.getD (i / 8) 0).toNat.testBit (i % 8) :=
  mask_test (mod_lt _ (by decide)) _

theorem get_set {map : Bytes} {i : Nat} (hi : i / 8 < map.length) (j : Nat)
    : get (set map i) j = (decide (i = j) || get map j) := by
  rw [get_eq, get_eq, set, getD_eq_getElem?_getD, getD_eq_getElem?_getD,
    getElem?_modify]
  by_cases hbyte : i / 8 = j / 8
  · have hsame : (i % 8 = j % 8) ↔ i = j := by omega
    have hj : j / 8 < map.length := hbyte ▸ hi
    simp only [hbyte, if_true, getElem?_eq_getElem hj, Option.map_eq_map, Option.map_some,
      Option.getD_some]
    rw [test_or_mask (mod_lt _ (by decide)), decide_eq_decide.mpr hsame]
  · have hne : i ≠ j := fun h => hbyte (congrArg (· / 8) h)
    simp only [hbyte, if_false, decide_eq_false hne, Bool.false_or, id_map']

theorem get_replicate (n i : Nat) : get (replicate n 0) i = false := by
  have hzero : (replicate n (0 : UInt8)).getD (i / 8) 0 = 0 := by
    rw [getD_eq_getElem?_getD, getElem?_replicate]
    split <;> rfl
  rw [get_eq, hzero]
  exact zero_testBit _

end Lib.Bitmap
