import GraphiteSql.Error

/-! Variable-length integers: one to nine bytes, seven bits in each of the first eight. -/

namespace GraphiteSql.Varint

open Lib List Nat

/-- The bytes still read after `result` was accumulated from the first `i` bytes, of which
`left` more may carry a continuation bit.
-/
def decodeFrom : (left result i : Nat) → Bytes → Option (Nat × Nat)
  | _, _, _, [] => none
  | 0, result, i, byte :: _ => some (result * 256 + byte.toNat, i + 1)
  | left + 1, result, i, byte :: rest =>
      let result := result * 128 + byte.toNat % 128
      if byte.toNat < 128 then some (result, i + 1) else decodeFrom left result (i + 1) rest

def decode (buf : Bytes) : Option (Nat × Nat) :=
  decodeFrom 8 0 0 buf

/-- `v as i64`: the two's complement reading of a 64-bit value. -/
def toI64 (v : Nat) : Int64 :=
  (UInt64.ofNat v).toInt64

def decodeI64 (buf : Bytes) : Option (Int64 × Nat) :=
  (decode buf).map fun (v, n) => (toI64 v, n)

def len (value : Nat) : Nat :=
  if value ≤ 0x7f then 1
  else if value ≤ 0x3fff then 2
  else if value ≤ 0x1fffff then 3
  else if value ≤ 0x0fffffff then 4
  else if value ≤ 0x0007ffffffff then 5
  else if value ≤ 0x3ffffffffff then 6
  else if value ≤ 0x1ffffffffffff then 7
  else if value ≤ 0xffffffffffffff then 8
  else 9

/-- The `k` leading groups of `v`, each with its continuation bit, in front of `tail`. -/
def groups : (k v : Nat) → (tail : Bytes) → Bytes
  | 0, _, tail => tail
  | k + 1, v, tail => groups k (v / 128) (UInt8.ofNat (v % 128 + 128) :: tail)

def encode (value : Nat) : Bytes :=
  if len value = 9 then groups 8 (value / 256) [UInt8.ofNat value]
  else groups (len value - 1) (value / 128) [UInt8.ofNat (value % 128)]

def encodeI64 (value : Int64) : Bytes :=
  encode value.toUInt64.toNat

theorem len_pos (v : Nat) : 0 < len v := by
  unfold len
  repeat' split
  all_goals omega

theorem len_le (v : Nat) : len v ≤ 9 := by
  unfold len
  repeat' split
  all_goals omega

theorem groups_length (k v : Nat) (tail : Bytes)
    : (groups k v tail).length = k + tail.length := by
  induction k generalizing v tail with
  | zero => simp [groups]
  | succ k ih =>
    rw [groups, ih, length_cons]
    omega

theorem groups_append (k v : Nat) (tail rest : Bytes)
    : groups k v tail ++ rest = groups k v (tail ++ rest) := by
  induction k generalizing v tail with
  | zero => rfl
  | succ k ih =>
    rw [groups, ih]
    rfl

theorem encode_length (v : Nat) : (encode v).length = len v := by
  have hpos := len_pos v
  unfold encode
  split
  · rename_i h
    rw [h]
    rfl
  · rw [groups_length, length_singleton]
    omega

theorem lt_of_len {v : Nat} (h : len v ≠ 9) : v < 128 ^ len v := by
  unfold len at h ⊢
  repeat' split
  all_goals simp_all
  all_goals omega

theorem le_of_len {v : Nat} (h : 1 < len v) : 128 ^ (len v - 1) ≤ v := by
  unfold len at h ⊢
  repeat' split
  all_goals simp_all
  all_goals omega

/-- Reading `k` groups of `v` accumulates the low `7 * k` bits of `v`. -/
theorem decodeFrom_groups {k left result i v : Nat} {tail : Bytes} (hk : k ≤ left)
    : decodeFrom left result i (groups k v tail)
      = decodeFrom (left - k) (result * 128 ^ k + v % 128 ^ k) (i + k) tail := by
  induction k generalizing v tail with
  | zero => simp [groups, mod_one]
  | succ k ih =>
    have hbyte : (UInt8.ofNat (v % 128 + 128)).toNat = v % 128 + 128 := by
      rw [UInt8.toNat_ofNat']
      omega
    obtain ⟨rest, hrest⟩ : ∃ rest, left - k = rest + 1 := ⟨left - k - 1, by omega⟩
    rw [groups, ih (by omega), hrest, decodeFrom, hbyte, if_neg (by omega)]
    have hleft : left - (k + 1) = rest := by omega
    rw [hleft]
    congr 1
    -- the groups read so far, shifted by one more group
    have hmod : (v % 128 + 128) % 128 = v % 128 := by omega
    have hsplit : v % 128 ^ (k + 1) = v / 128 % 128 ^ k * 128 + v % 128 := by
      rw [Nat.pow_succ, Nat.mul_comm (128 ^ k) 128, mod_mul]
      omega
    rw [hmod, hsplit, Nat.pow_succ, Nat.add_mul, Nat.mul_assoc, Nat.add_assoc]

/-- A decoded varint is the one that was encoded, whatever follows it. -/
theorem decode_encode {v : Nat} (hv : v < 2 ^ 64) (rest : Bytes)
    : decode (encode v ++ rest) = some (v, len v) := by
  have hpos := len_pos v
  have hle := len_le v
  unfold decode encode
  by_cases h9 : len v = 9
  · rw [if_pos h9, groups_append, decodeFrom_groups (Nat.le_refl 8)]
    simp only [Nat.sub_self, singleton_append, decodeFrom, h9, UInt8.toNat_ofNat']
    have hmod : v / 256 % 128 ^ 8 = v / 256 := mod_eq_of_lt (by omega)
    congr 2
    omega
  rw [if_neg h9, groups_append, decodeFrom_groups (by omega)]
  have hlt := lt_of_len h9
  obtain ⟨left, hleft⟩ : ∃ left, 8 - (len v - 1) = left + 1 := ⟨8 - len v, by omega⟩
  have hbyte : (UInt8.ofNat (v % 128)).toNat = v % 128 := by
    rw [UInt8.toNat_ofNat']
    omega
  obtain ⟨k, hk⟩ : ∃ k, len v = k + 1 := ⟨len v - 1, by omega⟩
  rw [hk] at hlt
  have hdiv : v / 128 % 128 ^ k = v / 128 := mod_eq_of_lt (by
    rw [div_lt_iff_lt_mul (by omega)]
    exact hlt)
  rw [hleft, singleton_append, decodeFrom, if_pos (by omega), hk, Nat.add_sub_cancel]
  congr 2
  · omega
  · omega

theorem toI64_toNat (v : Int64) : toI64 v.toUInt64.toNat = v := by
  simp [toI64]

theorem decodeI64_encodeI64 (v : Int64) (rest : Bytes)
    : decodeI64 (encodeI64 v ++ rest) = some (v, len v.toUInt64.toNat) := by
  unfold decodeI64 encodeI64
  rw [decode_encode v.toUInt64.toNat_lt]
  simp only [Option.map_some, toI64_toNat]

end GraphiteSql.Varint
