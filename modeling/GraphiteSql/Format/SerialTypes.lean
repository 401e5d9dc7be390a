import Mathlib.Tactic.IntervalCases
import Mathlib.Tactic.Ring
import Mathlib.Tactic.Zify
import GraphiteSql.Format.Record

/-! Column values and their serial types: the bytes of a value decode to it, and an integer gets
the narrowest serial type that represents it.
-/

namespace GraphiteSql

open Lib List Nat

variable {n : Nat} {i : Int64}

theorem beNat_from (bytes : Bytes) (acc : Nat)
    : bytes.foldl (fun v b => v * 256 + b.toNat) acc = acc * 256 ^ bytes.length + beNat bytes := by
  unfold beNat
  induction bytes generalizing acc with
  | nil => simp
  | cons head tail ih =>
    rw [foldl_cons, foldl_cons, ih, ih (0 * 256 + head.toNat), length_cons]
    ring

theorem beNat_cons (head : UInt8) (tail : Bytes)
    : beNat (head :: tail) = head.toNat * 256 ^ tail.length + beNat tail := by
  rw [beNat, foldl_cons, beNat_from, Nat.zero_add]

theorem beNat_lt (bytes : Bytes) : beNat bytes < 256 ^ bytes.length := by
  induction bytes with
  | nil => decide
  | cons head tail ih =>
    have hhead := head.toNat_lt
    rw [beNat_cons]
    calc head.toNat * 256 ^ tail.length + beNat tail
        < head.toNat * 256 ^ tail.length + 256 ^ tail.length := Nat.add_lt_add_left ih _
      _ = (head.toNat + 1) * 256 ^ tail.length := by ring
      _ ≤ 256 * 256 ^ tail.length := mul_le_mul_right _ hhead
      _ = 256 ^ tail.length * 256 := mul_comm _ _

theorem intBytes_length (i : Int64) (n : Nat) : (intBytes i n).length = n := by
  induction n with
  | zero => rfl
  | succ n ih => rw [intBytes, length_cons, ih]

/-- The low bytes of an integer are its remainder. -/
theorem beNat_intBytes (i : Int64) (n : Nat)
    : beNat (intBytes i n) = i.toUInt64.toNat % 256 ^ n := by
  induction n with
  | zero => simp [intBytes, beNat, mod_one]
  | succ n ih =>
    have hsplit : i.toUInt64.toNat % 256 ^ (n + 1)
        = i.toUInt64.toNat % 256 ^ n + 256 ^ n * (i.toUInt64.toNat / 256 ^ n % 256) := by
      rw [pow_succ, mod_mul]
    rw [intBytes, beNat_cons, intBytes_length, ih, UInt8.toNat_ofNat', hsplit]
    ring

def FitsWidth (i : Int64) (n : Nat) : Prop :=
  -(256 ^ n : Int) ≤ 2 * i.toInt ∧ 2 * i.toInt < 256 ^ n

theorem toUInt64_toNat_emod (i : Int64) (hn : n ≤ 8)
    : ((i.toUInt64.toNat % 256 ^ n : Nat) : Int) = i.toInt % 256 ^ n := by
  have hdvd : (256 ^ n : Int) ∣ 2 ^ 64 := by
    obtain ⟨k, hk⟩ := Nat.exists_eq_add_of_le hn
    refine ⟨256 ^ k, ?_⟩
    rw [← pow_add, ← hk]
    rfl
  have hmod : (i.toUInt64.toNat : Int) = i.toInt % 2 ^ 64 := by
    have hlt := i.toUInt64.toNat_lt
    have hbmod : i.toInt = (i.toUInt64.toNat : Int).bmod (2 ^ 64) := by
      exact BitVec.toInt_eq_toNat_bmod _
    rw [hbmod]
    exact (Int.emod_eq_of_lt (by omega) (by omega)).symm.trans Int.bmod_emod.symm
  rw [Int.natCast_emod, hmod]
  exact Int.emod_emod_of_dvd _ hdvd

/-- Sign extension undoes the truncation to a width in which the integer fits. -/
theorem signExtend_intBytes (hn : n + 1 ≤ 8) (hfits : FitsWidth i (n + 1))
    : signExtend (intBytes i (n + 1)) (n + 1) = i := by
  obtain ⟨hlow, hhigh⟩ := hfits
  have hv := toUInt64_toNat_emod i hn
  have heven : 256 ^ (n + 1) = 2 * (128 * 256 ^ n) := by ring
  unfold signExtend
  rw [take_of_length_le (le_of_eq (intBytes_length i (n + 1))), beNat_intBytes]
  generalize i.toUInt64.toNat % 256 ^ (n + 1) = v at hv ⊢
  have hcast : ((256 : Int) ^ (n + 1)) = ((256 ^ (n + 1) : Nat) : Int) := by push_cast; rfl
  rw [hcast] at hlow hhigh hv ⊢
  rw [heven] at hlow hhigh hv ⊢
  generalize 128 * 256 ^ n = half at hlow hhigh hv ⊢
  by_cases hneg : i.toInt < 0
  · have hwrap : (v : Int) = i.toInt + (2 * half : Nat) := by
      rw [hv, ← Int.add_emod_right, Int.emod_eq_of_lt (by omega) (by omega)]
    rw [if_neg (by omega), hwrap, Int.add_sub_cancel, Int64.ofInt_toInt]
  · have hsame : (v : Int) = i.toInt := by
      rw [hv, Int.emod_eq_of_lt (by omega) (by omega)]
    rw [if_pos (by omega), ← Int64.ofInt_eq_ofNat, hsame, Int64.ofInt_toInt]

/-- Whatever `n` bytes are read, the integer they give fits in them. -/
theorem signExtend_fits {body : Bytes} (hn : n + 1 ≤ 8) (hlen : body.length = n + 1)
    : FitsWidth (signExtend body (n + 1)) (n + 1) := by
  have hsmall : 128 * 256 ^ n ≤ 2 ^ 63 := by
    calc 128 * 256 ^ n ≤ 128 * 256 ^ 7 :=
          mul_le_mul_left _ (Nat.pow_le_pow_right (by decide) (by omega))
      _ = 2 ^ 63 := by decide
  have hlt := beNat_lt body
  have hcast : ((256 : Int) ^ (n + 1)) = ((256 ^ (n + 1) : Nat) : Int) := by push_cast; rfl
  unfold FitsWidth signExtend
  dsimp only
  rw [take_of_length_le (le_of_eq hlen), hcast]
  rw [hlen] at hlt
  split_ifs with hpos
  · rw [← Int64.ofInt_eq_ofNat, Int64.toInt_ofInt_of_le (by omega) (by omega)]
    omega
  · rw [Int64.toInt_ofInt_of_le (by omega) (by omega)]
    omega

def intCodes : List (Nat × Nat) := [(1, 1), (2, 2), (3, 3), (4, 4), (5, 6), (6, 8)]

theorem intCodes_spec {code : Nat} (h : (code, n) ∈ intCodes)
    : contentLen code = some n ∧ (∃ k, n = k + 1 ∧ k + 1 ≤ 8)
      ∧ ∀ body encoding, decodeValue code body encoding = decodeInt body n := by
  simp only [intCodes, mem_cons, Prod.mk.injEq, not_mem_nil, or_false] at h
  rcases h with ⟨rfl, rfl⟩ | ⟨rfl, rfl⟩ | ⟨rfl, rfl⟩ | ⟨rfl, rfl⟩ | ⟨rfl, rfl⟩ | ⟨rfl, rfl⟩
  all_goals exact ⟨rfl, ⟨_, rfl, by decide⟩, fun _ _ => rfl⟩

theorem intCodes_width {code : Nat} (h : (code, n) ∈ intCodes)
    : n = 1 ∨ n = 2 ∨ n = 3 ∨ n = 4 ∨ n = 6 ∨ n = 8 := by
  simp only [intCodes, mem_cons, Prod.mk.injEq, not_mem_nil, or_false] at h
  omega

/-- An integer other than 0 and 1 gets the first width in which it fits. -/
theorem serialTypeFor_integer (h0 : i ≠ 0) (h1 : i ≠ 1)
    : ∃ n, (serialTypeFor (.integer i), n) ∈ intCodes ∧ FitsWidth i n
      ∧ ∀ code' n', (code', n') ∈ intCodes → FitsWidth i n' → n ≤ n' := by
  have hne0 : i.toInt ≠ 0 := fun h => h0 (Int64.toInt_inj.mp h)
  have hne1 : i.toInt ≠ 1 := fun h => h1 (Int64.toInt_inj.mp h)
  have hlow := i.le_toInt
  have hhigh := i.toInt_lt
  unfold serialTypeFor
  dsimp only
  rw [if_neg hne0, if_neg hne1]
  split_ifs
  on_goal 1 => refine ⟨1, ?_⟩
  on_goal 2 => refine ⟨2, ?_⟩
  on_goal 3 => refine ⟨3, ?_⟩
  on_goal 4 => refine ⟨4, ?_⟩
  on_goal 5 => refine ⟨6, ?_⟩
  on_goal 6 => refine ⟨8, ?_⟩
  all_goals
    refine ⟨by decide, ⟨by omega, by omega⟩, fun code' n' hmem hfits => ?_⟩
    obtain ⟨hlow', hhigh'⟩ := hfits
    rcases intCodes_width hmem with rfl | rfl | rfl | rfl | rfl | rfl <;> omega

theorem contentLen_bytes (h : 12 ≤ n)
    : contentLen n = some (if n % 2 = 0 then (n - 12) / 2 else (n - 13) / 2) := by
  unfold contentLen
  split <;> first | omega | skip
  split_ifs <;> rfl

theorem decodeValue_bytes (h : 12 ≤ n) (body : Bytes) (encoding : TextEncoding)
    : decodeValue n body encoding
      = if n % 2 = 0 then .ok (.blob body) else (decodeText body encoding).map .text := by
  unfold decodeValue
  split <;> first | omega | skip
  simp only [h, true_and]

def Represents (serial : Nat) (v : Value) : Prop :=
  ∃ body : Bytes, contentLen serial = some body.length ∧ decodeValue serial body .utf8 = .ok v

/-- The bytes of an encoded value have the length its serial type tells, and decode to it. -/
theorem decodeValue_encodeBody (v : Value)
    : contentLen (serialTypeFor v) = some (encodeBody v).length
      ∧ decodeValue (serialTypeFor v) (encodeBody v) .utf8 = .ok v := by
  cases v with
  | null => exact ⟨rfl, rfl⟩
  | integer i =>
    by_cases h0 : i = 0
    · subst h0
      exact ⟨rfl, rfl⟩
    by_cases h1 : i = 1
    · subst h1
      exact ⟨rfl, rfl⟩
    obtain ⟨n, hcode, hfits, -⟩ := serialTypeFor_integer h0 h1
    obtain ⟨hlen, ⟨k, rfl, hk⟩, hdecode⟩ := intCodes_spec hcode
    have hbody : encodeBody (.integer i) = intBytes i (k + 1) := by
      rw [encodeBody, if_neg (not_or.mpr ⟨h0, h1⟩), hlen]
      rfl
    have hslice : slice (intBytes i (k + 1)) 0 (k + 1) = some (intBytes i (k + 1)) := by
      have hself : slice (intBytes i (k + 1)) 0 (intBytes i (k + 1)).length
        = some (intBytes i (k + 1)) := slice_self
      rwa [intBytes_length] at hself
    rw [hbody, intBytes_length, hdecode, decodeInt, firstBytes, hslice]
    refine ⟨hlen, ?_⟩
    show Except.ok (Value.integer (signExtend (intBytes i (k + 1)) (k + 1))) = _
    rw [signExtend_intBytes hk hfits]
  | real r =>
    have hnat : beNat r.toBytes = r.bits.toNat := by
      rw [F64.toBytes, beNat_intBytes]
      exact mod_eq_of_lt r.bits.toNat_lt
    refine ⟨rfl, ?_⟩
    show Except.ok (Value.real { bits := .ofNat (beNat r.toBytes) }) = _
    rw [hnat, UInt64.ofNat_toNat]
  | text t =>
    have hodd : ¬(13 + 2 * t.length) % 2 = 0 := by omega
    have hlen : (13 + 2 * t.length - 13) / 2 = t.length := by omega
    rw [serialTypeFor, contentLen_bytes (by omega), decodeValue_bytes (by omega), if_neg hodd,
      if_neg hodd, hlen]
    exact ⟨rfl, rfl⟩
  | blob b =>
    have heven : (12 + 2 * b.length) % 2 = 0 := by omega
    have hlen : (12 + 2 * b.length - 12) / 2 = b.length := by omega
    rw [serialTypeFor, contentLen_bytes (by omega), decodeValue_bytes (by omega), if_pos heven,
      if_pos heven, hlen]
    exact ⟨rfl, rfl⟩

theorem decodeInt_fits {body : Bytes} (hn : n + 1 ≤ 8)
    (hlen : body.length = n + 1) (h : decodeInt body (n + 1) = .ok (.integer i))
    : FitsWidth i (n + 1) := by
  have hself : slice body 0 (n + 1) = some body := by
    rw [← hlen]
    exact slice_self
  rw [decodeInt, firstBytes, hself] at h
  cases h
  exact signExtend_fits hn hlen

/-- Only the literals 0 and 1 and the integer codes stand for integers. -/
theorem represents_integer {serial : Nat} (h : Represents serial (.integer i))
    : i = 0 ∨ i = 1 ∨ ∃ n, (serial, n) ∈ intCodes ∧ FitsWidth i n := by
  obtain ⟨body, hlen, hvalue⟩ := h
  have hint : ∀ n, (serial, n + 1) ∈ intCodes → ∃ n, (serial, n) ∈ intCodes ∧ FitsWidth i n := by
    intro n hcode
    obtain ⟨hwidth, ⟨k, hk, hle⟩, hdecode⟩ := intCodes_spec hcode
    rw [hwidth] at hlen
    rw [hdecode] at hvalue
    exact ⟨n + 1, hcode, decodeInt_fits (by omega) (Option.some.inj hlen).symm hvalue⟩
  rcases lt_or_ge serial 12 with hsmall | hlarge
  · interval_cases serial
    · cases hvalue
    · exact .inr (.inr (hint 0 (by decide)))
    · exact .inr (.inr (hint 1 (by decide)))
    · exact .inr (.inr (hint 2 (by decide)))
    · exact .inr (.inr (hint 3 (by decide)))
    · exact .inr (.inr (hint 5 (by decide)))
    · exact .inr (.inr (hint 7 (by decide)))
    · obtain ⟨bytes, -, hreal⟩ := except_bind_eq_ok.mp hvalue
      cases hreal
    · cases hvalue
      exact .inl rfl
    · cases hvalue
      exact .inr (.inl rfl)
    · cases hlen
    · cases hlen
  · rw [decodeValue_bytes hlarge] at hvalue
    split_ifs at hvalue
    · cases hvalue
    · cases hvalue

theorem serialTypeFor_narrowest (i : Int64)
    : ∃ n, contentLen (serialTypeFor (.integer i)) = some n
      ∧ Represents (serialTypeFor (.integer i)) (.integer i)
      ∧ ∀ serial m, Represents serial (.integer i) → contentLen serial = some m → n ≤ m := by
  obtain ⟨hlen, hdecode⟩ := decodeValue_encodeBody (.integer i)
  refine ⟨_, hlen, ⟨_, hlen, hdecode⟩, fun serial m hrep hm => ?_⟩
  by_cases hliteral : i = 0 ∨ i = 1
  · rw [encodeBody, if_pos hliteral]
    exact zero_le m
  obtain ⟨h0, h1⟩ := not_or.mp hliteral
  obtain ⟨n, hcode, -, hleast⟩ := serialTypeFor_integer h0 h1
  rw [(intCodes_spec hcode).1] at hlen
  rcases represents_integer hrep with h | h | ⟨n', hcode', hfits'⟩
  · exact absurd h h0
  · exact absurd h h1
  · rw [(intCodes_spec hcode').1] at hm
    rw [← Option.some.inj hlen, ← Option.some.inj hm]
    exact hleast serial n' hcode' hfits'

end GraphiteSql
