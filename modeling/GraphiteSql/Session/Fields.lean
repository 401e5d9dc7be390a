import GraphiteSql.Lib.Codec
import GraphiteSql.Format.SerialTypes
import GraphiteSql.Session.Changeset

/-! Reading back the varints, values and records of a changeset. -/

namespace GraphiteSql.Session

open Lib List Varint Reader

@[simp]
theorem u8_cons (b : UInt8) (rest : Bytes) : u8 (b :: rest) = .ok b rest := rfl

theorem u8_recovers (b : UInt8) : Recovers u8 [b] b True := .of_sound fun _ => rfl

theorem take_append (bytes rest : Bytes)
    : Reader.take bytes.length (bytes ++ rest) = .ok bytes rest := by
  unfold Reader.take
  rw [estate_get_bind, if_neg (by simp), drop_left, take_left]
  rfl

theorem take_length {n : Nat} {s bytes rest : Bytes} (h : Reader.take n s = .ok bytes rest)
    : bytes.length = n := by
  unfold Reader.take at h
  rw [estate_get_bind] at h
  split_ifs at h with hshort
  · cases h
  · cases h
    rw [length_take]
    omega

/-- A varint that is decoded lies in the first bytes, has seven bits a byte unless the ninth is
reached, and is read by the reader of a changeset.
-/
theorem varintFrom_decodeFrom {left result i v n : Nat} {s : Bytes}
    (h : decodeFrom left result i s = some (v, n))
    : ∃ k, n = i + k ∧ 0 < k ∧ k ≤ s.length ∧ (k ≤ left → v < (result + 1) * 128 ^ k)
      ∧ varintFrom left result s = .ok v (s.drop k) := by
  induction left generalizing result i s with
  | zero =>
    cases s with
    | nil => cases h
    | cons byte tail =>
      cases h
      exact ⟨1, rfl, Nat.one_pos, length_pos_of_ne_nil (cons_ne_nil _ _), nofun, rfl⟩
  | succ left ih =>
    cases s with
    | nil => cases h
    | cons byte tail =>
      rw [decodeFrom] at h
      rw [varintFrom, estate_bind_ok (u8_cons _ _)]
      split_ifs at h ⊢
      · cases h
        exact ⟨1, rfl, Nat.one_pos, length_pos_of_ne_nil (cons_ne_nil _ _), fun _ => by omega, rfl⟩
      · obtain ⟨k, hn, -, hlen, hlt, hread⟩ := ih h
        refine ⟨k + 1, by omega, Nat.succ_pos k, Nat.succ_le_succ hlen, fun hk => ?_, hread⟩
        have hrest := hlt (Nat.le_of_succ_le_succ hk)
        have hresult : result * 128 + byte.toNat % 128 + 1 ≤ (result + 1) * 128 := by omega
        calc v < (result * 128 + byte.toNat % 128 + 1) * 128 ^ k := hrest
          _ ≤ (result + 1) * 128 * 128 ^ k := Nat.mul_le_mul_right _ hresult
          _ = (result + 1) * 128 ^ (k + 1) := by rw [Nat.pow_succ', Nat.mul_assoc]

theorem varint_encode {v : Nat} (hv : v < 2 ^ 64) (rest : Bytes)
    : varint (encode v ++ rest) = .ok v rest := by
  obtain ⟨k, hk, -, -, -, hread⟩ := varintFrom_decodeFrom (decode_encode hv rest)
  rw [Nat.zero_add] at hk
  rw [varint, hread, ← hk, ← encode_length, drop_left]

/-- No byte string that is shorter decodes to the same number. -/
theorem len_le_of_decode {v n : Nat} {s : Bytes} (h : decode s = some (v, n))
    : len v ≤ s.length := by
  obtain ⟨k, -, hpos, hlen, hlt, -⟩ := varintFrom_decodeFrom h
  refine Nat.le_trans ?_ hlen
  have h9 := len_le v
  by_contra hshort
  have hlow := @le_of_len v (by omega)
  have hhigh := hlt (by omega)
  have hpow := Nat.pow_le_pow_right (show 0 < 128 by decide) (show k ≤ len v - 1 by omega)
  omega

theorem groups_lowGroups (v : Nat) (tail : Bytes)
    : groups (lowGroups v).length v tail
      = (lowGroups v).reverse.map (fun g => .ofNat (g + 128)) ++ tail := by
  induction v using lowGroups.induct generalizing tail with
  | case1 =>
    rw [lowGroups, if_pos rfl]
    rfl
  | case2 v hv ih =>
    rw [lowGroups, if_neg hv, length_cons, groups, ih, reverse_cons, map_append, append_assoc]
    rfl

theorem lt_lowGroups (v : Nat) : v < 128 ^ (lowGroups v).length := by
  induction v using lowGroups.induct with
  | case1 =>
    rw [lowGroups]
    exact Nat.one_pos
  | case2 v hv ih =>
    rw [lowGroups, if_neg hv, length_cons]
    omega

theorem lowGroups_length {k v : Nat} (h : v < 128 ^ k) : (lowGroups v).length ≤ k := by
  induction k generalizing v with
  | zero =>
    have hv : v = 0 := by omega
    rw [hv, lowGroups]
    exact Nat.le_refl 0
  | succ k ih =>
    rw [lowGroups]
    split_ifs
    · exact Nat.zero_le _
    refine Nat.succ_le_succ (ih ?_)
    omega

/-- Below `2 ^ 56` the two writers agree. -/
theorem appendVarint_eq_encode {v : Nat} (hv : v < 2 ^ 56) : appendVarint v = encode v := by
  have h9 : len v ≠ 9 := fun h9 => by
    have hlow := @le_of_len v (by omega)
    rw [h9] at hlow
    omega
  have hpos := len_pos v
  have hlt := lt_of_len h9
  rw [appendVarint, encode, if_neg h9]
  split_ifs with hsmall
  · have h1 : len v = 1 := if_pos hsmall
    rw [h1, Nat.mod_eq_of_lt (by omega)]
    rfl
  · omega
  obtain ⟨k, hk⟩ : ∃ k, len v = k + 1 := ⟨_, (Nat.succ_pred_eq_of_pos hpos).symm⟩
  have hlen : (lowGroups (v / 128)).length = k := by
    rw [hk] at hlt
    have hgroups := lt_lowGroups (v / 128)
    refine Nat.le_antisymm (lowGroups_length (by omega)) ?_
    by_contra hshort
    have hlow := @le_of_len v (by omega)
    have hpow := Nat.pow_le_pow_right (show 0 < 128 by decide) (Nat.lt_of_not_le hshort)
    rw [hk, Nat.add_sub_cancel] at hlow
    rw [Nat.pow_succ] at hpow
    omega
  rw [lowGroups, if_neg (by omega), hk, Nat.add_sub_cancel, ← hlen, groups_lowGroups]

theorem varint_appendVarint {v : Nat} (hv : v < 2 ^ 56) (rest : Bytes)
    : varint (appendVarint v ++ rest) = .ok v rest := by
  rw [appendVarint_eq_encode hv]
  exact varint_encode (by omega) rest

/-- From `2 ^ 56` on, the ninth of ten bytes is read as the last one. -/
theorem varint_long {v v' : Nat} {rest rest' : Bytes} (hv : 2 ^ 56 ≤ v)
    (h : varint (appendVarint v ++ rest) = .ok v' rest') : v' ≠ v := by
  have hlast : (UInt8.ofNat (v / 256 % 128 + 128)).toNat = v / 256 % 128 + 128 := by
    rw [UInt8.toNat_ofNat']
    omega
  have hmod := Nat.mod_le (v / 256 / 128) (128 ^ 8)
  have hdecode : decode (appendVarint v ++ rest)
      = some ((0 * 128 ^ 8 + v / 256 / 128 % 128 ^ 8) * 256
        + (UInt8.ofNat (v / 256 % 128 + 128)).toNat, 9) := by
    rw [appendVarint, if_neg (by omega), if_pos hv, groups_append, groups,
      decode, decodeFrom_groups (Nat.le_refl 8)]
    rfl
  obtain ⟨k, -, -, -, -, hread⟩ := varintFrom_decodeFrom hdecode
  cases hread.symm.trans h
  omega

theorem varint_recovers (v : Nat) : Recovers varint (appendVarint v) v (v < 2 ^ 56) :=
  ⟨fun hv rest => varint_appendVarint hv rest,
    fun hv _ _ _ h => varint_long (Nat.le_of_not_lt hv) h⟩

/-- The varints of the file format read back, by both readers and in the fewest bytes. The writer
of changesets writes the same bytes, which its reader reads back, below `2 ^ 56` only.
-/
theorem varint_codecs {v : Nat} (hv : v < 2 ^ 64)
    : (∀ s, Varint.decode (Varint.encode v ++ s) = some (v, Varint.len v)) ∧ Varint.len v ≤ 9
      ∧ (∀ s n, Varint.decode s = some (v, n) → (Varint.encode v).length ≤ s.length)
      ∧ (∀ s, Reader.varint (Varint.encode v ++ s) = .ok v s)
      ∧ ((appendVarint v = Varint.encode v ∧ ∀ s, Reader.varint (appendVarint v ++ s) = .ok v s)
        ↔ v < 2 ^ 56) := by
  refine ⟨decode_encode hv, len_le v, fun s n h => ?_, varint_encode hv, ?_⟩
  · rw [encode_length]
    exact len_le_of_decode h
  constructor
  · rintro ⟨-, hread⟩
    by_contra hlong
    exact varint_long (Nat.le_of_not_lt hlong) (hread []) rfl
  · exact fun h => ⟨appendVarint_eq_encode h, varint_appendVarint h⟩

theorem varint_codecs_eight_bytes
    : appendVarint (2 ^ 56 - 1) = Varint.encode (2 ^ 56 - 1)
      ∧ ∀ s, Reader.varint (appendVarint (2 ^ 56 - 1) ++ s) = .ok (2 ^ 56 - 1) s :=
  (varint_codecs (by decide)).2.2.2.2.mpr (by decide)

theorem appendVarint_ten_bytes
    : (Varint.encode (2 ^ 56)).length = 9 ∧ (appendVarint (2 ^ 56)).length = 10
      ∧ Reader.varint (appendVarint (2 ^ 56)) = .ok (2 ^ 49 + 128) [0] :=
  ⟨by decide, by decide, rfl⟩

/-- The value is written so that it can be read back: a text is UTF-8, and no length needs a
varint of more than eight bytes.
-/
def Readable : Value → Prop
  | .text s => validUtf8 s ∧ s.length < 2 ^ 56
  | .blob b => b.length < 2 ^ 56
  | _ => True

instance : DecidablePred Readable
  | .text _ => inferInstanceAs (Decidable (_ ∧ _))
  | .blob _ => inferInstanceAs (Decidable (_ < _))
  | .null | .integer _ | .real _ => inferInstanceAs (Decidable True)

def ReadableField (f : Option Value) : Prop :=
  ∀ v ∈ f, Readable v

instance : DecidablePred ReadableField :=
  fun f => inferInstanceAs (Decidable (∀ v ∈ f, Readable v))

theorem lengthPrefixed_recovers (bytes : Bytes)
    : Recovers lengthPrefixed (appendVarint bytes.length ++ bytes) bytes
      (bytes.length < 2 ^ 56) := by
  refine ((varint_recovers bytes.length).bind (.of_sound (take_append bytes)) ?_).congr
    (and_iff_left trivial)
  intro n s bytes' s' hne htake heq
  rw [heq] at htake
  exact hne (take_length htake).symm

theorem take_intBytes (i : Int64) (rest : Bytes)
    : Reader.take 8 (intBytes i 8 ++ rest) = .ok (intBytes i 8) rest := by
  have htake := take_append (intBytes i 8) rest
  rwa [intBytes_length] at htake

theorem integer_recovers (i : Int64)
    : Recovers (Reader.payload tInt) (intBytes i 8) (some (.integer i)) True := by
  have hlow := i.le_toInt
  have hhigh := i.toInt_lt
  have hsign : signExtend (intBytes i 8) 8 = i :=
    signExtend_intBytes (n := 7) (by decide) ⟨by omega, by omega⟩
  refine .of_sound fun rest => ?_
  show (do return some (Value.integer (signExtend (← take 8) 8)) : Reader _) _ = _
  rw [estate_bind_ok (take_intBytes i rest), hsign]
  rfl

theorem real_recovers (r : F64)
    : Recovers (Reader.payload tFloat) r.toBytes (some (.real r)) True := by
  refine .of_sound fun rest => ?_
  show (do return some (Value.real { bits := .ofNat (beNat (← take 8)) }) : Reader _)
    (intBytes r.bits.toInt64 8 ++ rest) = _
  rw [estate_bind_ok (take_intBytes _ rest), beNat_intBytes, UInt64.toUInt64_toInt64,
    Nat.mod_eq_of_lt (show r.bits.toNat < 256 ^ 8 from r.bits.toNat_lt), UInt64.ofNat_toNat]
  rfl

/-- A text is read back if it is UTF-8. Otherwise its length is written as 0. -/
theorem text_recovers (s : Bytes)
    : Recovers (payload tText) (appendVarint (asStr s).length ++ s) (some (.text s))
      (Readable (.text s)) := by
  have hpayload : payload tText = lengthPrefixed >>= text := (rfl)
  rw [hpayload]
  by_cases hutf8 : validUtf8 s
  · have hstr : asStr s = s := if_pos hutf8
    have htext : ∀ rest, text s ([] ++ rest) = .ok (some (.text s)) rest := fun rest => by
      rw [text, hutf8]
      rfl
    have h := (lengthPrefixed_recovers s).bind (.of_sound htext) fun bytes t f t' hne hok => by
      unfold text at hok
      split_ifs at hok
      · cases hok
      · cases hok
        exact fun heq => hne (by cases heq; rfl)
    rw [append_nil] at h
    rw [hstr]
    exact h.congr (by simp [Readable, hutf8])
  · have hstr : asStr s = [] := if_neg hutf8
    refine ⟨fun hgood => absurd hgood.1 hutf8, fun _ rest f rest' hok heq => ?_⟩
    rw [hstr, append_assoc] at hok
    have hempty : lengthPrefixed (appendVarint ([] : Bytes).length ++ (s ++ rest))
        = .ok [] (s ++ rest) := rfl
    rw [estate_bind_ok hempty] at hok
    cases hok
    cases heq
    exact hutf8 rfl

theorem blob_recovers (b : Bytes)
    : Recovers (payload tBlob) (appendVarint b.length ++ b) (some (.blob b))
      (Readable (.blob b)) :=
  (lengthPrefixed_recovers b).map (g := fun b => some (Value.blob b)) fun b' heq => by
    cases heq
    rfl

/-- Every field is read back exactly if it is readable. -/
theorem value_recovers (f : Option Value)
    : Recovers value (appendField f) f (ReadableField f) := by
  have htag : ∀ (t : UInt8) (rest : Bytes), u8 ([t] ++ rest) = .ok t rest := fun _ _ => rfl
  cases f with
  | none =>
    refine (Recovers.after (htag tOmit) (.pure none)).congr ?_
    simp [ReadableField]
  | some v =>
    have hfield : ReadableField (some v) ↔ Readable v := by simp [ReadableField]
    cases v with
    | null =>
      have hnull := Recovers.after (f := payload) (htag tNull) (.pure (some Value.null))
      exact hnull.congr (by simp [hfield, Readable])
    | integer i =>
      exact (Recovers.after (htag tInt) (integer_recovers i)).congr (by simp [hfield, Readable])
    | real r =>
      exact (Recovers.after (htag tFloat) (real_recovers r)).congr (by simp [hfield, Readable])
    | text s => exact (Recovers.after (htag tText) (text_recovers s)).congr hfield.symm
    | blob b => exact (Recovers.after (htag tBlob) (blob_recovers b)).congr hfield.symm

theorem fields_recover {ι : Type} (l : List ι) (present : ι → Bool) (field : ι → Option Value)
    (habsent : ∀ i ∈ l, present i = false → field i = none)
    : Recovers (fields (l.map present))
      (l.flatMap fun i => if present i then appendField (field i) else []) (l.map field)
      (∀ i ∈ l, ReadableField (field i)) := by
  refine Recovers.mapM fun i hi => ?_
  cases hpresent : present i with
  | true => exact value_recovers (field i)
  | false =>
    rw [habsent i hi hpresent]
    exact (Recovers.pure none).congr (by simp [ReadableField])

theorem record_recovers (fields : List (Option Value))
    : Recovers (record fields.length) (fields.flatMap appendField) fields
      (∀ f ∈ fields, ReadableField f) := by
  have h := fields_recover fields (fun _ => true) id (fun _ _ hfalse => by cases hfalse)
  rw [map_id, map_const'] at h
  exact h

end GraphiteSql.Session
