import GraphiteSql.Fts5.Segment

/-! Buffers that are written varint by varint: reading the one at a position, and cutting such a
buffer between two of them.
-/

namespace GraphiteSql

open Lib List Nat Varint

variable {v pos : Nat} {buf x y a : Bytes}

theorem Varint.encode_ne_nil (v : Nat) : encode v ≠ [] := by
  intro h
  have hlen := encode_length v
  have hpos := len_pos v
  rw [h, length_nil] at hlen
  omega

theorem Varint.encode_length_pos (v : Nat) : 0 < (encode v).length :=
  length_pos_of_ne_nil (encode_ne_nil v)

theorem Varint.decodeFrom_length {left result i n : Nat}
    (h : decodeFrom left result i buf = some (v, n)) : i < n ∧ n ≤ i + buf.length := by
  induction buf generalizing left result i with
  | nil =>
    rw [decodeFrom] at h
    cases h
  | cons byte rest ih =>
    rw [length_cons]
    cases left with
    | zero =>
      simp only [decodeFrom, Option.some.injEq, Prod.mk.injEq] at h
      omega
    | succ left =>
      simp only [decodeFrom] at h
      split at h
      · simp only [Option.some.injEq, Prod.mk.injEq] at h
        omega
      · have hrest := ih h
        omega

theorem Varint.decode_length {n : Nat} (h : decode buf = some (v, n))
    : 0 < n ∧ n ≤ buf.length := by
  have hlen := decodeFrom_length h
  omega

theorem Varint.eq_of_head (hv : v < 2 ^ 64) {b : UInt8} {rest : Bytes}
    (h : encode v = b :: rest) (hb : b.toNat < 128) : v = b.toNat := by
  have hdecode := decode_encode hv []
  rw [h] at hdecode
  simp only [decode, append_nil, decodeFrom, if_pos hb, Nat.zero_mul,
    Nat.zero_add, Option.some.injEq, Prod.mk.injEq] at hdecode
  omega

theorem Varint.head_ne (hv : v < 2 ^ 64) {b : UInt8} (hb : b.toNat < 128)
    (hne : v ≠ b.toNat) (post : Bytes) : (encode v ++ post)[0]? ≠ some b := by
  intro h
  obtain ⟨c, rest, hcons⟩ := exists_cons_of_ne_nil (encode_ne_nil v)
  rw [hcons, cons_append, getElem?_cons_zero, Option.some.injEq] at h
  rw [h] at hcons
  exact hne (eq_of_head hv hcons hb)

namespace Fts5

/-- What follows a part that stands at `pos`. -/
theorem drop_after (h : buf.drop pos = x ++ y)
    : buf.drop (pos + x.length) = y := by
  rw [← drop_drop, h, drop_left]

/-- A part that stands at `pos` lies inside the buffer. -/
theorem length_of_drop (hx : x ≠ []) (h : buf.drop pos = x ++ y)
    : pos + x.length + y.length = buf.length := by
  have hlen := congrArg length h
  have hpos := length_pos_of_ne_nil hx
  rw [length_drop, length_append] at hlen
  omega

theorem readVarint_encode {post : Bytes} (hv : v < 2 ^ 64)
    (h : buf.drop pos = encode v ++ post)
    : readVarint buf pos = some (v, pos + (encode v).length) := by
  have hlen := length_of_drop (encode_ne_nil v) h
  rw [readVarint, if_pos (by omega), h, decode_encode hv, Option.map_some,
    encode_length]

theorem slice_of_drop (hpos : pos ≤ buf.length)
    (h : buf.drop pos = x ++ y) : slice buf pos x.length = some x := by
  have hlen := congrArg length h
  rw [length_drop, length_append] at hlen
  rw [slice, if_pos (by omega), h, take_left]

inductive Varints : Bytes → Prop where
  | nil : Varints []
  | cons {v : Nat} {rest : Bytes} (hv : v < 2 ^ 64) (hrest : Varints rest)
      : Varints (Varint.encode v ++ rest)

theorem Varints.single (hv : v < 2 ^ 64) : Varints (encode v) := by
  have h := Varints.cons hv Varints.nil
  rwa [append_nil] at h

theorem Varints.append {b : Bytes} (ha : Varints a) (hb : Varints b) : Varints (a ++ b) := by
  induction ha with
  | nil => exact hb
  | cons hv _ ih =>
    rw [append_assoc]
    exact .cons hv ih

/-- A non-empty sequence begins with a whole varint, and the rest is a sequence again. -/
theorem Varints.decode (h : Varints buf) (hne : buf ≠ [])
    : ∃ v n, decode buf = some (v, n) ∧ Varints (buf.drop n) := by
  cases h with
  | nil => exact absurd rfl hne
  | @cons v rest hv hrest =>
    refine ⟨v, len v, decode_encode hv rest, ?_⟩
    rwa [← encode_length, drop_left]

/-- Cutting whole varints off leaves a sequence, and cuts no further than its end. -/
theorem Varints.prefixLoop {ret : Nat} (nMax : Int) (fuel : Nat)
    (h : Varints (buf.drop ret)) (hret : ret ≤ buf.length)
    : ret ≤ prefixLoop buf nMax fuel ret ∧ prefixLoop buf nMax fuel ret ≤ buf.length
      ∧ Varints (buf.drop (prefixLoop buf nMax fuel ret)) := by
  induction fuel generalizing ret with
  | zero => exact ⟨Nat.le_refl ret, hret, h⟩
  | succ fuel ih =>
    simp only [Fts5.prefixLoop]
    by_cases hnil : buf.drop ret = []
    · rw [hnil]
      exact ⟨Nat.le_refl ret, hret, h⟩
    obtain ⟨v, n, hdecode, hrest⟩ := h.decode hnil
    have hlen := (decode_length hdecode).2
    rw [length_drop] at hlen
    rw [drop_drop] at hrest
    simp only [hdecode]
    split
    · exact ⟨Nat.le_refl ret, hret, h⟩
    · have hloop := ih hrest (by omega)
      exact ⟨by omega, hloop.2.1, hloop.2.2⟩

theorem Varints.poslistPrefix (h : Varints buf) (hne : buf ≠ []) (nMax : Int)
    : ∃ n, poslistPrefix buf nMax = .ok n ∧ 0 < n ∧ n ≤ buf.length ∧ Varints (buf.drop n) := by
  obtain ⟨v, n, hdecode, hrest⟩ := h.decode hne
  obtain ⟨hpos, hle⟩ := decode_length hdecode
  simp only [Fts5.poslistPrefix, hdecode, Option.map_some, Option.getD_some]
  split
  · have hloop := Varints.prefixLoop nMax buf.length hrest hle
    exact ⟨_, rfl, by omega, hloop.2.1, hloop.2.2⟩
  · exact ⟨n, rfl, hpos, hle, hrest⟩

/-- The merge writer's cut leaves a sequence. -/
theorem Varints.reach {nC : Nat} (nReq : Int) (fuel : Nat)
    (h : Varints (a.drop nC)) (hle : nC ≤ a.length)
    : nC ≤ SegWriter.reach a nReq fuel nC ∧ SegWriter.reach a nReq fuel nC ≤ a.length
      ∧ Varints (a.drop (SegWriter.reach a nReq fuel nC)) := by
  induction fuel generalizing nC with
  | zero => exact ⟨Nat.le_refl nC, hle, h⟩
  | succ fuel ih =>
    simp only [SegWriter.reach]
    split
    · by_cases hnil : a.drop nC = []
      · rw [hnil]
        exact ⟨Nat.le_refl nC, hle, h⟩
      obtain ⟨v, n, hdecode, hrest⟩ := h.decode hnil
      have hlen := (decode_length hdecode).2
      rw [length_drop] at hlen
      rw [drop_drop] at hrest
      simp only [hdecode]
      have hloop := ih hrest (by omega)
      exact ⟨by omega, hloop.2.1, hloop.2.2⟩
    · exact ⟨Nat.le_refl nC, hle, h⟩

theorem Varints.reach_pos (h : Varints a) (hne : a ≠ []) {nReq : Int} (hreq : 0 < nReq)
    : 0 < SegWriter.reach a nReq a.length 0 := by
  obtain ⟨v, n, hdecode, hrest⟩ := h.decode hne
  obtain ⟨hpos, hle⟩ := decode_length hdecode
  obtain ⟨k, hk⟩ := Nat.exists_eq_add_of_lt (Nat.lt_of_lt_of_le hpos hle)
  rw [hk, SegWriter.reach, if_pos (by omega), drop_zero, hdecode]
  simp only [Nat.zero_add]
  have hloop := Varints.reach nReq k hrest hle
  omega

end Fts5

end GraphiteSql
