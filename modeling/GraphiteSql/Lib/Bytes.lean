import Mathlib.Algebra.Order.Ring.Int
import Mathlib.Data.List.Basic
import Mathlib.Data.List.GetD

/-! Byte strings: slices, in-place writes, zero-extending writes, and big-endian integers. -/

namespace Lib

open List

variable {off len i n off' : Nat} {v : UInt32} {b : Bytes}

-- Slices and overwrites of lists

variable {α : Type}
variable {xs ys zs src : List α} {fill : α}

/-- The `len` items from position `off`, when all of them exist. -/
def slice (xs : List α) (off len : Nat) : Option (List α) :=
  if off + len ≤ xs.length then some ((xs.drop off).take len) else none

/-- `xs` with the items from position `off` on replaced by `src`. -/
def overwrite (xs : List α) (off : Nat) (src : List α) : List α :=
  xs.take off ++ src ++ xs.drop (off + src.length)

/-- `overwrite`, refused when `src` does not fit. -/
def patch (xs : List α) (off : Nat) (src : List α) : Option (List α) :=
  if off + src.length ≤ xs.length then some (overwrite xs off src) else none

/-- `xs` cut or extended with `fill` to exactly `n` items. -/
def resize (xs : List α) (n : Nat) (fill : α) : List α :=
  xs.take n ++ List.replicate (n - xs.length) fill

/-- Write `src` at `off`, extending `xs` with `fill` when it is too short. -/
def writeAt (xs : List α) (off : Nat) (src : List α) (fill : α) : List α :=
  overwrite (xs ++ List.replicate (off + src.length - xs.length) fill) off src

theorem slice_eq_some
    : slice xs off len = some ys ↔ off + len ≤ xs.length ∧ (xs.drop off).take len = ys := by
  unfold slice
  by_cases h : off + len ≤ xs.length <;> simp [h]

theorem slice_length (h : slice xs off len = some ys)
    : ys.length = len := by
  obtain ⟨hle, rfl⟩ := slice_eq_some.mp h
  simp only [length_take, length_drop]
  omega

theorem slice_isSome (h : off + len ≤ xs.length)
    : ∃ ys, slice xs off len = some ys :=
  ⟨_, slice_eq_some.mpr ⟨h, rfl⟩⟩

theorem slice_none
    : slice xs off len = none ↔ xs.length < off + len := by
  unfold slice
  split <;> simp <;> omega

theorem slice_congr (hx : off + len ≤ xs.length) (hy : off + len ≤ ys.length)
    (h : ∀ i, off ≤ i → i < off + len → xs[i]? = ys[i]?)
    : slice xs off len = slice ys off len := by
  unfold slice
  rw [if_pos hx, if_pos hy]
  congr 1
  apply ext_getElem?
  intro i
  by_cases hi : i < len
  · simp only [getElem?_take, if_pos hi, getElem?_drop]
    exact h _ (by omega) (by omega)
  · simp only [getElem?_take, if_neg hi]

/-- A slice is determined by the items it ranges over. -/
theorem slice_eq_some_iff_getElem?
    : slice xs off ys.length = some ys
      ↔ off + ys.length ≤ xs.length
        ∧ ∀ i, i < ys.length → xs[off + i]? = ys[i]? := by
  rw [slice_eq_some]
  constructor
  · rintro ⟨hle, h⟩
    refine ⟨hle, fun i hi => ?_⟩
    conv_rhs => rw [← h]
    simp only [getElem?_take, if_pos hi, getElem?_drop]
  rintro ⟨hle, h⟩
  refine ⟨hle, ?_⟩
  apply ext_getElem?
  intro i
  by_cases hi : i < ys.length
  · simp only [getElem?_take, if_pos hi, getElem?_drop]
    exact h i hi
  · rw [getElem?_take, if_neg hi, getElem?_eq_none (by omega)]

/-- The items of a slice, read with `fill` past the end. -/
theorem slice_getD (h : slice xs off len = some ys)
    (hi : i < len) (fill : α) : ys.getD i fill = xs.getD (off + i) fill := by
  obtain ⟨-, rfl⟩ := slice_eq_some.mp h
  rw [getD_eq_getElem?_getD, getD_eq_getElem?_getD, getElem?_take, if_pos hi,
    getElem?_drop]

/-- A slice is `ys` when it reads like `ys`. -/
theorem slice_of_getD (hlen : ys.length = len) (hfit : off + len ≤ xs.length) (fill : α)
    (h : ∀ i < len, xs.getD (off + i) fill = ys.getD i fill) : slice xs off len = some ys := by
  subst hlen
  refine slice_eq_some_iff_getElem?.mpr ⟨hfit, fun i hi => ?_⟩
  have hx : off + i < xs.length := by omega
  have hread := h i hi
  rw [getD_eq_getElem xs fill hx, getD_eq_getElem ys fill hi] at hread
  rw [getElem?_eq_getElem hx, getElem?_eq_getElem hi, hread]

theorem slice_append_left (h : slice xs off len = some ys)
    : slice (xs ++ zs) off len = some ys := by
  obtain ⟨hle, rfl⟩ := slice_eq_some.mp h
  refine slice_eq_some.mpr ⟨by simp only [length_append]; omega, ?_⟩
  rw [drop_append_of_le_length (by omega),
    take_append_of_le_length (by simp only [length_drop]; omega)]

theorem slice_append_of_le (h : off + len ≤ xs.length)
    : slice (xs ++ zs) off len = slice xs off len := by
  obtain ⟨ys, hys⟩ := slice_isSome h
  rw [hys]
  exact slice_append_left hys

theorem slice_append_right
    : slice (xs ++ zs) (xs.length + off) len = slice zs off len := by
  unfold slice
  simp only [length_append, drop_append, drop_eq_nil_of_le (Nat.le_add_right _ _),
    nil_append, Nat.add_sub_cancel_left, Nat.add_assoc]
  by_cases h : off + len ≤ zs.length
  · rw [if_pos (by omega), if_pos h]
  · rw [if_neg (by omega), if_neg h]

theorem slice_self : slice xs 0 xs.length = some xs :=
  slice_eq_some.mpr ⟨by omega, by simp⟩

/-- Adjacent slices are one slice. -/
theorem slice_add
    : slice xs off (ys.length + n) = some (ys ++ zs)
      ↔ slice xs off ys.length = some ys ∧ slice xs (off + ys.length) n = some zs := by
  have hsplit : (xs.drop off).take (ys.length + n)
      = (xs.drop off).take ys.length ++ (xs.drop (off + ys.length)).take n := by
    rw [take_add, drop_drop]
  simp only [slice_eq_some, hsplit]
  constructor
  · rintro ⟨hle, heq⟩
    have hlen : ((xs.drop off).take ys.length).length = ys.length := by
      rw [length_take, length_drop]
      omega
    obtain ⟨hys, hzs⟩ := append_inj heq hlen
    exact ⟨⟨by omega, hys⟩, by omega, hzs⟩
  · rintro ⟨⟨-, hys⟩, hle, hzs⟩
    exact ⟨by omega, by rw [hys, hzs]⟩

theorem slice_append_iff
    : slice xs off (ys ++ zs).length = some (ys ++ zs)
      ↔ slice xs off ys.length = some ys ∧ slice xs (off + ys.length) zs.length = some zs := by
  rw [length_append, slice_add]

/-- What stands from a slice on begins with it. -/
theorem drop_of_slice (h : slice xs off ys.length = some ys)
    : xs.drop off = ys ++ xs.drop (off + ys.length) := by
  obtain ⟨-, htake⟩ := slice_eq_some.mp h
  conv_lhs => rw [← take_append_drop ys.length (xs.drop off), htake, drop_drop]

/-- A slice of a slice. -/
theorem slice_slice {len' : Nat} (h : slice xs off len = some ys) (hfit : off' + len' ≤ len)
    : slice ys off' len' = slice xs (off + off') len' := by
  obtain ⟨hle, rfl⟩ := slice_eq_some.mp h
  unfold slice
  rw [if_pos (by simp only [length_take, length_drop]; omega), if_pos (by omega)]
  congr 1
  rw [drop_take, drop_drop, take_take]
  congr 1
  omega

/-- In a record laid out as consecutive fields, field `k` sits after the fields before it. -/
theorem slice_flatten {fields : List (List α)} {k : Nat} {field : List α}
    (hk : fields[k]? = some field) (hoff : (fields.take k).flatten.length = off)
    (hlen : field.length = len) (post : List α)
    : slice (fields.flatten ++ post) off len = some field := by
  obtain ⟨hlt, hget⟩ := List.getElem?_eq_some_iff.mp hk
  have hsplit : fields.flatten
      = (fields.take k).flatten ++ (field ++ (fields.drop (k + 1)).flatten) := by
    conv_lhs => rw [← take_append_drop k fields, drop_eq_getElem_cons hlt, hget]
    rw [flatten_append, flatten_cons]
  subst hoff hlen
  rw [hsplit, append_assoc, ← Nat.add_zero ((fields.take k).flatten.length),
    slice_append_right, append_assoc]
  exact slice_append_left slice_self

section

variable (h : off + src.length ≤ xs.length)

include h

theorem overwrite_length
    : (overwrite xs off src).length = xs.length := by
  simp only [overwrite, length_append, length_take, length_drop]
  omega

theorem getElem?_overwrite_inside (hi : i < src.length)
    : (overwrite xs off src)[off + i]? = src[i]? := by
  unfold overwrite
  rw [append_assoc, getElem?_append_right (by simp only [length_take]; omega),
    getElem?_append_left (by simp only [length_take]; omega)]
  congr 1
  simp only [length_take]
  omega

theorem getElem?_overwrite_outside
    (hi : i < off ∨ off + src.length ≤ i)
    : (overwrite xs off src)[i]? = xs[i]? := by
  unfold overwrite
  rcases hi with hi | hi
  · rw [append_assoc, getElem?_append_left (by simp only [length_take]; omega),
      getElem?_take, if_pos hi]
  have hlen : (xs.take off ++ src).length = off + src.length := by
    simp only [length_append, length_take]
    omega
  rw [getElem?_append_right (by omega), getElem?_drop]
  congr 1
  omega

/-- What was just written reads back. -/
theorem slice_overwrite_self
    : slice (overwrite xs off src) off src.length = some src :=
  slice_eq_some_iff_getElem?.mpr
    ⟨by rw [overwrite_length h]; exact h, fun _ hi => getElem?_overwrite_inside h hi⟩

/-- A range that a write does not touch keeps its contents. -/
theorem slice_overwrite_disjoint
    (hd : off' + len ≤ off ∨ off + src.length ≤ off')
    : slice (overwrite xs off src) off' len = slice xs off' len := by
  by_cases hfit : off' + len ≤ xs.length
  · refine slice_congr (by rw [overwrite_length h]; exact hfit) hfit fun i hi hi' => ?_
    exact getElem?_overwrite_outside h (by omega)
  · have hover := overwrite_length h
    rw [slice_none.mpr (by omega), slice_none.mpr (by omega)]

end

theorem patch_eq_some
    : patch xs off src = some ys ↔ off + src.length ≤ xs.length ∧ overwrite xs off src = ys := by
  unfold patch
  by_cases h : off + src.length ≤ xs.length <;> simp [h]

theorem patch_length (h : patch xs off src = some ys)
    : ys.length = xs.length := by
  obtain ⟨hle, rfl⟩ := patch_eq_some.mp h
  exact overwrite_length hle

theorem resize_length : (resize xs n fill).length = n := by
  simp only [resize, length_append, length_take, length_replicate]
  omega

/-- A list read with `fill` past its end does not change when it is extended with `fill`. -/
theorem getD_append_replicate
    : (xs ++ replicate n fill).getD i fill = xs.getD i fill := by
  rw [getD_eq_getElem?_getD, getD_eq_getElem?_getD]
  by_cases hi : i < xs.length
  · rw [getElem?_append_left hi]
  · rw [getElem?_append_right (by omega), getElem?_replicate,
      getElem?_eq_none (l := xs) (by omega)]
    split <;> rfl

theorem getD_resize (hi : i < n)
    : (resize xs n fill).getD i fill = xs.getD i fill := by
  rw [resize, getD_append_replicate, getD_eq_getElem?_getD, getD_eq_getElem?_getD,
    getElem?_take, if_pos hi]

theorem getD_resize_past (hi : n ≤ i)
    : (resize xs n fill).getD i fill = fill :=
  getD_eq_default _ _ (by rw [resize_length]; exact hi)

theorem eq_of_getD (fill : α) (hlen : xs.length = ys.length)
    (h : ∀ i < xs.length, xs.getD i fill = ys.getD i fill) : xs = ys := by
  refine ext_getElem hlen fun i hx hy => ?_
  have hi := h i hx
  rwa [getD_eq_getElem xs fill hx, getD_eq_getElem ys fill hy] at hi

theorem resize_zero : resize xs 0 fill = [] := by
  simp [resize]

theorem writeAt_length
    : (writeAt xs off src fill).length = max xs.length (off + src.length) := by
  unfold writeAt
  rw [overwrite_length (by simp only [length_append, length_replicate]; omega)]
  simp only [length_append, length_replicate]
  omega

theorem writeAt_of_fits
    (h : off + src.length ≤ xs.length) : writeAt xs off src fill = overwrite xs off src := by
  unfold writeAt
  rw [Nat.sub_eq_zero_of_le h]
  simp

theorem writeAt_end
    : writeAt xs xs.length src fill = xs ++ src := by
  simp only [writeAt, overwrite, Nat.add_sub_cancel_left]
  simp

theorem getElem?_writeAt_inside (hi : i < src.length)
    : (writeAt xs off src fill)[off + i]? = src[i]? :=
  getElem?_overwrite_inside (by simp only [length_append, length_replicate]; omega) hi

theorem getElem?_writeAt_outside (hx : i < xs.length) (hi : i < off ∨ off + src.length ≤ i)
    : (writeAt xs off src fill)[i]? = xs[i]? := by
  unfold writeAt
  rw [getElem?_overwrite_outside
    (by simp only [length_append, length_replicate]; omega) hi,
    getElem?_append_left hx]

/-- A write read with `fill` past the end: the new items inside, the old ones outside. -/
theorem getD_writeAt_inside (hi : i < src.length)
    : (writeAt xs off src fill).getD (off + i) fill = src.getD i fill := by
  rw [getD_eq_getElem?_getD, getElem?_writeAt_inside hi, getD_eq_getElem?_getD]

theorem getD_writeAt_outside (hi : i < off ∨ off + src.length ≤ i)
    : (writeAt xs off src fill).getD i fill = xs.getD i fill := by
  rw [writeAt, getD_eq_getElem?_getD, getElem?_overwrite_outside
    (by simp only [length_append, length_replicate]; omega) hi,
    ← getD_eq_getElem?_getD, getD_append_replicate]

theorem slice_writeAt_disjoint
    (hfit : off' + len ≤ xs.length) (hd : off' + len ≤ off ∨ off + src.length ≤ off')
    : slice (writeAt xs off src fill) off' len = slice xs off' len := by
  refine slice_congr (by rw [writeAt_length]; omega) hfit fun i hi hi' => ?_
  exact getElem?_writeAt_outside (by omega) (by omega)

/-- A write behind `pre` leaves `pre` alone. -/
theorem writeAt_append_left {pre : List α}
    : writeAt (pre ++ xs) (pre.length + off) src fill = pre ++ writeAt xs off src fill := by
  have hfill : pre.length + off + src.length - (pre ++ xs).length
      = off + src.length - xs.length := by
    rw [length_append]
    omega
  unfold writeAt overwrite
  rw [hfill, append_assoc pre, take_length_add_append, Nat.add_assoc,
    drop_length_add_append]
  simp only [append_assoc]

theorem writeAt_zero {old : List α} (h : old.length = src.length)
    : writeAt (old ++ xs) 0 src fill = src ++ xs := by
  rw [writeAt_of_fits (by rw [length_append]; omega)]
  unfold overwrite
  rw [take_zero, nil_append, Nat.zero_add, ← h, drop_left]

theorem prefix_writeAt_zero : src <+: writeAt xs 0 src fill :=
  prefix_append _ _

theorem slice_writeAt_after (hlen : 0 < len)
    (hoff : off + src.length ≤ off')
    : slice (writeAt xs off src fill) off' len = slice xs off' len := by
  by_cases hfit : off' + len ≤ xs.length
  · exact slice_writeAt_disjoint hfit (Or.inr hoff)
  · rw [slice_none.mpr (by rw [writeAt_length]; omega), slice_none.mpr (by omega)]

theorem writeAt_nil (h : off ≤ xs.length)
    : writeAt xs off [] fill = xs := by
  rw [writeAt_of_fits (by simpa using h)]
  simp [overwrite]

/-- Two writes in a row are one write of both pieces. -/
theorem writeAt_writeAt {src' : List α} (h : off ≤ xs.length)
    : writeAt (writeAt xs off src fill) (off + src.length) src' fill
      = writeAt xs off (src ++ src') fill := by
  apply ext_getElem?
  intro i
  by_cases hlt : i < off
  · have hx : i < xs.length := by omega
    rw [getElem?_writeAt_outside (by rw [writeAt_length]; omega) (by omega),
      getElem?_writeAt_outside hx (by omega), getElem?_writeAt_outside hx (by omega)]
  obtain ⟨j, rfl⟩ := Nat.exists_eq_add_of_le (Nat.le_of_not_lt hlt)
  by_cases hsrc : j < src.length
  · rw [getElem?_writeAt_outside (by rw [writeAt_length]; omega) (by omega),
      getElem?_writeAt_inside hsrc, getElem?_writeAt_inside (by rw [length_append]; omega),
      getElem?_append_left hsrc]
  obtain ⟨k, rfl⟩ := Nat.exists_eq_add_of_le (Nat.le_of_not_lt hsrc)
  by_cases hsrc' : k < src'.length
  · rw [← Nat.add_assoc, getElem?_writeAt_inside hsrc', Nat.add_assoc,
      getElem?_writeAt_inside (by rw [length_append]; omega),
      getElem?_append_right (by omega), Nat.add_sub_cancel_left]
  by_cases hx : off + (src.length + k) < xs.length
  · rw [getElem?_writeAt_outside (by rw [writeAt_length]; omega) (by omega),
      getElem?_writeAt_outside hx (by omega),
      getElem?_writeAt_outside hx (by rw [length_append]; omega)]
  · rw [getElem?_eq_none (by simp only [writeAt_length]; omega),
      getElem?_eq_none (by simp only [writeAt_length, length_append]; omega)]

-- Big-endian integers

abbrev Bytes := List UInt8

def u16ToBytes (v : UInt16) : Bytes :=
  [.ofNat (v.toNat / 256), .ofNat v.toNat]

def u16OfBytes (a b : UInt8) : UInt16 :=
  .ofNat (a.toNat * 256 + b.toNat)

def u32ToBytes (v : UInt32) : Bytes :=
  [.ofNat (v.toNat / 16777216), .ofNat (v.toNat / 65536), .ofNat (v.toNat / 256),
    .ofNat v.toNat]

def u32OfBytes (a b c d : UInt8) : UInt32 :=
  .ofNat (((a.toNat * 256 + b.toNat) * 256 + c.toNat) * 256 + d.toNat)

def be16 (b : Bytes) (off : Nat) : Option UInt16 :=
  match slice b off 2 with
  | some [x, y] => some (u16OfBytes x y)
  | _ => none

def be32 (b : Bytes) (off : Nat) : Option UInt32 :=
  match slice b off 4 with
  | some [x, y, z, w] => some (u32OfBytes x y z w)
  | _ => none

@[simp]
theorem u16ToBytes_length (v : UInt16) : (u16ToBytes v).length = 2 := rfl

@[simp]
theorem u32ToBytes_length (v : UInt32) : (u32ToBytes v).length = 4 := rfl

theorem u16ToBytes_u16OfBytes (a b : UInt8) : u16ToBytes (u16OfBytes a b) = [a, b] := by
  have ha := a.toNat_lt
  have hb := b.toNat_lt
  simp only [u16ToBytes, u16OfBytes, UInt16.toNat_ofNat', cons.injEq, and_true]
  refine ⟨?_, ?_⟩ <;> apply UInt8.toNat_inj.mp <;> simp only [UInt8.toNat_ofNat'] <;> omega

theorem u16OfBytes_u16ToBytes {v : UInt16} {a b : UInt8} (h : u16ToBytes v = [a, b])
    : u16OfBytes a b = v := by
  have hv := v.toNat_lt
  obtain ⟨rfl, rfl⟩ := h
  apply UInt16.toNat_inj.mp
  simp only [u16OfBytes, UInt16.toNat_ofNat', UInt8.toNat_ofNat']
  omega

theorem u32ToBytes_u32OfBytes (a b c d : UInt8)
    : u32ToBytes (u32OfBytes a b c d) = [a, b, c, d] := by
  have ha := a.toNat_lt
  have hb := b.toNat_lt
  have hc := c.toNat_lt
  have hd := d.toNat_lt
  simp only [u32ToBytes, u32OfBytes, UInt32.toNat_ofNat', cons.injEq, and_true]
  refine ⟨?_, ?_, ?_, ?_⟩ <;> apply UInt8.toNat_inj.mp <;> simp only [UInt8.toNat_ofNat'] <;>
    omega

theorem u32OfBytes_u32ToBytes {a b c d : UInt8} (h : u32ToBytes v = [a, b, c, d])
    : u32OfBytes a b c d = v := by
  have hv := v.toNat_lt
  obtain ⟨rfl, rfl, rfl, rfl⟩ := h
  apply UInt32.toNat_inj.mp
  simp only [u32OfBytes, UInt32.toNat_ofNat', UInt8.toNat_ofNat']
  omega

theorem u32ToBytes_injective {w : UInt32} (h : u32ToBytes v = u32ToBytes w) : v = w :=
  (u32OfBytes_u32ToBytes (v := v) rfl).symm.trans (u32OfBytes_u32ToBytes h.symm)

/-- Reading a 16-bit integer is finding its two bytes. -/
theorem be16_eq_some {v : UInt16}
    : be16 b off = some v ↔ slice b off 2 = some (u16ToBytes v) := by
  unfold be16
  constructor
  · intro h
    split at h
    · rename_i x y hs
      cases h
      rw [hs, u16ToBytes_u16OfBytes]
    · cases h
  · intro h
    simp only [h, u16ToBytes]
    exact congrArg some (u16OfBytes_u16ToBytes rfl)

/-- Reading a 32-bit integer is finding its four bytes. -/
theorem be32_eq_some
    : be32 b off = some v ↔ slice b off 4 = some (u32ToBytes v) := by
  unfold be32
  constructor
  · intro h
    split at h
    · rename_i x y z w hs
      cases h
      rw [hs, u32ToBytes_u32OfBytes]
    · cases h
  · intro h
    simp only [h, u32ToBytes]
    exact congrArg some (u32OfBytes_u32ToBytes rfl)

theorem be32_isSome (h : off + 4 ≤ b.length) : ∃ v, be32 b off = some v := by
  obtain ⟨ys, hys⟩ := slice_isSome h
  have hlen := slice_length hys
  match ys, hlen with
  | [x, y, z, w], _ => exact ⟨u32OfBytes x y z w, by simp only [be32, hys]⟩

theorem be16_isSome (h : off + 2 ≤ b.length) : ∃ v, be16 b off = some v := by
  obtain ⟨ys, hys⟩ := slice_isSome h
  have hlen := slice_length hys
  match ys, hlen with
  | [x, y], _ => exact ⟨u16OfBytes x y, by simp only [be16, hys]⟩

end Lib
