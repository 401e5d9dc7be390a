import Mathlib.Order.Bounds.Defs
import GraphiteSql.Format.SerialTypes

/-! The record codec: what is encoded decodes to the same values, and decoding an arbitrary byte
string stays inside it.
-/

namespace GraphiteSql

open Lib List Nat

variable {values : List Value}

namespace Varint

theorem len_mono {v w : Nat} (h : v ≤ w) : len v ≤ len w := by
  by_contra hlt
  have hpos := len_pos w
  have hle := len_le v
  have hw : w < 128 ^ len w := lt_of_len (by omega)
  have hv : 128 ^ (len v - 1) ≤ v := le_of_len (by omega)
  have hpow : 128 ^ len w ≤ 128 ^ (len v - 1) := Nat.pow_le_pow_right (by decide) (by omega)
  omega

end Varint

theorem headerLenFrom_least {passes serialLen width : Nat} (hpasses : 10 ≤ passes + width)
    (hrise : width ≤ Varint.len (width + serialLen))
    (hleast : ∀ h, Varint.len h + serialLen = h → width + serialLen ≤ h)
    : IsLeast {h | Varint.len h + serialLen = h}
      (headerLenFrom passes serialLen (width + serialLen)) := by
  induction passes generalizing width with
  | zero =>
    have := Varint.len_le (width + serialLen)
    omega
  | succ passes ih =>
    rw [headerLenFrom]
    split_ifs with hdone
    · exact ⟨hdone, hleast⟩
    · refine ih (by omega) (Varint.len_mono (by omega)) fun h hh => ?_
      have := Varint.len_mono (hleast h hh)
      omega

theorem headerLen_least (serialLen : Nat)
    : IsLeast {h | Varint.len h + serialLen = h} (headerLenFrom 9 serialLen (serialLen + 1)) := by
  rw [Nat.add_comm serialLen 1]
  refine headerLenFrom_least (by omega) (Varint.len_pos _) fun h hh => ?_
  have := Varint.len_pos h
  omega

-- Decoding what was encoded

def serialBytes (values : List Value) : Bytes :=
  values.flatMap fun v => Varint.encode (serialTypeFor v)

def bodyBytes (values : List Value) : Bytes :=
  values.flatMap encodeBody

def isizeMax : Nat := 2 ^ 63 - 1

theorem slice_drop {bytes pre rest : Bytes} (h : bytes = pre ++ rest)
    : slice bytes pre.length (bytes.length - pre.length) = some rest := by
  subst h
  rw [length_append, Nat.add_sub_cancel_left]
  exact slice_append_right.trans slice_self

theorem slice_middle {bytes pre mid post : Bytes} (h : bytes = pre ++ (mid ++ post))
    : slice bytes pre.length mid.length = some mid := by
  have hmid : slice (mid ++ post) 0 mid.length = some mid := slice_append_left slice_self
  have hshift : slice (pre ++ (mid ++ post)) (pre.length + 0) mid.length
    = slice (mid ++ post) 0 mid.length := slice_append_right
  rw [h, ← hmid, ← hshift, add_zero]

/-- The columns of an encoded record, read from where `pre` and `mid` end: `pre` is the header
read so far, `mid` the bodies read so far.
-/
theorem decodeColumns_encoded {pre mid bytes : Bytes} {bound : Nat}
    (hbytes : bytes = pre ++ serialBytes values ++ mid ++ bodyBytes values)
    (hbound : (serialBytes values).length ≤ bound) (hmax : bytes.length ≤ isizeMax)
    (hserial : ∀ v ∈ values, serialTypeFor v < 2 ^ 64)
    : decodeColumns bytes (pre.length + (serialBytes values).length) .utf8 bound pre.length
      (pre.length + (serialBytes values).length + mid.length) = .ok values := by
  induction values generalizing pre mid bound with
  | nil =>
    cases bound with
    | zero => exact if_pos (Nat.le_refl _)
    | succ bound =>
      exact if_pos (Nat.le_refl _)
  | cons v vs ih =>
    obtain ⟨hlen, hvalue⟩ := decodeValue_encodeBody v
    have hcons : serialBytes (v :: vs) = Varint.encode (serialTypeFor v) ++ serialBytes vs :=
      flatMap_cons
    have hbody : bodyBytes (v :: vs) = encodeBody v ++ bodyBytes vs := flatMap_cons
    have hwidth := Varint.encode_length (serialTypeFor v)
    have hpos := Varint.len_pos (serialTypeFor v)
    have htotal := congrArg List.length hbytes
    rw [hcons, hbody] at hbytes htotal
    rw [hcons, length_append] at hbound ⊢
    obtain ⟨bound, rfl⟩ : ∃ k, bound = k + 1 := ⟨bound - 1, by omega⟩
    have hrest := slice_drop (hbytes.trans (by simp only [append_assoc])
      : bytes = pre ++ (Varint.encode (serialTypeFor v)
          ++ (serialBytes vs ++ mid ++ encodeBody v ++ bodyBytes vs)))
    have hcolumn := slice_middle (hbytes.trans (by simp only [append_assoc])
      : bytes = (pre ++ Varint.encode (serialTypeFor v) ++ serialBytes vs ++ mid)
          ++ (encodeBody v ++ bodyBytes vs))
    have hrec := @ih (pre ++ Varint.encode (serialTypeFor v)) (mid ++ encodeBody v) bound
      (hbytes.trans (by simp only [append_assoc])) (by omega)
      (fun w hw => hserial w (mem_cons_of_mem _ hw))
    unfold isizeMax at hmax
    simp only [length_append, hwidth] at hrec hcolumn hbound htotal ⊢
    rw [decodeColumns, if_neg (by omega), hrest, orPanic_bind,
      Varint.decode_encode (hserial v mem_cons_self), orCorrupt_bind]
    dsimp only
    rw [usizeAdd_bind (by omega), hlen, orCorrupt_bind,
      usizeAdd_bind (by omega), if_neg (by omega)]
    simp only [Nat.add_assoc] at hcolumn hrec ⊢
    rw [hcolumn, orPanic_bind, hvalue, hrec]
    rfl

def recordHeaderLen (values : List Value) : Nat :=
  headerLenFrom 9 (serialBytes values).length ((serialBytes values).length + 1)

theorem encodeRecord_eq (values : List Value)
    : encodeRecord values
        = Varint.encode (recordHeaderLen values) ++ serialBytes values ++ bodyBytes values := rfl

/-- A column whose record fits in memory has a serial type of 64 bits. -/
theorem serialTypeFor_lt (hmax : (encodeRecord values).length ≤ isizeMax)
    {v : Value} (hv : v ∈ values) : serialTypeFor v < 2 ^ 64 := by
  obtain ⟨before, after, rfl⟩ := append_of_mem hv
  have hhead := Varint.len_pos (recordHeaderLen (before ++ v :: after))
  rw [encodeRecord_eq] at hmax
  simp only [serialBytes, bodyBytes, flatMap_append, flatMap_cons, length_append,
    Varint.encode_length, isizeMax] at hmax
  by_contra hlarge
  have hlen : Varint.len (serialTypeFor v) = 9 := by
    have h9 := Varint.len_mono (Nat.le_of_not_lt hlarge)
    have hle := Varint.len_le (serialTypeFor v)
    have h2 : Varint.len (2 ^ 64) = 9 := by decide
    omega
  have hbody : serialTypeFor v ≤ 13 + 2 * (encodeBody v).length := by
    cases v with
    | null => exact zero_le _
    | integer i =>
      unfold serialTypeFor
      dsimp only
      split_ifs <;> omega
    | real r => exact le_add_right_of_le (show 7 ≤ 13 by decide)
    | text t => exact Nat.le_refl _
    | blob b => exact Nat.add_le_add_right (by decide) _
  omega

/-- What is encoded decodes to the same values. -/
theorem decodeRecord_encodeRecord (hmax : (encodeRecord values).length ≤ isizeMax)
    : decodeRecord (encodeRecord values) .utf8 = .ok values := by
  have hleast : Varint.len (recordHeaderLen values) + (serialBytes values).length
    = recordHeaderLen values := (headerLen_least (serialBytes values).length).1
  have hwidth := Varint.encode_length (recordHeaderLen values)
  have htotal := congrArg List.length (encodeRecord_eq values)
  simp only [length_append, hwidth] at htotal
  have hword : (encodeRecord values).length < 2 ^ 63 := lt_of_le_of_lt hmax (by decide)
  have hdecode : Varint.decode (encodeRecord values)
      = some (recordHeaderLen values, Varint.len (recordHeaderLen values)) := by
    rw [encodeRecord_eq, append_assoc]
    exact Varint.decode_encode (by omega) _
  have hcolumns := @decodeColumns_encoded values (Varint.encode (recordHeaderLen values)) []
    (encodeRecord values) (recordHeaderLen values) (by rw [encodeRecord_eq, append_nil])
    (by omega) hmax (fun v hv => serialTypeFor_lt hmax hv)
  rw [hwidth, hleast] at hcolumns
  rw [decodeRecord, hdecode, orCorrupt_bind]
  dsimp only
  rw [if_neg (by omega)]
  exact hcolumns

-- Decoding arbitrary bytes

/-- The values are decoded one after the other from bytes inside the input, the first from
position `pos` on.
-/
inductive ColumnsAt (bytes : Bytes) (encoding : TextEncoding) : Nat → List Value → Prop where
  | nil (pos : Nat) : ColumnsAt bytes encoding pos []
  | cons {pos len serial : Nat} {column : Bytes} {v : Value} {vs : List Value}
      (inside : pos + len ≤ bytes.length) (width : contentLen serial = some len)
      (bytesAt : slice bytes pos len = some column)
      (decoded : decodeValue serial column encoding = .ok v)
      (rest : ColumnsAt bytes encoding (pos + len) vs) : ColumnsAt bytes encoding pos (v :: vs)

/-- An outcome that is a value with `good`, or corruption reported as an error: not a panic and
not an endless loop.
-/
def Reports {α : Type} (good : α → Prop) : Result α → Prop
  | .ok a => good a
  | .error e => ∃ msg, e = .corrupt msg

theorem Reports.bind {α β : Type} {good : α → Prop} {good' : β → Prop} {x : Result α}
    {f : α → Result β} (hx : Reports good x) (hf : ∀ a, good a → Reports good' (f a))
    : Reports good' (x >>= f) := by
  cases x with
  | ok a => exact hf a hx
  | error e => exact hx

theorem reports_orCorrupt {α : Type} (msg : String) (x : Option α)
    : Reports (fun a => x = some a) (orCorrupt msg x) := by
  cases x with
  | none => exact ⟨msg, rfl⟩
  | some a => rfl

namespace Varint

/-- A varint takes one to nine bytes of the input and stands for 64 bits. -/
theorem decodeFrom_bounds {left result i : Nat} {buf : Bytes} {v used : Nat}
    (hi : i + left = 8) (hresult : result < 128 ^ i)
    (h : decodeFrom left result i buf = some (v, used)) : i < used ∧ used ≤ 9 ∧ v < 2 ^ 64 := by
  induction left generalizing result i buf with
  | zero =>
    have hi8 : i = 8 := by omega
    subst hi8
    cases buf with
    | nil => cases h
    | cons byte rest =>
      have hbyte := byte.toNat_lt
      cases h
      omega
  | succ left ih =>
    cases buf with
    | nil => cases h
    | cons byte rest =>
      have hnext : result * 128 + byte.toNat % 128 < 128 ^ (i + 1) := by
        omega
      have hpow : 128 ^ (i + 1) ≤ 128 ^ 8 := Nat.pow_le_pow_right (by decide) (by omega)
      rw [decodeFrom] at h
      split_ifs at h with hlast
      · cases h
        omega
      · obtain ⟨hlow, hhigh, hv⟩ := ih (by omega) hnext h
        exact ⟨by omega, hhigh, hv⟩

theorem decode_bounds {buf : Bytes} {v used : Nat} (h : decode buf = some (v, used))
    : 0 < used ∧ used ≤ 9 ∧ v < 2 ^ 64 :=
  decodeFrom_bounds (by decide) (by decide) h

end Varint

theorem contentLen_lt {serial len : Nat} (hserial : serial < 2 ^ 64)
    (h : contentLen serial = some len) : len < 2 ^ 63 := by
  rcases lt_or_ge serial 12 with hsmall | hlarge
  · have hle : len ≤ 8 := by
      interval_cases serial <;> simp [contentLen] at h <;> omega
    omega
  · rw [contentLen_bytes hlarge] at h
    have hlen := Option.some.inj h
    split_ifs at hlen <;> omega

theorem decodeText_reports (body : Bytes) (encoding : TextEncoding)
    : Reports (fun _ => True) (decodeText body encoding) := by
  unfold decodeText
  split
  · trivial
  split_ifs
  · exact ⟨_, rfl⟩
  · cases decodeUtf16 (utf16Units (encoding == .utf16Be) body) with
    | none => exact ⟨_, rfl⟩
    | some t => trivial

/-- A body of its serial type's length is never indexed out of bounds. -/
theorem decodeValue_reports {serial : Nat} {body : Bytes} (encoding : TextEncoding)
    (h : contentLen serial = some body.length)
    : Reports (fun _ => True) (decodeValue serial body encoding) := by
  have hfirst : ∀ n, body.length = n → firstBytes body n = .ok body := fun n hn => by
    rw [firstBytes, ← hn, slice_self]
    rfl
  have hint : ∀ n, some n = some body.length → Reports (fun _ => True) (decodeInt body n) := by
    intro n hn
    rw [decodeInt, hfirst n (Option.some.inj hn).symm]
    trivial
  rcases lt_or_ge serial 12 with hsmall | hlarge
  · interval_cases serial
    · trivial
    · exact hint 1 h
    · exact hint 2 h
    · exact hint 3 h
    · exact hint 4 h
    · exact hint 6 h
    · exact hint 8 h
    · show Reports _ (do return Value.real { bits := .ofNat (beNat (← firstBytes body 8)) })
      rw [hfirst 8 (Option.some.inj h).symm]
      trivial
    · trivial
    · trivial
    · cases h
    · cases h
  · rw [decodeValue_bytes hlarge]
    split_ifs
    · trivial
    have htext := decodeText_reports body encoding
    cases hdecoded : decodeText body encoding with
    | ok t => trivial
    | error e =>
      rw [hdecoded] at htext
      exact htext

/-- Every column is read inside the input, and the header bounds their number. -/
theorem decodeColumns_reports {bytes : Bytes} {headerLen : Nat} (encoding : TextEncoding)
    (hmax : bytes.length ≤ isizeMax) (hheader : headerLen ≤ bytes.length) {bound hdr body : Nat}
    (hbound : headerLen ≤ hdr + bound) (hbody : body ≤ bytes.length)
    : Reports (ColumnsAt bytes encoding body)
      (decodeColumns bytes headerLen encoding bound hdr body) := by
  have hword : bytes.length < 2 ^ 63 := lt_of_le_of_lt hmax (by decide)
  induction bound generalizing hdr body with
  | zero =>
    rw [decodeColumns, if_pos (show headerLen ≤ hdr from hbound)]
    exact .nil body
  | succ bound ih =>
    rw [decodeColumns]
    split_ifs with hdone
    · exact .nil body
    obtain ⟨rest, hrest⟩ : ∃ rest, slice bytes hdr (bytes.length - hdr) = some rest :=
      slice_isSome (by omega)
    rw [hrest]
    refine (reports_orCorrupt _ _).bind fun ⟨raw, used⟩ hdecode => ?_
    obtain ⟨hused, hused9, hraw⟩ := Varint.decode_bounds hdecode
    dsimp only
    rw [usizeAdd_bind (by omega)]
    refine (reports_orCorrupt _ _).bind fun len hlen => ?_
    have hlen63 := contentLen_lt hraw hlen
    rw [usizeAdd_bind (by omega)]
    split_ifs with hpast
    · exact ⟨_, rfl⟩
    obtain ⟨column, hcolumn⟩ : ∃ column, slice bytes body len = some column :=
      slice_isSome (by omega)
    rw [hcolumn, orPanic_bind]
    have hvalue := decodeValue_reports encoding (hlen.trans (by rw [slice_length hcolumn]))
    cases hv : decodeValue raw column encoding with
    | error e =>
      rw [hv] at hvalue
      exact hvalue
    | ok v =>
      refine (ih (by omega) (by omega)).bind fun vs hvs => ?_
      exact .cons (by omega) hlen hcolumn hv hvs

/-- A record decodes to values that lie inside it one after the other from the end of its
header, or is reported as corrupt.
-/
def DecodesInside (bytes : Bytes) (encoding : TextEncoding) : Prop :=
  Reports
    (fun values => ∃ headerLen n, Varint.decode bytes = some (headerLen, n)
      ∧ headerLen ≤ bytes.length ∧ ColumnsAt bytes encoding headerLen values)
    (decodeRecord bytes encoding)

theorem decodeRecord_inside {bytes : Bytes} (encoding : TextEncoding)
    (hmax : bytes.length ≤ isizeMax) : DecodesInside bytes encoding := by
  refine (reports_orCorrupt _ _).bind fun ⟨headerLen, n⟩ hdecode => ?_
  dsimp only
  split_ifs with hlong
  · exact ⟨_, rfl⟩
  have hheader := Nat.le_of_not_lt hlong
  have hcolumns := decodeColumns_reports encoding hmax hheader (le_add_left headerLen n) hheader
  cases hresult : decodeColumns bytes headerLen encoding headerLen n headerLen with
  | error e =>
    rw [hresult] at hcolumns
    exact hcolumns
  | ok values =>
    rw [hresult] at hcolumns
    exact ⟨headerLen, n, hdecode, hheader, hcolumns⟩

/-- Records that fit in memory decode to the values they were encoded from; the header length
is the least consistent one; integers get the narrowest serial type that represents them; and
decoding arbitrary bytes reports corruption or stays inside them.
-/
theorem record_codec_round_trip
    : (∀ values, (encodeRecord values).length ≤ isizeMax
        → decodeRecord (encodeRecord values) .utf8 = .ok values)
      ∧ (∀ values, IsLeast {h | Varint.len h + (serialBytes values).length = h}
          (recordHeaderLen values))
      ∧ (∀ i : Int64, ∃ n, contentLen (serialTypeFor (.integer i)) = some n
          ∧ Represents (serialTypeFor (.integer i)) (.integer i)
          ∧ ∀ serial m, Represents serial (.integer i) → contentLen serial = some m → n ≤ m)
      ∧ (∀ bytes encoding, bytes.length ≤ isizeMax → DecodesInside bytes encoding) :=
  ⟨fun _ hmax => decodeRecord_encodeRecord hmax, fun _ => headerLen_least _,
    serialTypeFor_narrowest, fun _ encoding hmax => decodeRecord_inside encoding hmax⟩

end GraphiteSql
