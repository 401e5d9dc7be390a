import GraphiteSql.Session.Concat
import GraphiteSql.Session.Coalesce

/-! Concatenation on the bytes of well-formed records: hashing, comparing and merging the bytes is
hashing, comparing and merging the records.
-/

namespace GraphiteSql.Session

open Lib List

variable {f g : Option Value} {pkFlags : Bytes} {fields a b : List (Option Value)}
  {c : ChangeRecord}

def fieldBytes (fields : List (Option Value)) : Bytes :=
  fields.flatMap appendField

@[simp] theorem fieldBytes_cons (f : Option Value) (fields : List (Option Value))
    : fieldBytes (f :: fields) = appendField f ++ fieldBytes fields := rfl

def ReadableFields (fields : List (Option Value)) : Prop :=
  ∀ f ∈ fields, ReadableField f

theorem appendField_inj (hf : ReadableField f) (hg : ReadableField g)
    (h : appendField f = appendField g)
    : f = g := by
  have hread := (value_recovers f).sound hf []
  rw [h, (value_recovers g).sound hg []] at hread
  cases hread
  rfl

theorem appendField_beq (hf : ReadableField f) (hg : ReadableField g)
    : (appendField f == appendField g) = (f == g) := by
  by_cases heq : f = g
  · simp [heq]
  · have hne : appendField f ≠ appendField g := fun h => heq (appendField_inj hf hg h)
    simp [heq, hne]

theorem head_appendField (f : Option Value) (rest : Bytes)
    : ((appendField f ++ rest).head? != some tOmit) = f.isSome := by
  cases f with
  | none => rfl
  | some v => cases v <;> rfl

theorem hashField_number {ty : UInt8} (hty : ty = tInt ∨ ty = tFloat) (i : Int64) (h : UInt32)
    : hashField h (ty :: intBytes i 8) = .ok (hashI64 (hashAppend h ty.toUInt32) i.toUInt64) := by
  have hslice : slice (intBytes i 8) 0 8 = some (intBytes i 8) := by
    have hself : slice (intBytes i 8) 0 (intBytes i 8).length = some (intBytes i 8) := slice_self
    rwa [intBytes_length] at hself
  have hvalue : (UInt64.ofNat (beNat (intBytes i 8))) = i.toUInt64 := by
    rw [beNat_intBytes, Nat.mod_eq_of_lt (show i.toUInt64.toNat < 256 ^ 8 from i.toUInt64.toNat_lt),
      UInt64.ofNat_toNat]
  rw [hashField, if_pos hty, hslice, orPanic_bind, hvalue]
  rfl

theorem hashField_sized {ty : UInt8} (hty : ty = tText ∨ ty = tBlob) {payload : Bytes}
    (hlen : payload.length < 2 ^ 56) (h : UInt32)
    : hashField h (ty :: (appendVarint payload.length ++ payload))
      = .ok (hashBlob (hashAppend h ty.toUInt32) payload) := by
  have hnumber : ¬(ty = tInt ∨ ty = tFloat) := by
    rcases hty with rfl | rfl <;> decide
  rw [hashField, if_neg hnumber, if_pos hty, varint_appendVarint hlen]
  dsimp only
  rw [slice_self]
  rfl

theorem hashField_appendValue {v : Value} (hv : Readable v) (h : UInt32)
    : hashField h (appendValue v) = .ok (hashPkValue h v) := by
  cases v with
  | null => rfl
  | integer i => exact hashField_number (.inl rfl) i h
  | real r =>
    have hreal := hashField_number (.inr rfl) r.bits.toInt64 h
    rwa [UInt64.toUInt64_toInt64] at hreal
  | text s =>
    obtain ⟨hutf8, hlen⟩ : validUtf8 s ∧ s.length < 2 ^ 56 := hv
    have hview : asStr s = s := if_pos hutf8
    rw [appendValue, hview]
    exact hashField_sized (.inl rfl) hlen h
  | blob b => exact hashField_sized (.inr rfl) hv h

def keyFields (pkFlags : Bytes) (fields : List (Option Value)) (i : Nat) : List (Option Value) :=
  ((fields.zipIdx i).filter fun p => isPk pkFlags p.2).map Prod.fst

theorem keyFields_cons (pkFlags : Bytes) (f : Option Value) (fields : List (Option Value)) (i : Nat)
    : keyFields pkFlags (f :: fields) i
      = if isPk pkFlags i then f :: keyFields pkFlags fields (i + 1)
        else keyFields pkFlags fields (i + 1) := by
  unfold keyFields
  rw [zipIdx_cons, filter_cons]
  split_ifs <;> rfl

/-- Hashing the bytes of fields hashes the values of the key columns. -/
theorem hashFields_bytes (hread : ReadableFields fields) {i : Nat}
    (hkey : none ∉ keyFields pkFlags fields i) (h : UInt32) (rest : Bytes)
    : hashFields pkFlags fields.length i h (fieldBytes fields ++ rest)
      = .ok (((keyFields pkFlags fields i).map (·.getD .null)).foldl hashPkValue h) := by
  induction fields generalizing i h with
  | nil => rfl
  | cons f fields ih =>
    obtain ⟨hf, hfs⟩ := forall_mem_cons.mp hread
    rw [length_cons, fieldBytes_cons, append_assoc, hashFields,
      serialLen_appendField hf, except_ok_bind, drop_left, take_left]
    rw [keyFields_cons] at hkey ⊢
    cases hpk : isPk pkFlags i with
    | false =>
      rw [hpk] at hkey
      rw [hashColumn, hpk]
      exact ih hfs hkey h
    | true =>
      rw [if_pos hpk, mem_cons, not_or] at hkey
      cases f with
      | none => exact absurd rfl hkey.1
      | some v =>
        rw [hashColumn, if_pos hpk, appendField, hashField_appendValue (hf v rfl)]
        exact ih hfs hkey.2 (hashPkValue h v)

/-- Comparing the bytes of fields compares the key columns. -/
theorem pkEqualFields_bytes (hlen : a.length = b.length) (ha : ReadableFields a)
    (hb : ReadableFields b) (i : Nat) (resta restb : Bytes)
    : pkEqualFields pkFlags a.length i (fieldBytes a ++ resta) (fieldBytes b ++ restb)
      = .ok (keyFields pkFlags a i == keyFields pkFlags b i) := by
  induction a generalizing b i with
  | nil =>
    cases b with
    | nil => rfl
    | cons g b => cases hlen
  | cons f a ih =>
    cases b with
    | nil => cases hlen
    | cons g b =>
      obtain ⟨hf, hfs⟩ := forall_mem_cons.mp ha
      obtain ⟨hg, hgs⟩ := forall_mem_cons.mp hb
      have htail := ih (Nat.succ.inj hlen) hfs hgs (i + 1)
      rw [length_cons, fieldBytes_cons, fieldBytes_cons, append_assoc,
        append_assoc, pkEqualFields, serialLen_appendField hf, except_ok_bind,
        serialLen_appendField hg, except_ok_bind, take_left, take_left,
        drop_left, drop_left, htail, keyFields_cons, keyFields_cons]
      have hfield : ((appendField f).length != (appendField g).length
          || appendField f != appendField g) = !(f == g) := by
        rw [bne, bne, appendField_beq hf hg]
        by_cases heq : f = g <;> simp [heq]
      rw [hfield]
      cases isPk pkFlags i with
      | false => rfl
      | true => by_cases heq : f = g <;> simp [heq]

theorem keyFields_positions (hlen : fields.length = pkFlags.length)
    : keyFields pkFlags fields 0 = (keyPositions pkFlags).map fun p => fields.getD p none := by
  have hzip : fields.zipIdx = (range pkFlags.length).map fun p => (fields.getD p none, p) := by
    refine ext_getElem? fun i => ?_
    rw [← hlen]
    by_cases hi : i < fields.length
    · simp [hi]
    · simp [hi]
  rw [keyFields, hzip, filter_map, map_map]
  rfl

theorem recordKey_keyFields (hlen : fields.length = pkFlags.length)
    : recordKey pkFlags fields = (keyFields pkFlags fields 0).map (·.getD .null) := by
  rw [keyFields_positions hlen, map_map]
  refine map_congr_left fun p _ => ?_
  simp only [getD_eq_getElem?_getD, getElem?_map, Function.comp_def]
  cases fields[p]? <;> rfl

theorem keyFields_inj (hlena : a.length = pkFlags.length) (hlenb : b.length = pkFlags.length)
    (ha : none ∉ keyFields pkFlags a 0) (hb : none ∉ keyFields pkFlags b 0)
    : keyFields pkFlags a 0 = keyFields pkFlags b 0
      ↔ recordKey pkFlags a = recordKey pkFlags b := by
  rw [recordKey_keyFields hlena, recordKey_keyFields hlenb]
  refine ⟨fun h => by rw [h], fun h => ?_⟩
  rw [← map_some_of_complete ha, ← map_some_of_complete hb, h]

def ChangeRecord.first (c : ChangeRecord) : List (Option Value) :=
  if c.op = .insert then c.new else c.old

def ChangeRecord.restBytes (c : ChangeRecord) : Bytes :=
  if c.op = .update then fieldBytes c.new else []

theorem bytes_first (c : ChangeRecord) (pkFlags : Bytes)
    : c.bytes pkFlags false = fieldBytes c.first ++ c.restBytes := by
  obtain ⟨op, old, new⟩ := c
  cases op with
  | insert => exact (append_nil _).symm
  | delete => exact (bytes_delete old new pkFlags).trans (append_nil _).symm
  | update => rfl

/-- A change that can be collected: it can be written and read back, and it names its row. -/
structure ChangeRecord.Collectable (c : ChangeRecord) (pkFlags : Bytes) : Prop where
  readable : c.Readable pkFlags.length
  shaped : c.Shaped pkFlags false
  complete : c.Complete pkFlags

namespace ChangeRecord.Collectable

variable (h : c.Collectable pkFlags)
include h

theorem first_length
    : c.first.length = pkFlags.length := by
  unfold first
  split_ifs with hop
  · exact h.readable.new (by simp [hop])
  · exact h.readable.old hop

theorem first_readable
    : ReadableFields c.first := by
  unfold first
  split_ifs
  · exact h.readable.newFields
  · exact h.readable.oldFields

theorem key_present
    : none ∉ keyFields pkFlags c.first 0 := by
  rw [keyFields_positions h.first_length]
  intro hmem
  obtain ⟨p, hp, hnone⟩ := mem_map.mp hmem
  obtain ⟨hlt, hpk⟩ := mem_keyPositions.mp hp
  rw [← h.first_length] at hlt
  rw [getD_eq_getElem?_getD, getElem?_eq_getElem hlt, Option.getD_some] at hnone
  have hat : c.first[p]? = some none := by rw [getElem?_eq_getElem hlt, hnone]
  have hcomplete := h.complete
  unfold Complete at hcomplete
  cases hop : c.op with
  | insert =>
    simp only [first, hop, if_true] at hat hcomplete
    exact hcomplete.2 (mem_of_getElem? hat)
  | delete =>
    simp only [first, hop, reduceCtorEq, if_false] at hat hcomplete
    exact hcomplete.2 (mem_of_getElem? hat)
  | update =>
    simp only [first, hop, reduceCtorEq, if_false] at hat hcomplete
    have hnew : c.new.length = pkFlags.length := h.readable.new (by simp [hop])
    have hlt' : p < c.new.length := by
      rw [hnew, ← h.first_length]
      exact hlt
    have hfield := hcomplete p none _ hat (getElem?_eq_getElem hlt')
    rw [UpdateField, if_pos hpk] at hfield
    exact hfield rfl

end ChangeRecord.Collectable

def encodeChange (pkFlags : Bytes) (p : Bool × ChangeRecord) : ConcatChange where
  op := p.2.op.byte
  indirect := boolByte p.1
  record := p.2.bytes pkFlags false

theorem hash_encode {t : ConcatTable} (hncol : t.ncol = t.pkFlags.length)
    (h : c.Collectable t.pkFlags) (n : Nat)
    : t.hash (c.bytes t.pkFlags false) n = .ok (bucketOf (c.key t.pkFlags) n) := by
  have hhash := hashFields_bytes h.first_readable h.key_present 0 c.restBytes
  rw [h.first_length, ← hncol, ← bytes_first c t.pkFlags] at hhash
  rw [ConcatTable.hash, hhash, ← recordKey_keyFields h.first_length]
  rfl

theorem pkEqual_encode {t : ConcatTable} {d : ChangeRecord} (hncol : t.ncol = t.pkFlags.length)
    (hc : c.Collectable t.pkFlags) (hd : d.Collectable t.pkFlags)
    : t.pkEqual (c.bytes t.pkFlags false) (d.bytes t.pkFlags false)
      = .ok (c.key t.pkFlags == d.key t.pkFlags) := by
  have hequal := @pkEqualFields_bytes t.pkFlags _ _ (hc.first_length.trans hd.first_length.symm)
    hc.first_readable hd.first_readable 0 c.restBytes d.restBytes
  rw [hc.first_length, ← hncol, ← bytes_first c t.pkFlags, ← bytes_first d t.pkFlags] at hequal
  have hiff := keyFields_inj hc.first_length hd.first_length hc.key_present hd.key_present
  rw [ConcatTable.pkEqual, hequal]
  exact congrArg Except.ok (by rw [Bool.eq_iff_iff, beq_iff_eq, beq_iff_eq, hiff]; rfl)

end GraphiteSql.Session
