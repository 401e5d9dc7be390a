import GraphiteSql.Session.Walk

/-! Changesets as lists of groups: what the parser and the length walker make of their bytes. -/

namespace GraphiteSql.Session

open Lib List Reader

variable {g : Group} {fields : List (Option Value)}

/-- A column of an update: a key column has its old value, another one both values or neither. -/
def UpdateField (pkFlags : Bytes) (i : Nat) (o n : Option Value) : Prop :=
  if isPk pkFlags i then o ≠ none else (o = none ↔ n = none)

/-- A record as a changeset has it: inserted and deleted rows are complete, and an update names
its row.
-/
def ChangeRecord.Complete (c : ChangeRecord) (pkFlags : Bytes) : Prop :=
  match c.op with
  | .insert => c.old = [] ∧ none ∉ c.new
  | .delete => c.new = [] ∧ none ∉ c.old
  | .update => ∀ (i : Nat) (o n : Option Value), c.old[i]? = some o → c.new[i]? = some n →
      UpdateField pkFlags i o n

/-- An update that gives no key column another value. -/
def ChangeRecord.KeySame (c : ChangeRecord) (pkFlags : Bytes) : Prop :=
  c.op = .update → ∀ i v, isPk pkFlags i = true → c.new[i]? = some (some v) →
    c.old[i]? = some (some v)

/-- A group as `serialize` writes it. -/
structure Group.Written (g : Group) : Prop where
  name : GoodName g.name
  readable : g.changeset.Readable
  shaped : ∀ p ∈ g.records, p.2.Shaped g.pkFlags false

/-- A written group whose records have all the fields their operation needs. -/
structure Group.Sound (g : Group) : Prop extends g.Written where
  complete : ∀ p ∈ g.records, p.2.Complete g.pkFlags

theorem Group.Written.record (h : g.Written) {p : Bool × ChangeRecord} (hp : p ∈ g.records)
    : p.2.Readable g.ncol :=
  h.readable.changes p.2 (mem_map_of_mem hp)

theorem parseLoop_group (h : g.Written) (tables : List TableChangeset) (patchset : Bool)
    (bound : Nat) (rest : Bytes)
    : parseLoop (bound + g.records.length + 1) tables patchset (g.bytes ++ rest)
      = parseLoop bound (tables ++ [g.changeset]) false rest := by
  let t : TableChanges :=
    { name := g.name, ncol := g.ncol, pkFlags := g.pkFlags, buckets := [], nentry := 0 }
  have hheader := (group_recovers (t := t) h.name).sound
    ⟨h.readable.columns, h.readable.fits, h.readable.flags⟩
    (g.records.flatMap (recordBytes g.pkFlags false) ++ rest)
  have hstep : parseStep tables patchset
      (tableHeader t false ++ (g.records.flatMap (recordBytes g.pkFlags false) ++ rest))
      = .ok (tables ++ [t.group], false)
        (g.records.flatMap (recordBytes g.pkFlags false) ++ rest) := by
    rw [parseStep_header, estate_bind_ok hheader]
    rfl
  have hbytes : g.bytes ++ rest
      = tableHeader t false ++ (g.records.flatMap (recordBytes g.pkFlags false) ++ rest) := by
    rw [Group.bytes, append_assoc]
    rfl
  rw [hbytes, parseLoop_step (by simp [tableHeader]) hstep]
  exact @parseLoop_changes tables false g.records t.group h.shaped (fun p hp => h.record hp) bound
    rest

theorem length_group (g : Group)
    : g.records.length + 1 ≤ g.bytes.length := by
  have hrecords := records_length g.pkFlags false g.records
  simp only [Group.bytes, Group.header, length_append, length_cons, length_nil]
  omega

theorem parseLoop_groups {groups : List Group} (h : ∀ g ∈ groups, g.Written)
    (tables : List TableChangeset) (patchset : Bool)
    : ∃ bound ≤ (groups.flatMap Group.bytes).length + 1,
      parseLoop bound tables patchset (groups.flatMap Group.bytes)
        = .ok (tables ++ groups.map Group.changeset) [] := by
  induction groups generalizing tables patchset with
  | nil => exact ⟨1, Nat.le_refl 1, by simp [parseLoop]⟩
  | cons g groups ih =>
    obtain ⟨hg, hgs⟩ := forall_mem_cons.mp h
    obtain ⟨bound, hbound, hloop⟩ := ih hgs (tables ++ [g.changeset]) false
    have hlen := length_group g
    refine ⟨bound + g.records.length + 1, ?_, ?_⟩
    · rw [flatMap_cons, length_append]
      omega
    · rw [flatMap_cons, parseLoop_group hg, hloop]
      simp

/-- The bytes of written groups parse into these groups. -/
theorem parseChangeset_groups {groups : List Group} (h : ∀ g ∈ groups, g.Written)
    : parseChangeset (groups.flatMap Group.bytes) = .ok (groups.map Group.changeset) := by
  obtain ⟨bound, hbound, hloop⟩ := parseLoop_groups h [] false
  obtain ⟨k, hk⟩ := Nat.exists_eq_add_of_le hbound
  have hrun := parseLoop_mono k hloop
  rw [← hk] at hrun
  unfold parseChangeset
  rw [hrun]
  rfl

theorem lengthPrefixed_serialLen {e : UInt8} (he : e = tText ∨ e = tBlob) {payload : Bytes}
    (hlen : payload.length < 2 ^ 56) (rest : Bytes)
    : serialLen (e :: (appendVarint payload.length ++ payload ++ rest))
      = .ok (e :: (appendVarint payload.length ++ payload)).length := by
  have hread := varint_appendVarint hlen (payload ++ rest)
  rw [← append_assoc] at hread
  have hlength : 1 + ((appendVarint payload.length ++ payload ++ rest).length
      - (payload ++ rest).length) + payload.length
      = (e :: (appendVarint payload.length ++ payload)).length := by
    simp only [length_append, length_cons]
    omega
  have htag : ¬(e = tOmit ∨ e = tUndefined ∨ e = tNull) := by
    rcases he with rfl | rfl <;> decide
  have hnumber : ¬(e = tInt ∨ e = tFloat) := by
    rcases he with rfl | rfl <;> decide
  unfold serialLen
  dsimp only
  rw [if_neg htag, if_neg hnumber, if_pos he, hread]
  dsimp only
  rw [if_neg (by simp), hlength]

theorem number_serialLen {e : UInt8} (he : e = tInt ∨ e = tFloat) {body : Bytes}
    (hlen : body.length = 8) (rest : Bytes)
    : serialLen (e :: (body ++ rest)) = .ok (e :: body).length := by
  have htag : ¬(e = tOmit ∨ e = tUndefined ∨ e = tNull) := by
    rcases he with rfl | rfl <;> decide
  unfold serialLen
  dsimp only
  rw [if_neg htag, if_pos he, if_neg (by simp [hlen]), length_cons, hlen]

/-- The walker goes over a readable field. -/
theorem serialLen_appendField {f : Option Value} (h : ReadableField f) (rest : Bytes)
    : serialLen (appendField f ++ rest) = .ok (appendField f).length := by
  cases f with
  | none => rfl
  | some v =>
    have hreadable : Readable v := h v rfl
    cases v with
    | null => rfl
    | integer i => exact number_serialLen (.inl rfl) (intBytes_length i 8) rest
    | real r => exact number_serialLen (.inr rfl) rfl rest
    | text s =>
      obtain ⟨hutf8, hlen⟩ : validUtf8 s ∧ s.length < 2 ^ 56 := hreadable
      have hview : asStr s = s := if_pos hutf8
      simp only [appendField, appendValue, hview, cons_append]
      exact lengthPrefixed_serialLen (.inl rfl) hlen rest
    | blob b => exact lengthPrefixed_serialLen (.inr rfl) hreadable rest

/-- The walker splits a record into the bytes of its fields. -/
theorem splitRecord_append (h : ∀ f ∈ fields, ReadableField f) (rest : Bytes)
    : splitRecord fields.length (fields.flatMap appendField ++ rest)
      = .ok (fields.map appendField, (fields.flatMap appendField).length) := by
  induction fields with
  | nil => rfl
  | cons f fields ih =>
    obtain ⟨hf, hfs⟩ := forall_mem_cons.mp h
    rw [length_cons, flatMap_cons, append_assoc, splitRecord, serialLen_appendField hf,
      except_ok_bind, drop_left, ih hfs, take_left, length_append]
    rfl

/-- The bytes of a deletion in a changeset are those of its old record. -/
theorem bytes_delete (old new : List (Option Value)) (pkFlags : Bytes)
    : ({ op := .delete, old, new } : ChangeRecord).bytes pkFlags false
      = old.flatMap appendField := by
  unfold ChangeRecord.bytes
  simp only [Bool.false_and, Bool.false_eq_true, if_false]
  rw [← flatMap_map Prod.fst, zipIdx_map_fst]

theorem headerBody_append (h : g.Written) (rest : Bytes)
    : headerBody (appendVarint g.ncol ++ g.pkFlags ++ g.name ++ [0] ++ rest)
      = .ok (g.ncol, g.pkFlags, g.name) rest := by
  have hbytes : appendVarint g.ncol ++ g.pkFlags ++ g.name ++ [0] ++ rest
      = appendVarint g.ncol ++ (g.pkFlags ++ (g.name ++ 0 :: rest)) := by
    simp only [append_assoc, singleton_append]
  have hmap := flags_append g.pkFlags (g.name ++ 0 :: rest)
  rw [show g.pkFlags.length = g.ncol from h.readable.flags] at hmap
  have hfits : g.ncol < 2 ^ 56 := h.readable.fits
  have hzero : g.ncol ≠ 0 := Nat.pos_iff_ne_zero.mp h.readable.columns
  rw [hbytes, headerBody, estate_bind_ok (varint_appendVarint hfits _), if_neg hzero,
    estate_bind_ok hmap, estate_get_bind, estate_bind_ok (untilNul_append h.name.2 _)]
  rfl

theorem tableHdr_append (h : g.Written) (rest : Bytes)
    : tableHdr (g.header ++ rest)
      = .ok { ncol := g.ncol, pkFlags := g.pkFlags, name := g.name, raw := g.header } rest := by
  have hbytes : g.header ++ rest
      = 0x54 :: (appendVarint g.ncol ++ g.pkFlags ++ g.name ++ [0] ++ rest) := by
    simp [Group.header]
  have hraw : (g.header ++ rest).take ((g.header ++ rest).length - rest.length) = g.header := by
    simp
  have hread : tableHdr (g.header ++ rest) = .ok {
      ncol := g.ncol
      pkFlags := g.pkFlags
      name := g.name
      raw := (g.header ++ rest).take ((g.header ++ rest).length - rest.length) } rest := by
    rw [tableHdr_eq, hbytes, estate_get_bind, estate_bind_ok (u8_cons _ _),
      estate_bind_ok (headerBody_append h rest)]
    rfl
  rw [hread, hraw]

theorem onRest_ok {α : Type} {f : Bytes → Result α} {s : Bytes} {a : α} (h : f s = .ok a)
    : onRest f s = .ok a s := by
  unfold onRest
  rw [estate_get_bind, h]
  rfl

theorem splitFields_append (h : ∀ f ∈ fields, ReadableField f) (rest : Bytes)
    : splitFields fields.length (fields.flatMap appendField ++ rest)
      = .ok (fields.map appendField) rest := by
  unfold splitFields
  rw [estate_bind_ok (onRest_ok (splitRecord_append h rest))]
  exact estate_bind_ok (take_append (fields.flatMap appendField) rest)

end GraphiteSql.Session
