import GraphiteSql.Session.Emission

/-! Reading back the table headers and change records of a changeset or patchset. -/

namespace GraphiteSql.Session

open Lib List Reader

theorem untilNul_append {name rest : Bytes} (hname : 0 ∉ name) (s : Bytes)
    : untilNul (name ++ 0 :: rest) s = .ok name rest := by
  induction name generalizing s with
  | nil => rfl
  | cons b tail ih =>
    obtain ⟨hb, htail⟩ := not_or.mp (mt mem_cons.mpr hname)
    rw [cons_append, untilNul, if_neg (Ne.symm hb), estate_bind_ok (ih htail s)]
    rfl

theorem flags_append (flags rest : Bytes)
    : ((replicate flags.length ()).mapM fun _ => u8) (flags ++ rest)
      = .ok flags rest := by
  have h : Recovers ((flags.map fun _ => ()).mapM fun _ => u8) (flags.flatMap ([·]))
      (flags.map id) (∀ b ∈ flags, True) := Recovers.mapM fun b _ => u8_recovers b
  rw [map_id, map_const', flatMap_singleton'] at h
  exact h.sound (fun _ _ => trivial) rest

theorem header_inv {s rest : Bytes} {g : TableChangeset} (h : header s = .ok g rest)
    : (∃ mid, varint s = .ok g.ncol mid) ∧ g.ncol ≠ 0 ∧ g.pkFlags.length = g.ncol
      ∧ g.changes = [] := by
  obtain ⟨ncol, mid, hncol, h⟩ := estate_bind_eq_ok.mp h
  split_ifs at h with hzero
  · cases h
  obtain ⟨flags, s₁, hflags, h⟩ := estate_bind_eq_ok.mp h
  obtain ⟨all, s₂, -, h⟩ := estate_bind_eq_ok.mp h
  obtain ⟨name, s₃, -, h⟩ := estate_bind_eq_ok.mp h
  split_ifs at h
  · cases h
  cases h
  have hlen := estate_mapM_length hflags
  rw [length_replicate] at hlen
  exact ⟨⟨mid, hncol⟩, hzero, hlen, rfl⟩

theorem header_recovers {g : TableChangeset} (hchanges : g.changes = []) (hutf8 : validUtf8 g.name)
    (hnul : 0 ∉ g.name)
    : Recovers header (appendVarint g.ncol ++ g.pkFlags ++ g.name ++ [0]) g
        (0 < g.ncol ∧ g.ncol < 2 ^ 56 ∧ g.pkFlags.length = g.ncol) where
  sound := by
    rintro ⟨hpos, hfits, hflags⟩ rest
    have hbytes : appendVarint g.ncol ++ g.pkFlags ++ g.name ++ [0] ++ rest
        = appendVarint g.ncol ++ (g.pkFlags ++ (g.name ++ 0 :: rest)) := by
      simp only [append_assoc, singleton_append]
    have hmap := flags_append g.pkFlags (g.name ++ 0 :: rest)
    rw [hflags] at hmap
    rw [hbytes, header, estate_bind_ok (varint_appendVarint hfits _),
      if_neg (Nat.pos_iff_ne_zero.mp hpos), estate_bind_ok hmap, estate_get_bind,
      estate_bind_ok (untilNul_append hnul _), hutf8, ← hchanges]
    rfl
  only := by
    intro hbad rest g' rest' h heq
    obtain ⟨⟨mid, hncol⟩, hzero, hlen, -⟩ := header_inv h
    rw [heq] at hncol hzero hlen
    refine hbad ⟨Nat.pos_of_ne_zero hzero, ?_, hlen⟩
    by_contra hlarge
    rw [append_assoc, append_assoc, append_assoc] at hncol
    exact (varint_recovers g.ncol).only hlarge _ _ _ hncol rfl

/-- A record is read back if it has as many readable fields as the table has columns. -/
theorem record_recovers_full (fields : List (Option Value)) (ncol : Nat)
    : Recovers (record ncol) (fields.flatMap appendField) fields
      (fields.length = ncol ∧ ∀ f ∈ fields, ReadableField f) := by
  by_cases hlen : fields.length = ncol
  · subst hlen
    exact (record_recovers fields).congr (by simp)
  refine ⟨fun hgood => absurd hgood.1 hlen, fun _ rest fields' rest' h heq => hlen ?_⟩
  have hread := estate_mapM_length h
  rw [length_replicate, heq] at hread
  exact hread

/-- A key-only record is read back, with nothing in the other columns. -/
theorem pkOnlyRecord_recovers (fields : List (Option Value)) (ncol : Nat) (pkFlags : Bytes)
    (habsent : ∀ p ∈ fields.zipIdx, isPk pkFlags p.2 = false → p.1 = none)
    : Recovers (pkOnlyRecord ncol pkFlags)
      (fields.zipIdx.flatMap fun p => if isPk pkFlags p.2 then appendField p.1 else []) fields
      (fields.length = ncol ∧ ∀ f ∈ fields, ReadableField f) := by
  by_cases hlen : fields.length = ncol
  · subst hlen
    have h := fields_recover fields.zipIdx (fun p => isPk pkFlags p.2) Prod.fst habsent
    have hpresent : fields.zipIdx.map (fun p => isPk pkFlags p.2)
        = (range fields.length).map (isPk pkFlags) := by
      rw [range_eq_range', ← zipIdx_map_snd, map_map]
      rfl
    rw [hpresent, zipIdx_map_fst] at h
    refine h.congr ⟨fun hall => ⟨rfl, fun f hf => ?_⟩, fun hall p hp => ?_⟩
    · rw [← zipIdx_map_fst 0 fields] at hf
      obtain ⟨p, hp, rfl⟩ := mem_map.mp hf
      exact hall p hp
    · exact hall.2 p.1 (fst_mem_of_mem_zipIdx hp)
  · refine ⟨fun hgood => absurd hgood.1 hlen, fun _ rest fields' rest' h heq => hlen ?_⟩
    have hread := estate_mapM_length h
    rw [length_map, length_range, heq] at hread
    exact hread

/-- The form in which the serializer emits records: the halves that an operation does not have
are empty, and in a patchset only key columns have an old value.
-/
def ChangeRecord.Shaped (c : ChangeRecord) (pkFlags : Bytes) (patchset : Bool) : Prop :=
  match c.op with
  | .insert => c.old = []
  | .delete => c.new = []
      ∧ (patchset = true → ∀ p ∈ c.old.zipIdx, isPk pkFlags p.2 = false → p.1 = none)
  | .update => patchset = true
      → c.old = c.new.zipIdx.map fun p => if isPk pkFlags p.2 then p.1 else none

theorem emitUpdate_shaped (cols : List (Value × Value)) (pkFlags : Bytes) (patchset : Bool)
    : (emitUpdate cols.zipIdx pkFlags patchset).Shaped pkFlags patchset := by
  intro hpatch
  subst hpatch
  unfold emitUpdate
  rw [zipIdx_map_zipIdx, map_map]
  refine map_congr_left fun c _ => ?_
  by_cases hpk : isPk pkFlags c.2 = true
  · simp [hpk]
  · simp [hpk]

theorem emitDelete_shaped (old : List Value) (pkFlags : Bytes) (patchset : Bool)
    : (emitDelete old pkFlags patchset).Shaped pkFlags patchset := by
  refine ⟨rfl, fun hpatch p hp hpk => ?_⟩
  subst hpatch
  unfold emitDelete at hp
  rw [zipIdx_map_zipIdx] at hp
  obtain ⟨q, -, rfl⟩ := mem_map.mp hp
  dsimp only at hpk ⊢
  rw [hpk]
  rfl

theorem emitChange_shaped {t : TableChanges} {patchset : Bool} {readRow : RowReader} {c : Change}
    {r : ChangeRecord} (h : emitChange t patchset readRow c = some r)
    : r.Shaped t.pkFlags patchset := by
  obtain ⟨row, rfl⟩ | rfl | ⟨row, rfl⟩ := emitChange_cases h
  · rfl
  · exact emitDelete_shaped _ _ _
  · exact emitUpdate_shaped _ _ _

section ChangeRecords

variable {old new : List (Option Value)} {ncol : Nat}

theorem readable_insert
    : (new.length = ncol ∧ ∀ f ∈ new, ReadableField f)
      ↔ ({ op := .insert, old := [], new } : ChangeRecord).Readable ncol := by
  refine ⟨fun hgood => ?_, fun hgood => ⟨hgood.new nofun, hgood.newFields⟩⟩
  exact {
    old := absurd rfl
    new := fun _ => hgood.1
    oldFields := nofun
    newFields := hgood.2 }

theorem readable_delete
    : (old.length = ncol ∧ ∀ f ∈ old, ReadableField f)
      ↔ ({ op := .delete, old, new := [] } : ChangeRecord).Readable ncol := by
  refine ⟨fun hgood => ?_, fun hgood => ⟨hgood.old nofun, hgood.oldFields⟩⟩
  exact {
    old := fun _ => hgood.1
    new := absurd rfl
    oldFields := hgood.2
    newFields := nofun }

theorem readable_update
    : ((old.length = ncol ∧ ∀ f ∈ old, ReadableField f)
      ∧ (new.length = ncol ∧ ∀ f ∈ new, ReadableField f))
      ↔ ({ op := .update, old, new } : ChangeRecord).Readable ncol := by
  refine ⟨fun hgood => ?_, fun hgood => ?_⟩
  · exact {
      old := fun _ => hgood.1.1
      new := fun _ => hgood.2.1
      oldFields := hgood.1.2
      newFields := hgood.2.2 }
  · exact ⟨⟨hgood.old nofun, hgood.oldFields⟩, hgood.new nofun, hgood.newFields⟩

end ChangeRecords

theorem delete_recovers (t : TableChangeset) (patchset : Bool) (old : List (Option Value))
    (habsent : patchset = true → ∀ p ∈ old.zipIdx, isPk t.pkFlags p.2 = false → p.1 = none)
    : Recovers (change t patchset opDelete)
      (old.zipIdx.flatMap fun p => if patchset && !isPk t.pkFlags p.2 then [] else appendField p.1)
      { op := .delete, old, new := [] }
      (({ op := .delete, old, new := [] } : ChangeRecord).Readable t.ncol) := by
  have hinj : ∀ old', ({ op := .delete, old := old', new := [] } : ChangeRecord)
      = { op := .delete, old, new := [] } → old' = old := fun old' heq => by
    cases heq
    rfl
  cases patchset with
  | false =>
    have hbytes : (old.zipIdx.flatMap fun p => appendField p.1) = old.flatMap appendField := by
      rw [← flatMap_map Prod.fst, zipIdx_map_fst]
    have h := (record_recovers_full old t.ncol).map
      (g := fun old => ({ op := .delete, old, new := [] } : ChangeRecord)) hinj
    simp only [Bool.false_and, Bool.false_eq_true, if_false, hbytes]
    exact h.congr readable_delete
  | true =>
    have h := (pkOnlyRecord_recovers old t.ncol t.pkFlags (habsent rfl)).map
      (g := fun old => ({ op := .delete, old, new := [] } : ChangeRecord)) hinj
    have hbytes : (fun p : Option Value × Nat => if isPk t.pkFlags p.2 then appendField p.1 else [])
        = fun p => if true && !isPk t.pkFlags p.2 then [] else appendField p.1 := by
      funext p
      cases isPk t.pkFlags p.2 <;> rfl
    rw [hbytes] at h
    exact h.congr readable_delete

theorem update_recovers (t : TableChangeset) (patchset : Bool) (old new : List (Option Value))
    (hold : patchset = true → old = new.zipIdx.map fun p =>
      if isPk t.pkFlags p.2 then p.1 else none)
    : Recovers (change t patchset opUpdate)
      ((if patchset then [] else old.flatMap appendField) ++ new.flatMap appendField)
      { op := .update, old, new }
      (({ op := .update, old, new } : ChangeRecord).Readable t.ncol) := by
  cases patchset with
  | false =>
    have hnew := (record_recovers_full new t.ncol).map
      (g := fun new => ({ op := .update, old, new } : ChangeRecord)) fun new' heq => by
        cases heq
        rfl
    refine ((record_recovers_full old t.ncol).bind hnew fun old' s c' s' hne hok => ?_).congr
      readable_update
    obtain ⟨new', mid, -, hc'⟩ := estate_bind_eq_ok.mp hok
    cases hc'
    exact fun heq => hne (by cases heq; rfl)
  | true =>
    have h := (record_recovers_full new t.ncol).map
      (g := fun new => ({
        op := .update
        old := new.zipIdx.map fun p => if isPk t.pkFlags p.2 then p.1 else none
        new } : ChangeRecord)) fun new' heq => (ChangeRecord.mk.inj heq).2.2
    rw [← hold rfl] at h
    refine h.congr (Iff.trans ?_ readable_update)
    refine ⟨fun hnew => ⟨?_, hnew⟩, fun hboth => hboth.2⟩
    rw [hold rfl, length_map, length_zipIdx]
    refine ⟨hnew.1, fun f hf => ?_⟩
    obtain ⟨p, hp, rfl⟩ := mem_map.mp hf
    split_ifs
    · exact hnew.2 p.1 (fst_mem_of_mem_zipIdx hp)
    · exact nofun

theorem change_recovers (t : TableChangeset) (patchset : Bool) {c : ChangeRecord}
    (hshape : c.Shaped t.pkFlags patchset)
    : Recovers (change t patchset c.op.byte) (c.bytes t.pkFlags patchset) c
      (c.Readable t.ncol) := by
  obtain ⟨op, old, new⟩ := c
  cases op with
  | insert =>
    cases (show old = [] from hshape)
    have h := (record_recovers_full new t.ncol).map
      (g := fun new => ({ op := .insert, old := [], new } : ChangeRecord)) fun new' heq => by
        cases heq
        rfl
    exact h.congr readable_insert
  | delete =>
    obtain ⟨hnew, habsent⟩ := hshape
    cases (show new = [] from hnew)
    exact delete_recovers t patchset old habsent
  | update => exact update_recovers t patchset old new hshape

end GraphiteSql.Session
