import GraphiteSql.Session.Undo
import GraphiteSql.Session.Coalesce

/-! Databases that changesets are applied to: every row is stored under its primary key, so an
update that applies keeps the key of its row.
-/

namespace GraphiteSql.Session

open Lib List Option ChangeRecord

variable {c : ChangeRecord} {pkFlags : Bytes} {row : List Value} {rows rows' : Rows}

abbrev Schema := Bytes → Option (Nat × Bytes)

/-- Every row is one of its table, stored under its key. -/
def KeyedRows (schema : Schema) (rows : Rows) : Prop :=
  ∀ name key row, rows (name, key) = some row →
    ∃ pkFlags, schema name = some (row.length, pkFlags) ∧ pkFlags.length = row.length
      ∧ keyOf pkFlags row = key

structure Database where
  schema : Schema
  rows : Rows
  keyed : KeyedRows schema rows

/-- The changes, each with the row it expects, lead from `db` to `db'`. -/
structure Applies (changes : List TableChangeset) (db db' : Database) : Prop where
  schema : db'.schema = db.schema
  shapes : ∀ g ∈ changes, db.schema g.name = some (g.ncol, g.pkFlags)
  rows : PointEdit.applyAll (changesetEdits changes) db.rows = some db'.rows

/-- The changeset parses, and leads from `db` to `db'`. -/
def ChangesetApplies (c : Bytes) (db db' : Database) : Prop :=
  ∃ changes, parseChangeset c = .ok changes ∧ Applies changes db db'

/-- The key of a complete update is the key of the row it applies to. -/
theorem key_of_update (hop : c.op = .update) (hfull : c.Full pkFlags.length)
    (hcomplete : c.Complete pkFlags) (hrow : agrees c.old row = true)
    : c.key pkFlags = keyOf pkFlags row
      ∧ ∀ i, isPk pkFlags i = true → i < pkFlags.length →
          ∃ x, row[i]? = some x ∧ c.old[i]? = some (some x) := by
  have hold : c.old.length = pkFlags.length := hfull.old (by simp [hop])
  have hnew : c.new.length = pkFlags.length := hfull.new (by simp [hop])
  obtain ⟨-, hagrees⟩ := agrees_iff.mp hrow
  have hpresent : ∀ i, isPk pkFlags i = true → i < pkFlags.length →
      ∃ x, row[i]? = some x ∧ c.old[i]? = some (some x) := fun i hpk hi => by
    obtain ⟨o, ho⟩ : ∃ o, c.old[i]? = some o := ⟨_, getElem?_eq_getElem (by omega)⟩
    obtain ⟨n, hn⟩ : ∃ n, c.new[i]? = some n := ⟨_, getElem?_eq_getElem (by omega)⟩
    simp only [ChangeRecord.Complete, hop] at hcomplete
    have hfield := hcomplete i o n ho hn
    rw [UpdateField, if_pos hpk] at hfield
    obtain ⟨x, rfl⟩ := ne_none_iff_exists'.mp hfield
    exact ⟨x, hagrees i x ho, ho⟩
  refine ⟨?_, hpresent⟩
  have hkey : c.key pkFlags = recordKey pkFlags c.old := by simp [key, hop]
  rw [hkey]
  refine recordKey_of_agrees hrow fun p hp => ?_
  obtain ⟨hp, hpk⟩ := mem_keyPositions.mp hp
  obtain ⟨x, -, hx⟩ := hpresent p hpk hp
  exact ⟨x, hx⟩

theorem keySame_of_keyOf (hop : c.op = .update) (hfull : c.Full pkFlags.length)
    (hcomplete : c.Complete pkFlags) (hrow : agrees c.old row = true)
    (hkey : keyOf pkFlags (overlay c.new row) = keyOf pkFlags row)
    : c.KeySame pkFlags := by
  intro _ i v hpk hv
  have hnew : c.new.length = pkFlags.length := hfull.new (by simp [hop])
  have hi : i < pkFlags.length := hnew ▸ (List.getElem?_eq_some_iff.mp hv).1
  obtain ⟨x, hx, ho⟩ := (key_of_update hop hfull hcomplete hrow).2 i hpk hi
  have hsame := map_inj_left.mp hkey i (mem_keyPositions.mpr ⟨hi, hpk⟩)
  simp only [getD_eq_getElem?_getD, getElem?_overlay, hx, hv, map_some,
    join_some, getD_some] at hsame
  rw [ho, hsame]

/-- A row that a complete record accepts has the key of the record. -/
theorem key_of_act (hfull : c.Full pkFlags.length) (hcomplete : c.Complete pkFlags)
    {row' : Option (List Value)} (hact : c.act (some row) = some row')
    : agrees c.old row = true ∧ row.length = pkFlags.length
      ∧ c.key pkFlags = keyOf pkFlags row := by
  cases hop : c.op with
  | insert => simp [act, hop] at hact
  | update =>
    simp only [act, hop] at hact
    split_ifs at hact with hrow
    have hlen : c.old.length = pkFlags.length := hfull.old (by simp [hop])
    exact ⟨hrow, (agrees_iff.mp hrow).1 ▸ hlen, (key_of_update hop hfull hcomplete hrow).1⟩
  | delete =>
    simp only [act, hop] at hact
    split_ifs at hact with hrow
    have hlen : c.old.length = pkFlags.length := hfull.old (by simp [hop])
    simp only [ChangeRecord.Complete, hop] at hcomplete
    refine ⟨hrow, (agrees_iff.mp hrow).1 ▸ hlen, ?_⟩
    have hkey : c.key pkFlags = recordKey pkFlags c.old := by simp [key, hop]
    rw [hkey, recordKey, map_getD_of_agrees hrow hcomplete.2]

section Keyed

variable {schema : Schema}

/-- Before a record that leads to keyed rows, the rows were keyed, and the record keeps the key. -/
theorem keyed_before {name : Bytes} (hschema : schema name = some (pkFlags.length, pkFlags))
    (hfull : c.Full pkFlags.length) (hcomplete : c.Complete pkFlags)
    (happly : (c.edit name pkFlags).apply rows = some rows') (hkeyed : KeyedRows schema rows')
    : KeyedRows schema rows ∧ c.KeySame pkFlags := by
  obtain ⟨hact, hothers⟩ := PointEdit.apply_eq_some happly
  constructor
  · intro table key row hrow
    by_cases hkey : (table, key) = (c.edit name pkFlags).key
    · rw [← hkey, hrow] at hact
      obtain ⟨-, hlen, hc⟩ := key_of_act hfull hcomplete hact
      obtain ⟨rfl, rfl⟩ := Prod.mk.inj hkey
      exact ⟨pkFlags, by rw [hschema, hlen], hlen.symm, hc.symm⟩
    · exact hkeyed table key row (by rw [hothers _ hkey, hrow])
  intro hop
  cases hrow : rows (c.edit name pkFlags).key with
  | none =>
    rw [hrow] at hact
    simp [edit, act, hop] at hact
  | some row =>
    rw [hrow] at hact
    obtain ⟨hagrees, hlen, hkey⟩ := key_of_act hfull hcomplete hact
    have hnew : some (some (overlay c.new row)) = some (rows' (c.edit name pkFlags).key) := by
      rw [← hact]
      simp [edit, act, hop, hagrees]
    obtain ⟨flags, hflags, -, hkey'⟩ := hkeyed _ _ _ (Option.some.inj hnew).symm
    obtain ⟨-, rfl⟩ := Prod.mk.inj (Option.some.inj (hschema.symm.trans hflags))
    exact keySame_of_keyOf hop hfull hcomplete hagrees (hkey'.trans hkey) hop

/-- The same for the records of a group, in order. -/
theorem keyed_before_records {g : Group} (hg : g.Sound)
    (hschema : schema g.name = some (g.ncol, g.pkFlags)) {records : List (Bool × ChangeRecord)}
    (hrecords : ∀ p ∈ records, p ∈ g.records)
    (happly : PointEdit.applyAll (records.map fun p => p.2.edit g.name g.pkFlags) rows = some rows')
    (hkeyed : KeyedRows schema rows')
    : KeyedRows schema rows ∧ ∀ p ∈ records, p.2.KeySame g.pkFlags := by
  have hflags : g.ncol = g.pkFlags.length := hg.readable.flags.symm
  induction records generalizing rows with
  | nil =>
    cases happly
    exact ⟨hkeyed, nofun⟩
  | cons p records ih =>
    obtain ⟨hp, hps⟩ := forall_mem_cons.mp hrecords
    obtain ⟨mid, hfirst, hrest⟩ := bind_eq_some_iff.mp happly
    obtain ⟨hmid, hsame⟩ := ih hps hrest
    obtain ⟨hrows, hp'⟩ := keyed_before (hflags ▸ hschema) (hflags ▸ (hg.record hp).toFull)
      (hg.complete p hp) hfirst hmid
    exact ⟨hrows, forall_mem_cons.mpr ⟨hp', hsame⟩⟩

end Keyed

theorem groupEdits_cons (g : Group) (groups : List Group)
    : groupEdits (g :: groups)
      = (g.records.map fun p => p.2.edit g.name g.pkFlags) ++ groupEdits groups := by
  simp [groupEdits, changesetEdits, TableChangeset.edits, Group.changeset]

/-- The groups are sound and have the columns and keys of the schema. -/
structure Fits (schema : Schema) (groups : List Group) : Prop where
  shapes : ∀ g ∈ groups, schema g.name = some (g.ncol, g.pkFlags)
  sound : ∀ g ∈ groups, g.Sound

theorem Fits.keySame {schema : Schema} {groups : List Group} (h : Fits schema groups)
    (happly : PointEdit.applyAll (groupEdits groups) rows = some rows')
    (hkeyed : KeyedRows schema rows')
    : KeyedRows schema rows ∧ ∀ g ∈ groups, ∀ p ∈ g.records, p.2.KeySame g.pkFlags := by
  obtain ⟨hshapes, hsound⟩ := h
  induction groups generalizing rows with
  | nil =>
    cases happly
    exact ⟨hkeyed, nofun⟩
  | cons g groups ih =>
    obtain ⟨hshape, hshapes⟩ := forall_mem_cons.mp hshapes
    obtain ⟨hg, hgs⟩ := forall_mem_cons.mp hsound
    rw [groupEdits_cons, PointEdit.applyAll_append] at happly
    obtain ⟨mid, hfirst, hrest⟩ := bind_eq_some_iff.mp happly
    obtain ⟨hmid, hsame⟩ := ih hrest hshapes hgs
    obtain ⟨hrows, hrecords⟩ := keyed_before_records hg hshape (fun _ hp => hp) hfirst hmid
    exact ⟨hrows, forall_mem_cons.mpr ⟨hrecords, hsame⟩⟩

end GraphiteSql.Session
