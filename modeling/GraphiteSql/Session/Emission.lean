import GraphiteSql.Session.Fields

/-! What the serializer decides to emit for a session, and that its output is the bytes of that. -/

namespace GraphiteSql.Session

open Lib List ChangeRecord

/-- The columns of an update: old value, new value and position. -/
abbrev UpdateColumn := (Value × Value) × Nat

def UpdateColumn.changed (c : UpdateColumn) : Bool :=
  !c.1.1.partialEq c.1.2

/-- The record of an update. A changeset has the old values of changed and key columns and the
new values of changed ones; a patchset has the new values of changed and key columns, and the
key stands in for the old record.
-/
def emitUpdate (cols : List UpdateColumn) (pkFlags : Bytes) (patchset : Bool) : ChangeRecord where
  op := .update
  old := cols.map fun c =>
    if patchset then if isPk pkFlags c.2 then some c.1.2 else none
    else if c.changed || isPk pkFlags c.2 then some c.1.1 else none
  new := cols.map fun c =>
    if c.changed || (patchset && isPk pkFlags c.2) then some c.1.2 else none

def emitDelete (old : List Value) (pkFlags : Bytes) (patchset : Bool) : ChangeRecord where
  op := .delete
  old := old.zipIdx.map fun (v, i) => if patchset && !isPk pkFlags i then none else some v
  new := []

def emitChange (t : TableChanges) (patchset : Bool) (readRow : RowReader) (c : Change)
    : Option ChangeRecord :=
  match c.op, readRow t.name c.pk with
  | .insert, some row => some { op := .insert, old := [], new := row.map some }
  | .insert, none => none
  | _, some row =>
      let cols := (c.old.zip row).zipIdx
      if cols.any UpdateColumn.changed then some (emitUpdate cols t.pkFlags patchset) else none
  | _, none => some (emitDelete c.old t.pkFlags patchset)

/-- The records that can be emitted for a change. -/
theorem emitChange_cases {t : TableChanges} {patchset : Bool} {readRow : RowReader} {c : Change}
    {r : ChangeRecord} (h : emitChange t patchset readRow c = some r)
    : (∃ row : List Value, r = { op := .insert, old := [], new := row.map some })
      ∨ r = emitDelete c.old t.pkFlags patchset
      ∨ ∃ row, r = emitUpdate (c.old.zip row).zipIdx t.pkFlags patchset := by
  have hupdate : ∀ row, (if (c.old.zip row).zipIdx.any UpdateColumn.changed then
      some (emitUpdate (c.old.zip row).zipIdx t.pkFlags patchset) else none) = some r
      → r = emitUpdate (c.old.zip row).zipIdx t.pkFlags patchset := fun row hr => by
    split_ifs at hr
    exact (Option.some.inj hr).symm
  unfold emitChange at h
  cases hrow : readRow t.name c.pk with
  | none =>
    cases hop : c.op with
    | insert => simp [hop, hrow] at h
    | _ =>
      simp only [hop, hrow, Option.some.injEq] at h
      exact .inr (.inl h.symm)
  | some row =>
    cases hop : c.op with
    | insert =>
      simp only [hop, hrow, Option.some.injEq] at h
      exact .inl ⟨row, h.symm⟩
    | _ => exact .inr (.inr ⟨row, hupdate row (by simpa only [hop, hrow] using h)⟩)

def emitTable (patchset : Bool) (readRow : RowReader) (t : TableChanges) : Option TableChangeset :=
  let changes := t.buckets.flatten.filterMap (emitChange t patchset readRow)
  if t.isEmpty || changes.isEmpty then none
  else some { name := t.name, ncol := t.ncol, pkFlags := t.pkFlags, changes }

def emitted (s : SessionState) (patchset : Bool) (readRow : RowReader) : List TableChangeset :=
  s.tables.filterMap (emitTable patchset readRow)

/-- The images the operation needs have every column. -/
structure ChangeRecord.Full (c : ChangeRecord) (ncol : Nat) : Prop where
  old : c.op ≠ .insert → c.old.length = ncol
  new : c.op ≠ .delete → c.new.length = ncol

structure ChangeRecord.Readable (c : ChangeRecord) (ncol : Nat) : Prop extends c.Full ncol where
  oldFields : ∀ f ∈ c.old, ReadableField f
  newFields : ∀ f ∈ c.new, ReadableField f

/-- A group that can be read back: its header fits the table, and so do its records. -/
structure TableChangeset.Readable (g : TableChangeset) : Prop where
  columns : 0 < g.ncol
  fits : g.ncol < 2 ^ 56
  flags : g.pkFlags.length = g.ncol
  changes : ∀ c ∈ g.changes, c.Readable g.ncol

instance (ncol : Nat) (c : ChangeRecord) : Decidable (c.Readable ncol) :=
  decidable_of_iff
    (((c.op ≠ .insert → c.old.length = ncol) ∧ (c.op ≠ .delete → c.new.length = ncol))
      ∧ (∀ f ∈ c.old, ReadableField f) ∧ ∀ f ∈ c.new, ReadableField f)
    ⟨fun h => ⟨⟨h.1.1, h.1.2⟩, h.2.1, h.2.2⟩, fun h => ⟨⟨h.old, h.new⟩, h.oldFields, h.newFields⟩⟩

instance : DecidablePred TableChangeset.Readable :=
  fun g => decidable_of_iff (0 < g.ncol ∧ g.ncol < 2 ^ 56 ∧ g.pkFlags.length = g.ncol
      ∧ ∀ c ∈ g.changes, c.Readable g.ncol)
    ⟨fun h => ⟨h.1, h.2.1, h.2.2.1, h.2.2.2⟩, fun h => ⟨h.columns, h.fits, h.flags, h.changes⟩⟩

def ChangeOp.byte : ChangeOp → UInt8
  | .insert => opInsert
  | .update => opUpdate
  | .delete => opDelete

def ChangeRecord.bytes (c : ChangeRecord) (pkFlags : Bytes) (patchset : Bool) : Bytes :=
  match c.op with
  | .insert => c.new.flatMap appendField
  | .update => (if patchset then [] else c.old.flatMap appendField) ++ c.new.flatMap appendField
  | .delete => c.old.zipIdx.flatMap fun (f, i) =>
      if patchset && !isPk pkFlags i then [] else appendField f

theorem appendUpdate_emit (old new : List Value) (pkFlags : Bytes) (patchset indirect : Bool)
    : appendUpdate old new pkFlags patchset indirect
      = if (old.zip new).zipIdx.any UpdateColumn.changed then
          some ([opUpdate, boolByte indirect]
            ++ (emitUpdate (old.zip new).zipIdx pkFlags patchset).bytes pkFlags patchset)
        else none := by
  unfold appendUpdate bytes emitUpdate UpdateColumn.changed
  cases patchset <;> simp only [flatMap_map, append_assoc] <;> rfl

/-- Numbering the items of a numbered list again gives the same numbers. -/
theorem zipIdx_map_zipIdx {α β : Type} (l : List α) (f : α × Nat → β) (k : Nat)
    : ((l.zipIdx k).map f).zipIdx k = (l.zipIdx k).map fun p => (f p, p.2) := by
  induction l generalizing k with
  | nil => rfl
  | cons head tail ih => simp only [zipIdx_cons, map_cons, ih]

theorem appendDelete_emit (old : List Value) (pkFlags : Bytes) (patchset indirect : Bool)
    : appendDelete old pkFlags patchset indirect
      = [opDelete, boolByte indirect]
        ++ (emitDelete old pkFlags patchset).bytes pkFlags patchset := by
  unfold appendDelete bytes emitDelete
  dsimp only
  rw [zipIdx_map_zipIdx, flatMap_map]
  congr 2
  funext ⟨v, i⟩
  split_ifs <;> rfl

/-- The bytes of a change are those of the record emitted for it. -/
theorem appendChange_emit (t : TableChanges) (patchset : Bool) (readRow : RowReader) (c : Change)
    : appendChange t patchset readRow c
      = (emitChange t patchset readRow c).map fun r =>
          [r.op.byte, boolByte c.indirect] ++ r.bytes t.pkFlags patchset := by
  have hupdate : ∀ row, appendUpdate c.old row t.pkFlags patchset c.indirect
      = (if (c.old.zip row).zipIdx.any UpdateColumn.changed then
            some (emitUpdate (c.old.zip row).zipIdx t.pkFlags patchset) else none).map fun r =>
          [r.op.byte, boolByte c.indirect] ++ r.bytes t.pkFlags patchset := fun row => by
    rw [appendUpdate_emit]
    split_ifs <;> rfl
  unfold appendChange emitChange
  cases c.op with
  | insert =>
    cases readRow t.name c.pk with
    | none => rfl
    | some row => simp [bytes, flatMap_map, appendField, ChangeOp.byte]
  | update =>
    cases readRow t.name c.pk with
    | none => exact congrArg some (appendDelete_emit _ _ _ _)
    | some row => exact hupdate row
  | delete =>
    cases readRow t.name c.pk with
    | none => exact congrArg some (appendDelete_emit _ _ _ _)
    | some row => exact hupdate row

def emittedChanges (t : TableChanges) (patchset : Bool) (readRow : RowReader)
    : List (Bool × ChangeRecord) :=
  t.buckets.flatten.filterMap fun c => (emitChange t patchset readRow c).map (c.indirect, ·)

def recordBytes (pkFlags : Bytes) (patchset : Bool) (p : Bool × ChangeRecord) : Bytes :=
  [p.2.op.byte, boolByte p.1] ++ p.2.bytes pkFlags patchset

theorem serializeTable_emit (patchset : Bool) (readRow : RowReader) (t : TableChanges)
    : serializeTable patchset readRow t
      = if t.isEmpty || (emittedChanges t patchset readRow).isEmpty then []
        else tableHeader t patchset
          ++ (emittedChanges t patchset readRow).flatMap (recordBytes t.pkFlags patchset) := by
  have hchanges : t.buckets.flatten.filterMap (appendChange t patchset readRow)
      = (emittedChanges t patchset readRow).map (recordBytes t.pkFlags patchset) := by
    rw [emittedChanges, map_filterMap]
    congr 1
    funext c
    rw [appendChange_emit, Option.map_map]
    rfl
  unfold serializeTable
  rw [hchanges]
  cases t.isEmpty <;> simp [flatMap_def]

theorem emitTable_emit (patchset : Bool) (readRow : RowReader) (t : TableChanges)
    : emitTable patchset readRow t
      = if t.isEmpty || (emittedChanges t patchset readRow).isEmpty then none
        else some {
          name := t.name
          ncol := t.ncol
          pkFlags := t.pkFlags
          changes := (emittedChanges t patchset readRow).map Prod.snd } := by
  have hchanges : t.buckets.flatten.filterMap (emitChange t patchset readRow)
      = (emittedChanges t patchset readRow).map Prod.snd := by
    rw [emittedChanges, map_filterMap]
    congr 1
    funext c
    rw [Option.map_map]
    exact Option.map_id'.symm
  unfold emitTable
  rw [hchanges]
  simp

/-- The changes of one table as a changeset has them: records with their indirect flags. -/
structure Group where
  name : Bytes
  ncol : Nat
  pkFlags : Bytes
  records : List (Bool × ChangeRecord)
deriving DecidableEq, Repr

namespace Group

def header (g : Group) : Bytes :=
  [0x54] ++ appendVarint g.ncol ++ g.pkFlags ++ g.name ++ [0]

def bytes (g : Group) : Bytes :=
  g.header ++ g.records.flatMap (recordBytes g.pkFlags false)

def changeset (g : Group) : TableChangeset where
  name := g.name
  ncol := g.ncol
  pkFlags := g.pkFlags
  changes := g.records.map Prod.snd

end Group

def emitGroup (readRow : RowReader) (t : TableChanges) : Option Group :=
  if t.isEmpty || (emittedChanges t false readRow).isEmpty then none
  else some {
    name := t.name
    ncol := t.ncol
    pkFlags := t.pkFlags
    records := emittedChanges t false readRow }

def emittedGroups (s : SessionState) (readRow : RowReader) : List Group :=
  s.tables.filterMap (emitGroup readRow)

/-- A serialized changeset is the bytes of its groups. -/
theorem serialize_groups (s : SessionState) (readRow : RowReader)
    : serialize s readRow = (emittedGroups s readRow).flatMap Group.bytes := by
  unfold serialize serializeImpl emittedGroups
  induction s.tables with
  | nil => rfl
  | cons t rest ih =>
    rw [flatMap_cons, ih, serializeTable_emit, filterMap_cons, emitGroup]
    split_ifs
    · rfl
    · simp [Group.bytes, Group.header, tableHeader]

theorem emitted_groups (s : SessionState) (readRow : RowReader)
    : emitted s false readRow = (emittedGroups s readRow).map Group.changeset := by
  unfold emitted emittedGroups
  rw [map_filterMap]
  congr 1
  funext t
  rw [emitTable_emit, emitGroup]
  split_ifs <;> rfl

end GraphiteSql.Session
