import GraphiteSql.Session.Recorder

/-! Histories of one table under a session: every row operation is reported to the recorder, and
a rollback to an earlier state is not. The recorder then holds, for each row that some operation
touched, what the row was at the start.
-/

namespace GraphiteSql.Session

open Lib List

/-- The primary-key layout of a table, and its INTEGER PRIMARY KEY column if it has one. -/
structure Layout where
  pkFlags : Bytes
  ipk : Option Nat
deriving DecidableEq, Repr

namespace Layout

def ncol (l : Layout) : Nat :=
  l.pkFlags.length

/-- The key values of a reported row. An INTEGER PRIMARY KEY slot that holds no integer yet
stands for the rowid.
-/
def pkValues (l : Layout) (rowid : Int64) (row : List Value) : Option (List Value) :=
  if row.length < l.ncol then none
  else some ((keyPositions l.pkFlags).map fun p =>
    if some p = l.ipk then
      match row.getD p .null with
      | .integer i => .integer i
      | _ => .integer rowid
    else row.getD p .null)

/-- A row of the table: its width, and an integer in an integer key. -/
structure IsRow (l : Layout) (row : List Value) : Prop where
  length : row.length = l.ncol
  integer : ∀ p ∈ l.ipk, p ∈ keyPositions l.pkFlags → ∃ i, row.getD p .null = .integer i

end Layout

/-- Report a row change to the session. An update is an UPDATE under the old key and an INSERT
under the new one.
-/
def recordSessionChange (s : SessionState) (table : Bytes) (l : Layout) (op : ChangeOp)
    (rowid : Int64) (oldRow newRow : Option (List Value)) (indirect : Bool) : SessionState :=
  match op, oldRow, newRow with
  | .insert, _, some row =>
      match l.pkValues rowid row with
      | some pk =>
          s.record table l.ncol l.pkFlags .insert pk (.replicate l.ncol .null) indirect
      | none => s
  | .delete, some row, _ =>
      match l.pkValues rowid row with
      | some pk => s.record table l.ncol l.pkFlags .delete pk (row.take l.ncol) indirect
      | none => s
  | .update, some old, some new =>
      match l.pkValues rowid old, l.pkValues rowid new with
      | some oldPk, some newPk =>
          (s.record table l.ncol l.pkFlags .update oldPk (old.take l.ncol) indirect).record
            table l.ncol l.pkFlags .insert newPk (.replicate l.ncol .null) indirect
      | _, _ => s
  | _, _, _ => s

theorem Layout.IsRow.pkValues {l : Layout} {row : List Value} (h : l.IsRow row) (rowid : Int64)
    : l.pkValues rowid row = some (keyOf l.pkFlags row) := by
  unfold Layout.pkValues
  rw [if_neg (by simp [h.length])]
  congr 1
  refine map_congr_left fun p hp => ?_
  split_ifs with hipk
  · obtain ⟨i, hi⟩ := h.integer p (by simp [← hipk]) hp
    rw [hi]
  · rfl

abbrev TableRows := List Value → Option (List Value)

def Layout.Keyed (l : Layout) (rows : TableRows) : Prop :=
  ∀ k row, rows k = some row → l.IsRow row ∧ keyOf l.pkFlags row = k

def KeysNotNull (rows : TableRows) : Prop :=
  ∀ k, rows k ≠ none → .null ∉ k

/-- A history of a table: the recorder, all states that occurred and the last one. -/
inductive History (table : Bytes) (l : Layout) (start : TableRows)
    : SessionState → List TableRows → TableRows → Prop where
  /-- An enabled session that tracks the table and has recorded nothing. -/
  | attach {s : SessionState} (enabled : s.enabled = true)
      (attached : s.attachAll = true ∨ table ∈ s.attached) (empty : s.tables = [])
      : History table l start s [start] start
  /-- An insertion; the reported row may leave the rowid to be filled in. -/
  | insert {s : SessionState} {seen : List TableRows} {rows : TableRows}
      (before : History table l start s seen rows) {row : List Value} (isRow : l.IsRow row)
      (absent : rows (keyOf l.pkFlags row) = none) {rowid : Int64} {reported : List Value}
      (sameKey : l.pkValues rowid reported = some (keyOf l.pkFlags row)) (indirect : Bool)
      : History table l start
          (recordSessionChange s table l .insert rowid none (some reported) indirect)
          (Function.update rows (keyOf l.pkFlags row) (some row) :: seen)
          (Function.update rows (keyOf l.pkFlags row) (some row))
  /-- An update, which may move the row to another key that is free. -/
  | update {s : SessionState} {seen : List TableRows} {rows : TableRows}
      (before : History table l start s seen rows) {old new : List Value} (isRow : l.IsRow new)
      (present : rows (keyOf l.pkFlags old) = some old)
      (free : keyOf l.pkFlags new = keyOf l.pkFlags old ∨ rows (keyOf l.pkFlags new) = none)
      (rowid : Int64) (indirect : Bool)
      : History table l start
          (recordSessionChange s table l .update rowid (some old) (some new) indirect)
          (Function.update (Function.update rows (keyOf l.pkFlags old) none)
            (keyOf l.pkFlags new) (some new) :: seen)
          (Function.update (Function.update rows (keyOf l.pkFlags old) none)
            (keyOf l.pkFlags new) (some new))
  | delete {s : SessionState} {seen : List TableRows} {rows : TableRows}
      (before : History table l start s seen rows) {old : List Value}
      (present : rows (keyOf l.pkFlags old) = some old) (rowid : Int64) (indirect : Bool)
      : History table l start
          (recordSessionChange s table l .delete rowid (some old) none indirect)
          (Function.update rows (keyOf l.pkFlags old) none :: seen)
          (Function.update rows (keyOf l.pkFlags old) none)
  /-- A rollback to a state that occurred; it is not reported. -/
  | rollback {s : SessionState} {seen : List TableRows} {rows rows' : TableRows}
      (before : History table l start s seen rows) (occurred : rows' ∈ seen)
      : History table l start s seen rows'

theorem History.last_mem {table : Bytes} {l : Layout} {start rows : TableRows} {s : SessionState}
    {seen : List TableRows} (h : History table l start s seen rows)
    : rows ∈ seen := by
  cases h with
  | rollback _ occurred => exact occurred
  | _ => exact mem_cons_self

end GraphiteSql.Session
