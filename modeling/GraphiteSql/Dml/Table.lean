import GraphiteSql.Session.Changeset
import Mathlib.Data.List.Nodup

/-! Tables as the row statements see them: columns with their constraints, unique keys, rows under
rowids, and the changes that are reported to a session.
-/

namespace GraphiteSql.Dml

open List

open Session (ChangeOp)

variable {t : RowTable} {rowid : Int64}

abbrev Row := List Value

inductive OnConflict where
  | rollback
  | abort
  | fail
  | ignore
  | replace
deriving DecidableEq, Repr

/-- Why a statement stops. A constraint error carries the action that decides how much of the
statement is undone.
-/
inductive DmlError where
  | error (msg : String)
  | constraint (oc : OnConflict) (msg : String)
deriving DecidableEq, Repr

/-- A column: its table and name for messages, its collation, the action of its NOT NULL
constraint if it has one, and its default value.
-/
structure ColumnInfo where
  table : String
  name : String
  collation : Collation
  notNull : Option OnConflict
  default : Option Value

def ColumnInfo.label (c : ColumnInfo) : String :=
  c.table ++ "." ++ c.name

/-- An index. The predicate of a partial index and the expressions of the key are given as what
they evaluate to on a row; `auto` marks the automatic index of a UNIQUE or PRIMARY KEY set.
-/
structure IndexMeta where
  name : String
  unique : Bool
  auto : Bool
  cols : List Nat
  hasExprs : Bool
  collations : List Collation
  inIndex : Option Int64 → Row → Bool
  keyValues : Int64 → Row → List Value

/-- A table. `unique` are its UNIQUE and PRIMARY KEY sets without an INTEGER PRIMARY KEY, which is
`ipk`; `check` stands for the type and CHECK constraints.
-/
structure TableMeta where
  columns : List ColumnInfo
  ipk : Option Nat
  ipkOnConflict : OnConflict
  unique : List (List Nat × OnConflict)
  indexes : List IndexMeta
  check : Option Int64 → Row → Except DmlError Unit
  /-- The primary key of a WITHOUT ROWID table, with a flag for descending columns. -/
  pk : List (Nat × Bool)

namespace TableMeta

def collation (m : TableMeta) (i : Nat) : Collation :=
  (m.columns[i]?.map (·.collation)).getD .binary

def label (m : TableMeta) (i : Nat) : String :=
  (m.columns[i]?.map (·.label)).getD ""

def standalone (m : TableMeta) : List IndexMeta :=
  m.indexes.filter fun idx => idx.unique && !idx.auto

end TableMeta

structure RowTable where
  rows : List (Int64 × Row)
  sorted : rows.Pairwise fun a b => a.1 < b.1

namespace RowTable

def get? (t : RowTable) (rowid : Int64) : Option Row :=
  (t.rows.find? fun r => r.1 == rowid).map (·.2)

def delete (t : RowTable) (rowid : Int64) : RowTable where
  rows := t.rows.filter fun r => r.1 != rowid
  sorted := t.sorted.filter _

def insert (t : RowTable) (rowid : Int64) (row : Row) : RowTable where
  rows := t.rows.filter (fun r => r.1 < rowid) ++ (rowid, row) :: t.rows.filter fun r => rowid < r.1
  sorted := by
    refine pairwise_append.mpr ⟨t.sorted.filter _,
      pairwise_cons.mpr ⟨fun r hr => ?_, t.sorted.filter _⟩, fun a ha b hb => ?_⟩
    · simpa using (mem_filter.mp hr).2
    have hlow : a.1 < rowid := by simpa using (mem_filter.mp ha).2
    cases mem_cons.mp hb with
    | inl heq =>
        subst heq
        exact hlow
    | inr hmem =>
        have hhigh : rowid < b.1 := by simpa using (mem_filter.mp hmem).2
        exact Int64.lt_trans hlow hhigh

theorem rowids_nodup (t : RowTable)
    : (t.rows.map (·.1)).Nodup := by
  refine pairwise_map.mpr (t.sorted.imp fun hlt heq => ?_)
  rw [heq] at hlt
  exact Int64.lt_irrefl hlt

/-- A rowid has one row. -/
theorem unique {a b : Int64 × Row} (ha : a ∈ t.rows) (hb : b ∈ t.rows) (h : a.1 = b.1)
    : a = b :=
  inj_on_of_nodup_map t.rowids_nodup ha hb h

theorem mem_delete {x : Int64 × Row}
    : x ∈ (t.delete rowid).rows ↔ x ∈ t.rows ∧ x.1 ≠ rowid := by
  simp [delete]

theorem mem_insert {row : Row} {x : Int64 × Row}
    : x ∈ (t.insert rowid row).rows ↔ x = (rowid, row) ∨ x ∈ t.rows ∧ x.1 ≠ rowid := by
  simp only [insert, mem_append, mem_cons, mem_filter, decide_eq_true_eq]
  constructor
  · intro h
    rcases h with ⟨hx, hlt⟩ | hx | ⟨hx, hlt⟩
    · exact .inr ⟨hx, fun heq => Int64.lt_irrefl (heq ▸ hlt)⟩
    · exact .inl hx
    · exact .inr ⟨hx, fun heq => Int64.lt_irrefl (heq ▸ hlt)⟩
  intro h
  rcases h with hx | ⟨hx, hne⟩
  · exact .inr (.inl hx)
  by_cases hlt : x.1 < rowid
  · exact .inl ⟨hx, hlt⟩
  · rcases Int64.lt_or_eq_of_le (Int64.not_lt.mp hlt) with hgt | heq
    · exact .inr (.inr ⟨hx, hgt⟩)
    · exact absurd heq.symm hne

theorem get?_eq_some {row : Row}
    : t.get? rowid = some row ↔ (rowid, row) ∈ t.rows := by
  unfold get?
  rw [Option.map_eq_some_iff]
  constructor
  · intro ⟨x, hfind, hrow⟩
    have hid : x.1 = rowid := by simpa using find?_some hfind
    have hx := mem_of_find?_eq_some hfind
    rwa [← hid, ← hrow]
  intro hmem
  cases hfind : t.rows.find? fun r => r.1 == rowid with
  | none => simpa using find?_eq_none.mp hfind _ hmem
  | some x =>
    have hid : x.1 = rowid := by simpa using find?_some hfind
    have hx := unique (mem_of_find?_eq_some hfind) hmem hid
    exact ⟨x, rfl, by rw [hx]⟩

end RowTable

structure Report where
  op : ChangeOp
  rowid : Int64
  old : Option Row
  new : Option Row
deriving DecidableEq, Repr

/-- What a statement on a rowid table changes: the rows, and the reports so far. `indexed` are the
rows that the indexes have entries for; they are brought up to date at the end of a statement.
-/
structure DmlState where
  table : RowTable
  indexed : List (Int64 × Row)
  log : List Report

abbrev DmlM := EStateM DmlError DmlState

end GraphiteSql.Dml
