import GraphiteSql.Dml.Table
import Mathlib.Data.List.Sort

/-! Constraints of a new row: NOT NULL columns, and conflicts with existing rows on the rowid and on
unique keys, in the order in which they are resolved.
-/

namespace GraphiteSql.Dml

variable (m : TableMeta)

def notNullMessage (c : ColumnInfo) : String :=
  "NOT NULL constraint failed: " ++ c.label

/-- A NULL in a NOT NULL column: REPLACE puts the default there, IGNORE skips the row. -/
def resolveNull (c : ColumnInfo) (oc : OnConflict) : Except DmlError (Option Value) :=
  match oc with
  | .ignore => .ok none
  | .replace =>
      match c.default with
      | some v => if v = .null then .error (.constraint oc (notNullMessage c)) else .ok (some v)
      | none => .error (.constraint oc (notNullMessage c))
  | oc => .error (.constraint oc (notNullMessage c))

/-- `resolve_not_null`: the row to go on with, or nothing if it is skipped. `override` is the
action of the statement, if it has one.
-/
def resolveNotNull (override : Option OnConflict)
    : List ColumnInfo → Row → Except DmlError (Option Row)
  | c :: columns, v :: values => do
      match c.notNull, v with
      | some oc, .null =>
          match ← resolveNull c (override.getD oc) with
          | none => return none
          | some v => return (← resolveNotNull override columns values).map (v :: ·)
      | _, v => return (← resolveNotNull override columns values).map (v :: ·)
  | _, values => .ok (some values)

def checkNotNull : List ColumnInfo → Row → Except DmlError Unit
  | c :: columns, v :: values =>
      if c.notNull.isSome && v == .null then .error (.constraint .abort (notNullMessage c))
      else checkNotNull columns values
  | _, _ => .ok ()

def hasNull (key : List Value) : Bool :=
  key.any (· == .null)

def sameKey (colls : List Collation) (a b : List Value) : Bool :=
  a.length == b.length && ((a.zip b).zip colls).all fun p => cmpValuesColl p.1.1 p.1.2 p.2 == .eq

def sameSet (set : List Nat) (a b : Row) : Bool :=
  set.all fun i => cmpValuesColl (a.getD i .null) (b.getD i .null) (m.collation i) == .eq

inductive ViolationName where
  | rowid (ipk : Option Nat)
  | columns (cols : List Nat)
  | index (name : String)
deriving DecidableEq, Repr

/-- A violated constraint: its declared action and the existing rows that collide with the new
one, by rowid or by position.
-/
structure Violation (ι : Type) where
  declared : OnConflict
  rows : List ι
  name : ViolationName

def IndexMeta.violationName (idx : IndexMeta) : ViolationName :=
  if idx.hasExprs then .index idx.name else .columns idx.cols

def violation {ι : Type} (declared : OnConflict) (name : ViolationName) (rows : List ι)
    : Option (Violation ι) :=
  if rows.isEmpty then none else some { declared, rows, name }

def violationMessage : ViolationName → String
  | .rowid (some ipk) => "UNIQUE constraint failed: " ++ m.label ipk
  | .rowid none =>
    "UNIQUE constraint failed: " ++ (m.columns.head?.map (·.table)).getD "" ++ ".rowid"
  | .columns cols => "UNIQUE constraint failed: " ++ ", ".intercalate (cols.map m.label)
  | .index name => "UNIQUE constraint failed: index '" ++ name ++ "'"

def sortedIds {ι : Type} [LE ι] [DecidableLE ι] [DecidableEq ι] (ids : List ι) : List ι :=
  (ids.insertionSort (· ≤ ·)).dedup

def IndexMeta.seekRowids (idx : IndexMeta) (indexed : List (Int64 × Row)) (key : List Value)
    : List Int64 :=
  (indexed.filter fun r =>
    idx.inIndex (some r.1) r.2 && sameKey idx.collations (idx.keyValues r.1 r.2) key).map (·.1)

/-- The rows that an index finds for a new row. A NULL in the key is distinct from everything. -/
def IndexMeta.candidates (idx : IndexMeta) (indexed : List (Int64 × Row)) (rowid : Int64)
    (values : Row) : List Int64 :=
  if idx.inIndex (some rowid) values && !hasNull (idx.keyValues rowid values) then
    idx.seekRowids indexed (idx.keyValues rowid values)
  else []

/-- `conflict_candidates`: the rows that may collide with a new row, found by its rowid and by its
keys in the unique indexes, and read from the table.
-/
def conflictCandidates (indexed : List (Int64 × Row)) (t : RowTable)
    (rowid : Int64) (values : Row) : List (Int64 × Row) :=
  let ids := (if (t.get? rowid).isSome then [rowid] else [])
    ++ (m.indexes.filter (·.unique)).flatMap fun idx => idx.candidates indexed rowid values
  (sortedIds ids).filterMap fun id => (t.get? id).map (id, ·)

def IndexMeta.collisions (idx : IndexMeta) (candidates : List (Int64 × Row)) (rowid : Int64)
    (values : Row) : List Int64 :=
  if idx.inIndex (some rowid) values && !hasNull (idx.keyValues rowid values) then
    idx.seekRowids candidates (idx.keyValues rowid values)
  else []

def setCollisions (candidates : List (Int64 × Row)) (set : List Nat) (values : Row)
    : List Int64 :=
  if set.any fun i => values.getD i .null == .null then []
  else (candidates.filter fun r => sameSet m set r.2 values).map (·.1)

/-- `find_conflicts_ordered`: the violated constraints, rowid first, then unique indexes and unique
sets, the last declared first. `exclude` is the row that is updated.
-/
def findConflictsOrdered (indexed : List (Int64 × Row)) (t : RowTable)
    (rowid : Int64) (values : Row) (exclude : Option Int64) : List (Violation Int64) :=
  let live := (conflictCandidates m indexed t rowid values).filter fun r => some r.1 != exclude
  (violation m.ipkOnConflict (.rowid m.ipk) ((live.filter fun r => r.1 == rowid).map (·.1))).toList
    ++ m.standalone.reverse.filterMap (fun idx =>
      violation .abort idx.violationName (idx.collisions live rowid values))
    ++ m.unique.reverse.filterMap fun (set, oc) =>
      violation oc (.columns set) (setCollisions m live set values)

def wrConflictsOrdered (existing : List (Nat × Row)) (values : Row)
    : List (Violation Nat) :=
  m.standalone.reverse.filterMap (fun idx =>
      violation .abort idx.violationName
        (if idx.inIndex none values && !hasNull (idx.keyValues 0 values) then
          (existing.filter fun r => idx.inIndex none r.2
            && sameKey idx.collations (idx.keyValues 0 r.2) (idx.keyValues 0 values)).map (·.1)
        else []))
    ++ m.unique.reverse.filterMap fun (set, oc) =>
      violation oc (.columns set)
        (if set.any fun i => values.getD i .null == .null then []
        else (existing.filter fun r => sameSet m set r.2 values).map (·.1))

inductive ConflictOutcome (ι : Type) where
  | none
  | skip
  | error (oc : OnConflict) (msg : String)
  /-- Delete these rows, then write the new one. -/
  | replace (rows : List ι)

/-- The first violation whose action is not REPLACE decides. -/
def firstHalt {ι : Type} (m : TableMeta) (override : Option OnConflict)
    : List (Violation ι) → Option (ConflictOutcome ι)
  | [] => .none
  | v :: violations =>
      match override.getD v.declared with
      | .replace => firstHalt m override violations
      | .ignore => some .skip
      | oc => some (.error oc (violationMessage m v.name))

/-- `resolve_conflict`. Rows are deleted only if every violation is replaced. -/
def resolveConflict {ι : Type} [LE ι] [DecidableLE ι] [DecidableEq ι] (m : TableMeta)
    (override : Option OnConflict) (violations : List (Violation ι)) : ConflictOutcome ι :=
  if violations.isEmpty then .none
  else (firstHalt m override violations).getD
    (.replace (sortedIds (violations.flatMap (·.rows))))

end GraphiteSql.Dml
