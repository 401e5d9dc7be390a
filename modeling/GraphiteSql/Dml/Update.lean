import GraphiteSql.Dml.Conflict

/-! UPDATE on tables with and without rowids. Triggers and foreign keys are left out: the tables
have none here.
-/

namespace GraphiteSql.Dml

variable (m : TableMeta) (u : Update)

/-- An UPDATE statement. The WHERE clause and the SET list are given as what they evaluate to on a
row; `assign` includes the affinities and generated columns of the new row. `orderLimit` is what
ORDER BY and LIMIT make of the matching rowids.
-/
structure Update where
  onConflict : OnConflict
  explicit : Bool
  selects : Option Int64 → Row → Bool
  orderLimit : Option (List Int64 → List Int64)
  assign : Option Int64 → Row → Row

def Update.override : Option OnConflict :=
  if u.explicit then some u.onConflict else none

def takeKept : List Int64 → List (Int64 × Row) → List (Int64 × Row)
  | [], _ => []
  | id :: kept, rows =>
      match rows.find? fun r => r.1 == id with
      | none => takeKept kept rows
      | some r => r :: takeKept kept (rows.filter fun r => r.1 != id)

def targets (t : RowTable) : List (Int64 × Row) :=
  let found := t.rows.filter fun r => u.selects (some r.1) r.2
  match u.orderLimit with
  | none => found
  | some keep => takeKept (keep (found.map (·.1))) found

structure Prepared where
  rowid : Int64
  old : Row
  new : Row

def prepare (t : RowTable) : List Prepared :=
  (targets u t).map fun r => { rowid := r.1, old := r.2, new := u.assign (some r.1) r.2 }

def rowidOf (rowid : Int64) (values : Row) : Except DmlError Int64 :=
  match m.ipk with
  | none => .ok rowid
  | some ipk =>
      match values.getD ipk .null with
      | .integer i => .ok i
      | _ => .error (.error "datatype mismatch")

def checkRow (onConflict : OnConflict) (override : Option OnConflict)
    (rowid : Int64) (values : Row) : Except DmlError (Option Row) := do
  match ← resolveNotNull override m.columns values with
  | none => return none
  | some values =>
      match m.check (some rowid) values with
      | .ok _ => return some values
      | .error (.constraint _ msg) =>
          if onConflict = .ignore then return none else throw (.constraint onConflict msg)
      | .error e => throw e

structure UpdatePlan where
  rowid : Int64
  values : Row
  replaced : List Int64

/-- What the outcome of the conflicts makes of a row that passed its own constraints. -/
def ConflictOutcome.plan {ι α : Type} (write : List ι → α)
    : ConflictOutcome ι → Except DmlError (Option α)
  | .none => .ok (some (write []))
  | .skip => .ok .none
  | .error oc msg => .error (.constraint oc msg)
  | .replace rows => .ok (some (write rows))

def newRow (p : Prepared)
    : Except DmlError (Option (Int64 × Row)) := do
  let _ ← rowidOf m p.rowid p.new
  match ← checkRow m u.onConflict u.override p.rowid p.new with
  | none => return none
  | some values => return some (← rowidOf m p.rowid values, values)

def planUpdate (s : DmlState) (p : Prepared)
    : Except DmlError (Option UpdatePlan) := do
  match ← newRow m u p with
  | none => return none
  | some (rowid, values) =>
      let violations := findConflictsOrdered m s.indexed s.table rowid values (some p.rowid)
      (resolveConflict m u.override violations).plan fun replaced => { rowid, values, replaced }

/-- Write a row: the replaced rows are deleted without a report, then the row is moved to its new
rowid and values.
-/
def DmlState.write (s : DmlState) (p : Prepared) (plan : UpdatePlan) : DmlState :=
  let table := plan.replaced.foldl RowTable.delete s.table
  { s with
    table := (table.delete p.rowid).insert plan.rowid plan.values
    log := s.log
      ++ [{ op := .update, rowid := p.rowid, old := some p.old, new := some plan.values }] }

def updateRows : List Prepared → (affected : Nat) → DmlM Nat
  | [], affected => pure affected
  | p :: rest, affected => fun s =>
      match planUpdate m u s p with
      | .error e => .error e s
      | .ok none => updateRows rest affected s
      | .ok (some plan) => updateRows rest (affected + 1) (s.write p plan)

def rebuildIndexes : DmlM Unit :=
  modify fun s => { s with indexed := s.table.rows }

def execUpdate : DmlM Nat := do
  let affected ← updateRows m u (prepare u (← get).table) 0
  if 0 < affected then rebuildIndexes
  return affected

structure WrState where
  rows : List Row
  log : List Report

abbrev WrM := EStateM DmlError WrState

/-- The rows of an update in progress, each with a flag whether REPLACE has removed it. -/
abbrev WrSlots := List (Row × Bool)

def WrSlots.others (slots : WrSlots) (i : Nat) : List (Nat × Row) :=
  (slots.zipIdx.filter fun p => p.2 != i && !p.1.2).map fun p => (p.2, p.1.1)

def checkPkNotNull (row : Row) : Except DmlError Unit :=
  match m.pk.find? fun c => row.getD c.1 .null == .null with
  | some c => .error (.constraint .abort ("NOT NULL constraint failed: " ++ m.label c.1))
  | none => .ok ()

def wrPlanUpdate (slots : WrSlots) (i : Nat) (original : Row)
    : Except DmlError (Option (Row × List Nat)) := do
  if !u.selects none original then return none else
  let row := u.assign none original
  checkPkNotNull m row
  checkNotNull m.columns row
  m.check none row
  (resolveConflict m u.override (wrConflictsOrdered m (slots.others i) row)).plan (row, ·)

def WrSlots.write (slots : WrSlots) (i : Nat) (row : Row) (removed : List Nat) : WrSlots :=
  (removed.foldl (fun slots j => slots.modify j fun p => (p.1, true)) slots).set i (row, false)

def wrUpdateReports (slots : WrSlots) (original row : Row) (removed : List Nat) : List Report :=
  removed.map (fun j => { op := .delete, rowid := 0, old := (slots[j]?).map (·.1), new := none })
    ++ [{ op := .update, rowid := 0, old := some original, new := some row }]

def wrUpdateRows : List (Row × Nat) → WrSlots → (affected : Nat)
    → WrM (WrSlots × Nat)
  | [], slots, affected => pure (slots, affected)
  | (original, i) :: rest, slots, affected => fun s =>
      if (slots[i]?).any (·.2) then wrUpdateRows rest slots affected s else
      match wrPlanUpdate m u slots i original with
      | .error e => .error e s
      | .ok none => wrUpdateRows rest slots affected s
      | .ok (some (row, removed)) =>
          wrUpdateRows rest (slots.write i row removed) (affected + 1)
            { s with log := s.log ++ wrUpdateReports slots original row removed }

def cmpPk (a b : Row) : Ordering :=
  m.pk.foldr (fun c rest =>
    let column := cmpValuesColl (a.getD c.1 .null) (b.getD c.1 .null) (m.collation c.1)
    (if c.2 then column.swap else column).then rest) .eq

def wrRewrite (rows : List Row) : List Row :=
  rows.insertionSort fun a b => cmpPk m a b ≠ .gt

def WrSlots.kept (slots : WrSlots) : List Row :=
  (slots.filter (!·.2)).map (·.1)

def execUpdateWithoutRowid : WrM Nat := do
  let rows := (← get).rows
  let (slots, affected) ← wrUpdateRows m u rows.zipIdx (rows.map (·, false)) 0
  if 0 < affected then modify fun s => { s with rows := wrRewrite m slots.kept }
  return affected

end GraphiteSql.Dml
