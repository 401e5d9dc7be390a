import GraphiteSql.Pager.AutoVacuum

/-! Savepoints of a transaction, and the vacuum of `PRAGMA incremental_vacuum`. -/

namespace GraphiteSql

open Lib

def eqIgnoreAsciiCase (a b : String) : Bool :=
  a.toList.map Char.toLower == b.toList.map Char.toLower

def WritePager.findSavepoint (wp : WritePager) (name : String) : Option Nat :=
  (wp.savepoints.reverse.findIdx? fun sp => eqIgnoreAsciiCase sp.name name).map fun i =>
    wp.savepoints.length - 1 - i

def savepoint (name : String) : PagerM Unit :=
  modifyWp fun wp => { wp with
    savepoints := wp.savepoints ++
      [{ name, overlay := wp.overlay, header := wp.header, pageCount := wp.pageCount }] }

def releaseSavepoint (name : String) : PagerM Unit := do
  match (← get).wp.findSavepoint name with
  | some idx => modifyWp fun wp => { wp with savepoints := wp.savepoints.take idx }
  | none => throw (.error s!"no such savepoint: {name}")

/-- `ROLLBACK TO name`: restore the staged state, drop the savepoints nested inside and keep the
savepoint itself open.
-/
def rollbackToSavepoint (name : String) : PagerM Unit := do
  let wp := (← get).wp
  match wp.findSavepoint name with
  | some idx =>
      match wp.savepoints[idx]? with
      | some snap =>
          modifyWp fun wp => { wp with
            overlay := snap.overlay
            header := snap.header
            pageCount := snap.pageCount
            savepoints := wp.savepoints.take (idx + 1) }
      | none => throw (.panic "index out of bounds")
  | none => throw (.error s!"no such savepoint: {name}")

/-- How many pages `PRAGMA incremental_vacuum(n)` may remove, 0 meaning no bound. -/
def vacuumLimit (n : Int64) : Nat :=
  if n ≤ 0 then 0 else min n.toInt.toNat (2 ^ 32 - 1)

/-- Remove up to `n` free pages from the end of the file, all of them when `n ≤ 0`; the number of
pages removed. Does nothing outside INCREMENTAL mode, and an error puts back what was staged.
-/
def incrementalVacuum (n : Int64) : PagerM UInt32 := fun s =>
  if s.autoVacuum ≠ .incremental then .ok 0 s
  else
    match autovacuumTruncate (vacuumLimit n) s with
    | .ok _ s' => .ok (s.wp.pageCount - s'.wp.pageCount) s'
    | .error e s' =>
        if e.isReturned then
          .ok 0 { s' with wp := { s'.wp with
            overlay := s.wp.overlay
            header := s.wp.header
            pageCount := s.wp.pageCount } }
        else .error e s'

end GraphiteSql
