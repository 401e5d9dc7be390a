import GraphiteSql.Pager.LockLevels
import GraphiteSql.Pager.Restore
import GraphiteSql.Pager.StagingCalls

/-! Whatever a connection does between two commits, a rollback brings the last commit back. -/

namespace GraphiteSql

open Lib
open Std (TreeMap)

inductive PagerCall where
  | page (op : PageOp)
  | headerMut (change : DatabaseHeader → DatabaseHeader)
  | savepoint (name : String)
  | release (name : String)
  | rollbackTo (name : String)
  | incrementalVacuum (n : Int64)
  | beginWrite
  | beginRead
  | endRead
  | beginAutocommitRead
  | endAutocommitRead
  | revalidate

def PagerCall.run : PagerCall → PagerM Unit
  | .page op => op.run
  | .headerMut change => GraphiteSql.headerMut change
  | .savepoint name => GraphiteSql.savepoint name
  | .release name => releaseSavepoint name
  | .rollbackTo name => rollbackToSavepoint name
  | .incrementalVacuum n => do
      let _ ← GraphiteSql.incrementalVacuum n
  | .beginWrite => GraphiteSql.beginWrite
  | .beginRead => beginReadTxn
  | .endRead => endReadTxn
  | .beginAutocommitRead => do
      let _ ← GraphiteSql.beginAutocommitRead
  | .endAutocommitRead => GraphiteSql.endAutocommitRead
  | .revalidate => revalidateReadCache

/-- One step between two commits: a call, whatever its outcome, a commit that finds nothing to
write, or other connections that take and drop locks and reader marks of their own.
-/
inductive TxnStep : PagerState → PagerState → Prop
  | ok {s t : PagerState} (call : PagerCall) : call.run s = .ok () t → TxnStep s t
  | error {s t : PagerState} {e : Error} (call : PagerCall) : call.run s = .error e t → TxnStep s t
  | nothing {s t : PagerState} : s.wp.overlay.isEmpty = true → commit s = .ok () t → TxnStep s t
  | others {s : PagerState} (locks : LockState) (readers : List Nat) : s.wp.marks.Subperm readers
    → TxnStep s { s with vfs := { s.vfs with locks, index := { s.vfs.index with readers } } }

section Txn

variable {c : PagerState}

/-- What every step between two commits keeps. -/
def Tied (c s : PagerState) : Prop :=
  Restorable c s ∧ s.InStep

theorem tied_ignoresStaging (base : AtCommit c) : IgnoresStaging (Tied c) where
  acquire := (acquireWriteIntent_restorable base).and acquireWriteIntent_inStep
  restage := fun _ _ _ _ hs => ⟨hs.1.congr rfl rfl rfl rfl rfl rfl, hs.2⟩

theorem pagerCall_tied (base : AtCommit c) (call : PagerCall) : Maintains (Tied c) call.run := by
  have keeps := tied_ignoresStaging base
  cases call with
  | page op => exact pageOp_ignored keeps op
  | headerMut change => exact headerMut_ignored keeps change
  | savepoint name => exact savepoint_ignored keeps name
  | release name => exact releaseSavepoint_ignored keeps name
  | rollbackTo name => exact rollbackToSavepoint_ignored keeps name
  | incrementalVacuum n => exact (incrementalVacuum_ignored keeps n).bind fun _ => .pure _
  | beginWrite => exact keeps.acquire
  | beginRead => exact (beginReadTxn_restorable base).and beginReadTxn_inStep
  | endRead => exact endTxn_restorable.2.and endTxn_inStep.2
  | beginAutocommitRead =>
    exact (beginAutocommitRead_restorable.and beginAutocommitRead_inStep).bind
      fun _ => .pure _
  | endAutocommitRead => exact endAutocommitRead_restorable.and endAutocommitRead_inStep
  | revalidate => exact (revalidateReadCache_restorable base).and revalidateReadCache_inStep

theorem txnStep_tied (base : AtCommit c) {s t : PagerState} (hs : Tied c s) (h : TxnStep s t)
    : Tied c t := by
  cases h with
  | ok call hcall => exact (pagerCall_tied base call s hs).ok hcall
  | error call hcall => exact (pagerCall_tied base call s hs).error hcall
  | nothing hempty hcommit =>
    unfold commit at hcommit
    rw [estate_get_bind, if_pos hempty] at hcommit
    exact ((endTxn_restorable.1.and endTxn_inStep.1) s hs).ok hcommit
  | others locks readers hmarks =>
    refine ⟨?_, hs.2⟩
    exact {
      db := hs.1.db
      index := by
        rw [hs.1.index]
      pageSize := hs.1.pageSize
      committedHeader := hs.1.committedHeader
      wal := hs.1.wal
      diskPages := hs.1.diskPages
      marks := fun _ => hmarks }

theorem txnSteps_tied (base : CommitPoint c) {t : PagerState}
    (h : Relation.ReflTransGen TxnStep c t) : Tied c t := by
  induction h with
  | refl => exact ⟨Restorable.refl c, base.level.trans base.unlocked.symm⟩
  | tail _ step ih => exact txnStep_tied base.toAtCommit ih step

theorem releaseLocks_frame (s : PagerState)
    : Maintains (fun t => t.wp.header = s.wp.header ∧ t.wp.pageCount = s.wp.pageCount
      ∧ t.wp.overlay = s.wp.overlay ∧ t.wp.savepoints = s.wp.savepoints) releaseLocks := by
  refine .bind (Maintains.modify fun _ ht => ht) fun _ => .bind ?_ fun _ => ?_
  · refine .get_bind fun t ht => ?_
    split <;> exact ht
  · refine .get_bind fun t ht => ?_
    split <;> exact ht

theorem releaseLocks_marks {s : PagerState} (unpinned : c.wp.pin = none) (hs : Restorable c s)
    : Runs releaseLocks s
      (fun _ t => s.vfs.index.readers.Perm (s.wp.marks ++ t.vfs.index.readers))
      (fun _ _ => False) := by
  unfold releaseLocks
  rw [runs_bind, modifyWp, runs_modify, runs_bind]
  have hstart : Restorable c { s with wp := { s.wp with readTxn := false } } :=
    hs.congr rfl rfl rfl rfl rfl rfl
  refine (unpin_marks hstart).mono (fun _ t ht => ?_) (fun _ _ => id)
  rw [runs_get_bind]
  split <;> exact ht.2 unpinned

/-- What a rollback of `u` leaves behind, when `c` was the state right after the last commit. -/
structure Restored (c u t : PagerState) : Prop where
  header : t.wp.header = c.wp.header
  pageCount : t.wp.pageCount = c.wp.pageCount
  overlay : t.wp.overlay.isEmpty = true
  savepoints : t.wp.savepoints = []
  held : t.wp.held = .unlocked
  level : t.wp.level = .unlocked
  unpinned : t.wp.pin = none
  marks : u.vfs.index.readers.Perm (u.wp.marks ++ t.vfs.index.readers)
  pages : ∀ n, t.readPage n = c.readPage n

/-- A rollback restores the last commit. -/
theorem rollback_restored (base : CommitPoint c) {u : PagerState} (hu : Tied c u)
    : Runs rollback u (fun _ => Restored c u) (fun _ _ => False) := by
  let u' : PagerState := { u with wp := { u.wp with
    overlay := ∅
    header := u.wp.committedHeader
    pageCount := u.wp.committedPages
    savepoints := [] } }
  have hu' : Tied c u' := (tied_ignoresStaging base.toAtCommit).restage _ _ _ _ hu
  have hcount : u'.wp.pageCount = c.wp.pageCount := by
    show u.wp.committedPages = _
    rw [base.pages]
    unfold WritePager.committedPages
    cases hwal : u.wp.wal with
    | none => rw [hu.1.wal_none.mp hwal, hu.1.diskPages hwal]
    | some w =>
      obtain ⟨v, hv, -, hsize⟩ := hu.1.wal_some hwal
      rw [hv]
      exact hsize.symm
  have hend := ((releaseLocks_frame u' u' ⟨rfl, rfl, rfl, rfl⟩).and
    ((endTxn_restorable.1.and endTxn_inStep.1) u' hu')).and
      ((releaseLocks_ended u').and (releaseLocks_marks base.unpinned hu'.1))
  refine hend.mono (fun _ t ht => ?_) (fun _ _ ht => ht.2.2)
  obtain ⟨⟨⟨hheader, hpages, hover, hsave⟩, hrest, hstep⟩, ⟨hpin, hheld⟩, hmarks⟩ := ht
  have hclean : t.wp.overlay.isEmpty = true := by
    rw [hover]
    exact TreeMap.isEmpty_emptyc
  exact {
    header := by rw [hheader, base.header]; exact hu.1.committedHeader
    pageCount := hpages.trans hcount
    overlay := hclean
    savepoints := hsave
    held := hheld
    level := hstep.trans hheld
    unpinned := hpin
    marks := hmarks
    pages := fun n => hrest.readPage (TreeMap.getElem?_of_isEmpty base.clean)
      (TreeMap.getElem?_of_isEmpty hclean) }

end Txn

end GraphiteSql
