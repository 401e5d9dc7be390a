import GraphiteSql.Pager.CommitPoints
import GraphiteSql.Pager.LogFile
import GraphiteSql.Pager.NewDatabase
import GraphiteSql.Pager.Playback

/-! A database that was opened is at a commit point, and a rollback returns to the latest one. -/

namespace GraphiteSql

open Lib List PagerState WritePager
open Std (TreeMap)

variable {header : DatabaseHeader}

-- Attaching to a log

/-- A shared index that ends where the log file does holds the commits of the file. -/
def WalIndex.Mirrors (ix : WalIndex) (wal : Bytes) : Prop :=
  ∀ ps hdr committed, parseLogHeader wal ps = .ok (some hdr)
    → committed = committedFrames (validFrames wal ps hdr wal.length walHdrLen hdr.cksum)
    → ix.matchesDisk (walHdrLen + committed.length * frameLen ps) hdr.salt ps = true
    → ix.log = committed ∧ ix.mxFrame = committed.length

section Open

variable {wal : Bytes} {ix index : WalIndex} {w : WalRuntime}

/-- A connection that attaches to a log reads its newest commit. -/
theorem attachWal_newest {ps : Nat} (mirrors : ix.Mirrors wal)
    (h : attachWal wal ix ps = .ok (index, some w))
    : w.registeredMark = none ∧ w.snapshot = index.snapshot
      ∧ index.snapshotDbSize index.mxFrame = some w.dbSize := by
  cases hhdr : parseLogHeader wal ps with
  | error e =>
    rw [attachWal, hhdr] at h
    cases h
  | ok found =>
    cases found with
    | none =>
      rw [attachWal, hhdr] at h
      obtain ⟨rfl, hw⟩ := Prod.mk.inj (Except.ok.inj h)
      unfold attachFromIndexOnly at hw
      dsimp only at hw
      split_ifs at hw with hzero
      cases hw
      refine ⟨rfl, rfl, ?_⟩
      show ix.snapshotDbSize ix.mxFrame = some ((ix.snapshotDbSize ix.mxFrame).getD 0)
      cases hsize : ix.snapshotDbSize ix.mxFrame with
      | some size => rfl
      | none =>
        exact absurd (by show (ix.snapshotDbSize ix.mxFrame).getD 0 = 0; rw [hsize]; rfl) hzero
    | some hdr =>
      rw [attachWal_eq ix hhdr rfl] at h
      split_ifs at h with hempty
      · cases h
      obtain ⟨rfl, hw⟩ := Prod.mk.inj (Except.ok.inj h)
      cases hw
      refine ⟨rfl, rfl, ?_⟩
      obtain ⟨size, hsize⟩ := lastSize_committed hempty
      generalize hcommitted : committedFrames
        (validFrames wal ps hdr wal.length walHdrLen hdr.cksum) = committed
      have htake : (ix.attach ps hdr committed).log.take (ix.attach ps hdr committed).mxFrame
          = committed := by
        unfold WalIndex.attach
        split_ifs with hmatch
        · obtain ⟨hlog, hmx⟩ := mirrors ps hdr committed hhdr hcommitted.symm hmatch
          rw [hlog, hmx]
          exact take_length
        · exact take_length
      rw [← lastSize_committedFrames, snapshotDbSize_eq, htake, ← hcommitted, hsize]
      rfl

theorem parse_counter {db head : Bytes}
    (hread : readExactAt db headerLen 0 = .ok head)
      (hparse : DatabaseHeader.parse head = .ok header)
    : be32 db 24 = some header.changeCounter := by
  have hcounter := be32_eq_some.mp (DatabaseHeader.parse_ok hparse).2
  rw [slice_slice (readExactAt_ok.mp hread) (by decide)] at hcounter
  exact be32_eq_some.mpr hcounter

/-- The fields of a pager that was just opened without a log. -/
theorem fresh_atCommit {v : Vfs} {head : Bytes} (journal walFile : Bool)
    (hread : readExactAt v.disk.db headerLen 0 = .ok head)
    (hparse : DatabaseHeader.parse head = .ok header)
    : AtCommit ⟨v, .fresh header (.ofNat (v.disk.db.length / header.pageSize.toNat))
        (.ofNat (v.disk.db.length / header.pageSize.toNat)) journal walFile none⟩ where
  header := rfl
  pages := rfl
  clean := TreeMap.isEmpty_emptyc
  counter := fun _ counter hcounter => by
    unfold diskChangeCounter at hcounter
    split_ifs at hcounter
    obtain ⟨hdr, hslice, hfield⟩ := Option.bind_eq_some_iff.mp hcounter
    have hcounter' := be32_eq_some.mp hfield
    rw [slice_slice hslice (by decide)] at hcounter'
    have hsame : be32 v.disk.db 24 = some counter := be32_eq_some.mpr hcounter'
    rw [parse_counter hread hparse] at hsame
    exact (Option.some.inj hsame).symm
  filePages := fun _ n hn => by
    unfold mainFilePageCount at hn
    split_ifs at hn
    exact (Option.some.inj hn).symm
  newest := fun _ h => by cases h
  size := fun _ h => by cases h
  page1 := absurd rfl

/-- The fields of a pager that was just opened on a log. -/
theorem fresh_atCommit_wal {v : Vfs} (pages : UInt32)
    (journal walFile : Bool) (pageSize : Nat) (hnewest : w.snapshot = v.index.snapshot)
    (hsize : v.index.snapshotDbSize v.index.mxFrame = some w.dbSize)
    (hpage1 : ∀ page : Bytes, (match v.index.findFrame 1 w.snapshot.mxFrame with
        | some p => .ok p
        | none => readExactAt v.disk.db pageSize 0 : Result Bytes) = .ok page
      → be32 page 24 = some header.changeCounter)
    : AtCommit ⟨v, { fresh header pages w.dbSize journal walFile (some w) with
        pageSize }⟩ where
  header := rfl
  pages := rfl
  clean := TreeMap.isEmpty_emptyc
  counter := nofun
  filePages := nofun
  newest := fun _ h => by
    cases h
    exact hnewest
  size := fun _ h => by
    cases h
    exact hsize
  page1 := fun _ page hdr hread hparse => by
    have hcounter := (DatabaseHeader.parse_ok hparse).2
    have hpage := hpage1 page (by
      unfold PagerState.readPage at hread
      rw [show (fresh header pages w.dbSize journal walFile (some w)).overlay[(1 : UInt32)]?
        = none from TreeMap.getElem?_of_isEmpty TreeMap.isEmpty_emptyc] at hread
      dsimp only [fresh] at hread
      cases hfind : v.index.findFrame 1 w.snapshot.mxFrame with
      | some p =>
        rw [hfind] at hread
        exact hread
      | none =>
        rw [hfind] at hread
        dsimp only at hread
        split_ifs at hread
        simpa [readDisk] using hread)
    rw [hpage] at hcounter
    exact (Option.some.inj hcounter).symm

-- Opening

/-- What the recovery of a journal leaves alone. -/
def LogKept (o o' : Opening) : Prop :=
  o'.vfs.disk.wal = o.vfs.disk.wal ∧ o'.vfs.index = o.vfs.index

section Recovery

variable {o : Opening}

theorem recover_log : Maintains (LogKept o) recover := by
  intro o' ho'
  rw [Runs, recover_plays]
  refine ⟨?_, ho'.2⟩
  rw [← ho'.1]
  exact Playback.run_ops_wal _ _

theorem openingLock_log (target : LockLevel) : Maintains (LogKept o) (Opening.lock target) := by
  refine .get_bind fun o' ho' => ?_
  refine runs_lift_bind.mpr ⟨fun r hr => ?_, fun _ _ => ho'⟩
  obtain ⟨locks, -, rfl⟩ := Vfs.lock_ok hr
  exact ho'

theorem recoverHotJournalLocked_log : Maintains (LogKept o) recoverHotJournalLocked := by
  refine .get_bind fun o' ho' => ?_
  split
  · exact ho'
  split
  · cases hlock : o'.vfs.lock o'.level .reserved with
    | error e => exact ho'
    | ok r =>
      obtain ⟨locks, -, rfl⟩ := Vfs.lock_ok hlock
      exact ho'
  refine Maintains.bind (maintains_lift _) (fun _ => ?_) o' ho'
  split
  · exact .pure _
  · exact (openingLock_log _).bind fun _ => recover_log

theorem recoverHotJournal_log : Maintains (LogKept o) recoverHotJournal := by
  refine .get_bind fun o' ho' => ?_
  split
  · exact ho'
  refine (openingLock_log _).bind (fun _ => ?_) o' ho'
  intro o'' ho''
  have hrun := recoverHotJournalLocked_log o'' ho''
  unfold Runs thenAlways
  cases hlocked : recoverHotJournalLocked o'' with
  | ok u r =>
    have hkept : LogKept o r := hrun.ok hlocked
    exact hkept
  | error e r =>
    have hkept : LogKept o r := hrun.error hlocked
    exact hkept

end Recovery

/-- A database that was just opened is at its last commit. -/
theorem openWal_commitPoint {journal walFile : Bool} {o : Opening}
    (mirrors : o.vfs.index.Mirrors o.vfs.disk.wal)
    : Runs (openWal journal walFile) o (fun wp o' => CommitPoint ⟨o'.vfs, wp⟩)
      (fun _ _ => True) := by
  have hrecover : ∀ rest : Unit → OpenM WritePager,
      (∀ o', LogKept o o' → Runs (rest ()) o' (fun wp o' => CommitPoint ⟨o'.vfs, wp⟩)
        (fun _ _ => True))
      → Runs (if journal = true then recoverHotJournal >>= rest else rest ()) o
        (fun wp o' => CommitPoint ⟨o'.vfs, wp⟩) (fun _ _ => True) := by
    intro rest hrest
    cases journal with
    | true =>
      rw [if_pos rfl]
      exact (recoverHotJournal_log o ⟨rfl, rfl⟩).bind (fun _ => hrest) (fun _ _ _ => trivial)
    | false => exact hrest o ⟨rfl, rfl⟩
  unfold openWal
  refine hrecover _ fun o' ho' => ?_
  rw [runs_get_bind]
  dsimp only
  split
  · trivial
  refine runs_lift_bind.mpr ⟨fun head hread => ?_, fun _ _ => trivial⟩
  refine runs_lift_bind.mpr ⟨fun header hparse => ?_, fun _ _ => trivial⟩
  split
  · trivial
  split
  · exact ⟨fresh_atCommit journal walFile hread hparse, rfl, rfl, rfl⟩
  refine runs_lift_bind.mpr ⟨fun attached hattach => ?_, fun _ _ => trivial⟩
  obtain ⟨index, wal⟩ := attached
  let v : Vfs := { o'.vfs with index }
  cases wal with
  | none => exact ⟨fresh_atCommit (v := v) journal walFile hread hparse, rfl, rfl, rfl⟩
  | some w =>
    rw [← ho'.1, ← ho'.2] at mirrors
    obtain ⟨hmark, hnewest, hsize⟩ := attachWal_newest mirrors hattach
    dsimp only
    cases hfind : index.findFrame 1 w.snapshot.mxFrame with
    | some p1 =>
      -- The header is the one of the newest page 1 in the log.
      refine runs_lift_bind.mpr ⟨fun newest hp1 => ?_, fun _ _ => trivial⟩
      refine ⟨fresh_atCommit_wal (v := v) _ _ _ _ hnewest hsize fun page hpage => ?_, rfl, rfl,
        pin_none rfl hmark⟩
      rw [show v.index.findFrame 1 w.snapshot.mxFrame = some p1 from hfind] at hpage
      cases hpage
      exact (DatabaseHeader.parse_ok hp1).2
    | none =>
      refine ⟨fresh_atCommit_wal (v := v) _ _ _ _ hnewest hsize fun page hpage => ?_, rfl, rfl,
        pin_none rfl hmark⟩
      rw [show v.index.findFrame 1 w.snapshot.mxFrame = none from hfind] at hpage
      have hslice := readExactAt_ok.mp hpage
      have hcounter := be32_eq_some.mp (parse_counter hread hparse)
      refine be32_eq_some.mpr ?_
      rw [slice_slice hslice ?_]
      · exact hcounter
      · have hmin := (DatabaseHeader.parse_ok hparse).1.minimum
        omega

end Open

/-- A pager that works on a database: pages of a size of the file format, at least one of them, and
a file handle with the lock that the pager believes to hold.
-/
structure PagerState.Proper (s : PagerState) : Prop where
  pageSize : 512 ≤ s.wp.pageSize
  pages : 1 ≤ s.wp.pageCount.toNat
  inStep : s.InStep

/-- The states right after a commit that wrote something, or after an open. -/
inductive Committed : PagerState → Prop
  | opened {journal walFile : Bool} {o o' : Opening} {wp : WritePager}
    (mirrors : o.vfs.index.Mirrors o.vfs.disk.wal) (h : openWal journal walFile o = .ok wp o')
    : Committed ⟨o'.vfs, wp⟩
  | committed {b c : PagerState} (proper : b.Proper) (dirty : b.wp.overlay.isEmpty = false)
    (h : commit b = .ok () c) : Committed c

theorem Committed.commitPoint {c : PagerState} (h : Committed c) : CommitPoint c := by
  cases h with
  | opened mirrors hopen => exact (openWal_commitPoint mirrors).ok hopen
  | @committed b c proper dirty hcommit =>
    unfold commit at hcommit
    rw [estate_get_bind, if_neg (by rw [dirty]; decide)] at hcommit
    have hpage : headerLen ≤ b.wp.pageSize := le_trans (by decide) proper.pageSize
    split at hcommit
    · exact (commitWal_commitPoint proper.pages proper.inStep).ok hcommit
    · rename_i hmode
      exact (commitJournal_commitPoint (by simpa using hmode) hpage (by rw [dirty]; decide)).ok
        hcommit

/-- After any sequence of calls since the last commit or open, in either journal mode and in any
auto-vacuum mode, a rollback restores that commit: the header, the page count and every page, with
nothing staged, no savepoint, no lock and no reader mark left.
-/
theorem rollback_restores_commit {c u : PagerState} (start : Committed c)
    (run : Relation.ReflTransGen TxnStep c u) : ∃ t, rollback u = .ok () t ∧ Restored c u t := by
  have base := start.commitPoint
  have hend := rollback_restored base (txnSteps_tied base run)
  cases hroll : rollback u with
  | ok a t => exact ⟨t, rfl, hend.ok hroll⟩
  | error e t => exact (hend.error hroll).elim

def grownCalls : Bool :=
  match createAutoVacuum true false 512 .none with
  | .ok wp =>
      match commit ⟨emptyVfs, wp⟩ with
      | .ok _ c =>
          match (PagerCall.page .allocate).run c with
          | .ok _ u => wp.overlay.isEmpty == false && wp.pageSize == 512
              && c.wp.pageCount == 1 && u.wp.pageCount == 2
          | .error _ _ => false
      | .error _ _ => false
  | .error _ => false

/-- A page that was allocated after the first commit of a new database is gone again. -/
theorem rollback_restores_commit_grown
    : ∃ wp c u t, createAutoVacuum true false 512 .none = .ok wp ∧ commit ⟨emptyVfs, wp⟩ = .ok () c
      ∧ (PagerCall.page .allocate).run c = .ok () u ∧ u.wp.pageCount = 2
      ∧ rollback u = .ok () t ∧ Restored c u t ∧ t.wp.pageCount = 1 := by
  have hcalls : grownCalls = true := by decide +kernel
  unfold grownCalls at hcalls
  cases hnew : createAutoVacuum true false 512 .none with
  | error e =>
    rw [hnew] at hcalls
    cases hcalls
  | ok wp =>
    rw [hnew] at hcalls
    dsimp only at hcalls
    cases hcommit : commit ⟨emptyVfs, wp⟩ with
    | error e c =>
      rw [hcommit] at hcalls
      cases hcalls
    | ok a c =>
      rw [hcommit] at hcalls
      dsimp only at hcalls
      cases hcall : (PagerCall.page .allocate).run c with
      | error e u =>
        rw [hcall] at hcalls
        cases hcalls
      | ok a' u =>
        rw [hcall] at hcalls
        simp only [Bool.and_eq_true, beq_iff_eq] at hcalls
        obtain ⟨⟨⟨hdirty, hsize⟩, hone⟩, htwo⟩ := hcalls
        have hstep : PagerState.InStep ⟨emptyVfs, wp⟩ := by
          obtain ⟨-, page1, -, rfl⟩ := createAutoVacuum_ok hnew
          rfl
        have hproper : PagerState.Proper ⟨emptyVfs, wp⟩ :=
          ⟨Nat.le_of_eq hsize.symm, by rw [(createAutoVacuum_locks hnew).1]; decide, hstep⟩
        obtain ⟨t, hroll, hrestored⟩ := rollback_restores_commit
          (.committed hproper hdirty hcommit) (.single (.ok _ hcall))
        exact ⟨wp, c, u, t, rfl, hcommit, hcall, htwo, hroll, hrestored,
          hrestored.pageCount.trans hone⟩

end GraphiteSql
