import GraphiteSql.Pager.WalLocks
import GraphiteSql.Pager.WalWorld

/-! Transactions in WAL mode: what they read and commit, and which of them work from the newest
commit when they hold the write lock.
-/

namespace GraphiteSql

open Lib List PagerState WritePager LockLevel
open Std (TreeMap)

/-- A committed transaction: the pages it has read from the database, the header it started from,
and the pages and the size that it has committed.
-/
structure Txn where
  reads : List (UInt32 × Bytes)
  base : DatabaseHeader
  pages : Overlay
  count : UInt32

/-- `db` answers the reads of the transaction as it was answered, and has the header it started
from.
-/
structure Txn.ReadsFrom (x : Txn) (db : Db) : Prop where
  pages : ∀ r ∈ x.reads, ∀ b, db.page r.1 = some b → r.2 = b
  header : ∀ b, db.page 1 = some b → DatabaseHeader.parse b = .ok x.base

/-- The transactions, run one after the other, take the database from `db` to `db'`. -/
def Serial : (db : Db) → List Txn → (db' : Db) → Prop
  | db, [], db' => db' = db
  | db, x :: rest, db' => x.ReadsFrom db ∧ Serial (db.commit x.pages x.count) rest db'

theorem Serial.concat {db db' : Db} {xs : List Txn} (h : Serial db xs db') {x : Txn}
    (hx : x.ReadsFrom db') : Serial db (xs ++ [x]) (db'.commit x.pages x.count) := by
  induction xs generalizing db with
  | nil =>
    cases h
    exact ⟨hx, rfl⟩
  | cons head tail ih => exact ⟨h.1, ih h.2⟩

inductive TxnCall where
  | beginRead
  | read (number : UInt32)
  | write (number : UInt32) (bytes : Bytes)
  | commit
  | rollback
deriving DecidableEq, Repr

def TxnCall.walCall : TxnCall → Option WalCall
  | .beginRead => some .beginRead
  | .read _ => none
  | .write number bytes => some (.page (.write number bytes))
  | .commit => some .commit
  | .rollback => some .rollback

def TxnCall.writes : TxnCall → Bool
  | .write _ _ => true
  | _ => false

namespace PagerState

/-- What the transaction of `s` has read after a call, not counting its own staged pages. An
explicit read transaction and the end of a transaction start afresh.
-/
def readsAfter (s : PagerState) (reads : List (UInt32 × Bytes)) : TxnCall → List (UInt32 × Bytes)
  | .beginRead =>
      match beginReadTxn s with
      | .ok _ _ => if s.wp.pin = none ∧ s.wp.held < .reserved then [] else reads
      | .error _ _ => reads
  | .read number =>
      match s.wp.overlay[number]?, s.readPage number with
      | none, .ok bytes => reads ++ [(number, bytes)]
      | _, _ => reads
  | .write _ _ => reads
  | .commit =>
      match GraphiteSql.commit s with
      | .ok _ _ => []
      | .error _ _ => reads
  | .rollback => []

def txnsOf (s : PagerState) (reads : List (UInt32 × Bytes)) : TxnCall → List Txn
  | .commit =>
      if s.wp.overlay.isEmpty then [] else
      match prepareWal s, GraphiteSql.commit s with
      | .ok _ p, .ok _ _ =>
          [{ reads, base := s.wp.committedHeader, pages := p.wp.overlay, count := p.wp.pageCount }]
      | _, _ => []
  | _ => []

end PagerState

/-- A run: the connections, the database after the latest commit, what the open transaction of
each connection has read, and the committed transactions in the order of their commits.
-/
structure TxnRun where
  world : World
  db : Db
  reads : Nat → List (UInt32 × Bytes)
  history : List Txn

def TxnRun.step (t : TxnRun) (c : Nat × TxnCall) : TxnRun :=
  match t.world.state c.1 with
  | none => t
  | some s =>
      { world := c.2.walCall.elim t.world fun call => t.world.call c.1 call.run
        db := c.2.walCall.elim t.db (s.dbAfter t.db)
        reads := Function.update t.reads c.1 (s.readsAfter (t.reads c.1) c.2)
        history := t.history ++ s.txnsOf (t.reads c.1) c.2 }

-- Working from the newest commit

/-- The connection works from the newest commit: it has its snapshot, its header and its pages. -/
structure PagerState.Newest (s : PagerState) (reads : List (UInt32 × Bytes)) : Prop where
  snapshot : ∃ w, s.wp.wal = some w ∧ w.snapshot.mxFrame = s.vfs.index.mxFrame
    ∧ w.dbSize = s.snapshotSize s.vfs.index.snapshot
  header : s.newestHeader = .ok s.wp.committedHeader
  reads : ∀ r ∈ reads, s.newestPage r.1 = .ok r.2

/-- The newest snapshot of `t` is that of `s`. -/
structure SameNewest (s t : PagerState) : Prop where
  mxFrame : t.vfs.index.mxFrame = s.vfs.index.mxFrame
  size : t.snapshotSize t.vfs.index.snapshot = s.snapshotSize s.vfs.index.snapshot
  page : ∀ n, t.newestPage n = s.newestPage n

variable {ps : Nat} {db : Db} {rest : List Nat} {s t : PagerState} {reads : List (UInt32 × Bytes)}

theorem SameNewest.header (h : SameNewest s t) : t.newestHeader = s.newestHeader := by
  unfold newestHeader
  rw [h.page]

theorem PagerState.Newest.congr (h : s.Newest reads) (hsame : SameNewest s t)
    (hwal : t.wp.wal = s.wp.wal) (hheader : t.wp.committedHeader = s.wp.committedHeader)
    : t.Newest reads where
  snapshot := by
    rw [hwal, hsame.mxFrame, hsame.size]
    exact h.snapshot
  header := by
    rw [hsame.header, hheader]
    exact h.header
  reads := by
    intro r hr
    rw [hsame.page]
    exact h.reads r hr

/-- A call that leaves the main file and the log alone leaves the newest commit alone. -/
theorem SameNewest.of_files (tracks : Tracks ps db s.vfs) (hps : s.wp.pageSize = ps)
    (hdisk : t.vfs.disk = s.vfs.disk)
    (hindex : t.vfs.index = { s.vfs.index with readers := t.vfs.index.readers })
    (hps' : t.wp.pageSize = ps) : SameNewest s t := by
  have hlog : t.vfs.index.log = s.vfs.index.log := by rw [hindex]
  have hmx : t.vfs.index.mxFrame = s.vfs.index.mxFrame := by rw [hindex]
  have hsize : t.snapshotSize t.vfs.index.snapshot = s.snapshotSize s.vfs.index.snapshot := by
    have tracks' : Tracks ps db t.vfs := tracks.congr (by rw [hdisk]) hlog hmx (by rw [hindex])
    rw [tracks.snapshotSize hps, tracks'.snapshotSize hps']
  exact ⟨hmx, hsize, newestPage_congr hdisk hlog hmx (hps'.trans hps.symm) hsize⟩

theorem Quiet.sameNewest (h : Quiet ps db.size rest s t) (calls : Calls ps db rest s)
    : SameNewest s t :=
  .of_files calls.tracks calls.attached.pageSize h.disk h.index h.attached.pageSize

theorem PagerState.Newest.readsFrom (h : s.Newest reads) (tracks : Tracks ps db s.vfs)
    (hps : s.wp.pageSize = ps) (pages : Overlay) (count : UInt32)
    : Txn.ReadsFrom { reads, base := s.wp.committedHeader, pages, count } db where
  pages := by
    intro r hr b hpage
    have hread := h.reads r hr
    rw [tracks.newestPage hps hpage] at hread
    exact (Except.ok.inj hread).symm
  header := by
    intro b hpage
    have hheader := h.header
    unfold newestHeader at hheader
    rw [tracks.newestPage hps hpage] at hheader
    exact hheader

-- One connection

/-- What holds of a connection between two calls. A snapshot that is pinned at the newest commit
has its size and its pages; the holder of the write lock works from the newest commit.
-/
structure PagerState.Coherent (s : PagerState) (reads : List (UInt32 × Bytes)) : Prop where
  entry : s.wp.pin = none → s.wp.held = .unlocked ∨ .reserved ≤ s.wp.held
  pinned : ∀ pin, s.wp.pin = some pin → pin.mxFrame ≤ s.vfs.index.mxFrame
    ∧ (pin.mxFrame = s.vfs.index.mxFrame → pin.dbSize = s.snapshotSize s.vfs.index.snapshot
      ∧ ∀ r ∈ reads, s.newestPage r.1 = .ok r.2)
  locked : .reserved ≤ s.wp.held → s.Newest reads

/-- Taking the write lock is safe now. A pinned connection must be at the newest commit in its
snapshot, its header and its page count. An unpinned one must not have read anything yet, and must
be able to see by the change counter that its header is stale.
-/
def PagerState.Upgradable (s : PagerState) (reads : List (UInt32 × Bytes)) : Prop :=
  s.wp.header = s.wp.committedHeader
    ∧ (∀ pin ∈ s.wp.pin, pin.mxFrame = s.vfs.index.mxFrame ∧ s.newestHeader = .ok s.wp.header
      ∧ s.wp.pageCount = s.snapshotSize s.vfs.index.snapshot)
    ∧ (s.wp.pin = none → reads = [] ∧ ∀ hdr ∈ s.newestHeader.toOption,
      hdr = s.wp.header ∨ hdr.changeCounter ≠ s.wp.header.changeCounter)

instance (s : PagerState) (reads : List (UInt32 × Bytes)) : Decidable (s.Upgradable reads) :=
  inferInstanceAs (Decidable (_ ∧ (∀ pin ∈ s.wp.pin, _) ∧ (s.wp.pin = none → _)))

/-- What coherence depends on. -/
theorem PagerState.Coherent.congr (h : s.Coherent reads) (hsame : SameNewest s t)
    (hwal : t.wp.wal = s.wp.wal) (hheader : t.wp.committedHeader = s.wp.committedHeader)
    (hheld : t.wp.held = s.wp.held) : t.Coherent reads := by
  have hpin : t.wp.pin = s.wp.pin := by rw [pin, hwal, pin]
  refine ⟨?_, fun pin hsome => ?_, fun hlocked => ?_⟩
  · rw [hpin, hheld]
    exact h.entry
  · rw [hpin] at hsome
    obtain ⟨hle, hnow⟩ := h.pinned pin hsome
    rw [hsame.mxFrame, hsame.size]
    refine ⟨hle, fun hmx => ⟨(hnow hmx).1, fun r hr => ?_⟩⟩
    rw [hsame.page]
    exact (hnow hmx).2 r hr
  · rw [hheld] at hlocked
    exact (h.locked hlocked).congr hsame hwal hheader

/-- A connection outside of transactions. -/
theorem PagerState.Coherent.ended (hpin : s.wp.pin = none) (hheld : s.wp.held = .unlocked)
    : s.Coherent reads := by
  refine ⟨fun _ => .inl hheld, fun pin hsome => ?_, fun hlocked => ?_⟩
  · rw [hpin] at hsome
    cases hsome
  · rw [hheld] at hlocked
    exact absurd hlocked (by decide)

theorem PagerState.Coherent.staged (h : s.Coherent reads) (calls : Calls ps db rest s)
    (ht : Staged s t) : t.Coherent reads := by
  refine h.congr ?_ ht.wal (by rw [ht.shape]; rfl) ht.held
  exact .of_files calls.tracks calls.attached.pageSize (by rw [ht.vfs]) (by rw [ht.vfs])
    (ht.pageSize.trans calls.attached.pageSize)

/-- A page that a coherent transaction reads is one of the newest commit, if its snapshot is. -/
theorem PagerState.Coherent.read (h : s.Coherent reads) {n : UInt32} {b : Bytes}
    (hstaged : s.wp.overlay[n]? = none) (hread : s.readPage n = .ok b)
    : s.Coherent (reads ++ [(n, b)]) := by
  have hall : (∀ r ∈ reads, s.newestPage r.1 = .ok r.2) → s.newestPage n = .ok b
      → ∀ r ∈ reads ++ [(n, b)], s.newestPage r.1 = .ok r.2 := by
    intro hold hnew r hr
    rcases mem_append.mp hr with hr | hr
    · exact hold r hr
    · rw [mem_singleton.mp hr]
      exact hnew
  refine ⟨h.entry, fun pin hsome => ?_, fun hlocked => ?_⟩
  · obtain ⟨hle, hnow⟩ := h.pinned pin hsome
    obtain ⟨w, hwal, -, hmark, hsize⟩ := pin_runtime hsome
    refine ⟨hle, fun hmx => ⟨(hnow hmx).1, hall (hnow hmx).2 ?_⟩⟩
    rw [← readPage_newest hwal (hmark.trans hmx) (hsize.trans (hnow hmx).1) hstaged]
    exact hread
  have hnewest := h.locked hlocked
  obtain ⟨w, hwal, hmx, hsize⟩ := hnewest.snapshot
  refine ⟨hnewest.snapshot, hnewest.header, hall hnewest.reads ?_⟩
  rw [← readPage_newest hwal hmx hsize hstaged]
  exact hread

def PagerState.pinnedRuntime (s : PagerState) (w : WalRuntime) : WalRuntime :=
  if w.registeredMark = none then
    { w with
      snapshot := s.vfs.index.snapshot
      dbSize := s.snapshotSize s.vfs.index.snapshot
      registeredMark := some s.vfs.index.mxFrame }
  else w

theorem pinSnapshot_runtime {w : WalRuntime} (hwal : s.wp.wal = some w)
    : Runs pinSnapshot s
      (fun _ t => t.wp.wal = some (s.pinnedRuntime w) ∧ t.wp.held = s.wp.held
        ∧ t.wp.committedHeader = s.wp.committedHeader)
      (fun _ _ => False) := by
  unfold pinSnapshot pinnedRuntime
  rw [runs_get_bind, hwal]
  split
  · rename_i hmark
    rw [if_pos (Option.some.inj hmark)]
    exact ⟨congrArg (Option.map _) hwal, rfl, rfl⟩
  · rename_i hmark
    rw [if_neg fun hnone => hmark (congrArg some hnone)]
    exact ⟨hwal, rfl, rfl⟩

theorem beginReadTxn_runtime {w : WalRuntime} (hwal : s.wp.wal = some w)
    : Runs beginReadTxn s
      (fun _ t => t.wp.wal = some (s.pinnedRuntime w)
        ∧ t.wp.held = (if s.wp.held < .shared then .shared else s.wp.held)
        ∧ t.wp.committedHeader = s.wp.committedHeader)
      (fun _ t => t = s) := by
  refine ensureShared_granted.seq fun _ r hr => ?_
  have hsame : r.pinnedRuntime w = s.pinnedRuntime w := by
    rw [hr.1]
    rfl
  refine (pinSnapshot_runtime (hr.1.wal.trans hwal)).bind (fun _ t ht => ?_) (fun _ _ => False.elim)
  rw [hsame] at ht
  exact ⟨ht.1, ht.2.1.trans hr.2, ht.2.2.trans hr.1.committedHeader⟩

theorem beginRead_coherent (calls : Calls ps db rest s) (h : s.Coherent reads)
    : Ends beginReadTxn s fun t => t.Coherent (s.readsAfter reads .beginRead) := by
  obtain ⟨w, hwal, -⟩ := calls.attached.runtime
  have hspec := (beginReadTxn_runtime hwal).and (beginReadTxn_quiet calls.tracks calls.quiet)
  cases hrun : beginReadTxn s with
  | error e t =>
    refine .of_error hrun ?_
    rw [readsAfter, hrun, (hspec.error hrun).1]
    exact h
  | ok u t =>
    refine .of_ok hrun ?_
    obtain ⟨⟨hwal', hheld', hheader⟩, hquiet⟩ := hspec.ok hrun
    have hsame := hquiet.sameNewest calls
    rw [readsAfter, hrun]
    by_cases hmark : w.registeredMark = none
    · rw [pinnedRuntime, if_pos hmark] at hwal'
      have hpin' := pin_some hwal' rfl
      have hpin := pin_none hwal hmark
      -- Reads of a transaction that holds the write lock already go on.
      have hnewest : ∀ r ∈ (if s.wp.pin = none ∧ s.wp.held < .reserved then [] else reads),
          t.newestPage r.1 = .ok r.2 := by
        intro r hr
        split at hr
        · cases hr
        rename_i hlocked
        have hlocked : reserved ≤ s.wp.held :=
          not_lt.mp fun hlt => hlocked ⟨hpin, hlt⟩
        rw [hsame.page]
        exact (h.locked hlocked).reads r hr
      refine ⟨fun hnone => ?_, fun pin hsome => ?_, fun hlocked => ?_⟩
      · rw [hpin'] at hnone
        cases hnone
      · rw [hpin'] at hsome
        cases hsome
        exact ⟨Nat.le_of_eq hsame.mxFrame.symm, fun _ => ⟨hsame.size.symm, hnewest⟩⟩
      have hlocked : reserved ≤ s.wp.held := by
        rw [hheld'] at hlocked
        split at hlocked
        · exact absurd hlocked (by decide)
        · exact hlocked
      refine ⟨⟨_, hwal', hsame.mxFrame.symm, hsame.size.symm⟩, ?_, hnewest⟩
      rw [hsame.header, hheader]
      exact (h.locked hlocked).header
    · have hpin : s.wp.pin ≠ none := fun hnone =>
        hmark (registeredMark_none hnone hwal)
      rw [pinnedRuntime, if_neg hmark] at hwal'
      rw [if_neg (not_lt.mpr (calls.locksPin hpin))] at hheld'
      rw [if_neg fun hboth => hpin hboth.1]
      exact h.congr hsame (hwal'.trans hwal.symm) hheader hheld'

theorem Relocked.sameNewest (h : Relocked s t) : SameNewest s t := by
  rw [h]
  exact ⟨rfl, rfl, fun _ => rfl⟩

/-- A connection that takes the write lock when that is safe works from the newest commit. -/
theorem acquireWriteIntent_coherent (calls : Calls ps db rest s) (h : s.Coherent reads)
    (hcond : s.wp.held < .reserved → s.Upgradable reads)
    : Runs acquireWriteIntent s
      (fun _ t => t.Coherent reads
        ∧ (s.wp.held < .reserved → t.wp.pageCount = t.snapshotSize t.vfs.index.snapshot))
      (fun _ t => t.Coherent reads ∧ t.wp.held < .reserved) := by
  by_cases hheld : reserved ≤ s.wp.held
  · exact .of_ok (acquireWriteIntent_held hheld) ⟨h, fun hfree => absurd hheld (not_le.mpr hfree)⟩
  have hfree := not_le.mp hheld
  obtain ⟨hheader, hpinned, hunpinned⟩ := hcond hfree
  cases hpin : s.wp.pin with
  | some pin =>
    obtain ⟨hmx, hhdr, hcount⟩ := hpinned pin hpin
    obtain ⟨hsize, hreads⟩ := (h.pinned pin hpin).2 hmx
    refine (acquireWriteIntent_upgrade ⟨hpin, calls.locksPin (by rw [hpin]; simp)⟩ hfree).mono
      (fun _ t ht => ?_) (fun _ t ht => by rw [ht]; exact ⟨h, hfree⟩)
    obtain ⟨hrel, hheld'⟩ := ht
    have hsame := hrel.sameNewest
    have hnewest : s.Newest reads := by
      obtain ⟨w, hwal, -, hmark, hdb⟩ := pin_runtime hpin
      refine ⟨⟨w, hwal, hmark.trans hmx, hdb.trans hsize⟩, ?_, hreads⟩
      rw [← hheader]
      exact hhdr
    have hsome : t.wp.pin = some pin := by rw [WritePager.pin, hrel.wal]; exact hpin
    refine ⟨⟨fun hnone => ?_, fun pin' hpin' => ?_, fun _ => ?_⟩, fun _ => ?_⟩
    · rw [hsome] at hnone
      cases hnone
    · rw [hsome] at hpin'
      cases hpin'
      rw [hsame.mxFrame, hsame.size]
      refine ⟨Nat.le_of_eq hmx, fun _ => ⟨hsize, fun r hr => ?_⟩⟩
      rw [hsame.page]
      exact hreads r hr
    · exact hnewest.congr hsame hrel.wal hrel.committedHeader
    · rw [hrel.pageCount, hsame.size]
      exact hcount
  | none =>
    obtain ⟨rfl, hhdr⟩ := hunpinned hpin
    obtain ⟨w, hwal, -⟩ := calls.attached.runtime
    have hmark := registeredMark_none hpin hwal
    have hentry : s.wp.held = .unlocked := (h.entry hpin).resolve_right hheld
    have hquiet := acquireWriteIntent_quiet calls.tracks calls.quiet calls.guarded
    refine ((acquireWriteIntent_first (calls.guarded.clean hheld) hheader hpin
      (by rw [hwal]; simp) hentry).and hquiet).mono (fun _ t ht => ?_) (fun _ t ht => ?_)
    · obtain ⟨⟨r, hrel, hreserved, hfresh⟩, hquiet, hlocked⟩ := ht
      have hsame := hquiet.sameNewest calls
      have hwal' := hfresh.wal w (hrel.wal.trans hwal)
      have hpin' : t.wp.pin = none := pin_none hwal' hmark
      have hsize : t.snapshotSize t.vfs.index.snapshot = r.snapshotSize r.vfs.index.snapshot := by
        rw [hsame.size, hrel.sameNewest.size]
      refine ⟨⟨fun _ => .inr hlocked, fun pin hsome => ?_, fun _ => ⟨?_, ?_, ?_⟩⟩, fun _ => ?_⟩
      · rw [hpin'] at hsome
        cases hsome
      · refine ⟨_, hwal', ?_, hsize.symm⟩
        rw [hfresh.vfs]
        rfl
      · obtain ⟨hdr, hparsed, hadopted⟩ := hfresh.header
        rw [hrel.sameNewest.header] at hparsed
        rw [hsame.header, hparsed, hadopted]
        rw [hrel.committedHeader, hrel.header, ← hheader]
        exact hhdr hdr (by rw [hparsed]; rfl)
      · intro r hr
        cases hr
      · rw [hfresh.pageCount, hsize]
    · exact ⟨.ended ht.1.1 ht.1.2, by rw [ht.1.2]; decide⟩

end GraphiteSql
