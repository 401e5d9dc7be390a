import GraphiteSql.Pager.WalPins

/-! Commits and checkpoints in WAL mode: what they leave behind, and that the committed database
moves on by exactly the committed pages.
-/

namespace GraphiteSql

open Lib List PagerState WritePager LockLevel
open Std (TreeMap)

variable {fail : Error → PagerState → Prop}

-- Commits

def prepareWal : PagerM Unit := do
  vacuumForCommit
  stampPage1

theorem commitWal_eq
    : commitWal = (do
      prepareWal
      let s ← get
      match s.wp.wal with
      | none => throw (.panic "wal mode")
      | some w => if !s.wp.walFile then throw (.panic "wal file") else do
          appendFrames w
          releaseLocks) := by
  unfold commitWal prepareWal
  rewrite [bind_assoc]
  rfl

/-- `p` is `s` with the pages of its commit staged. -/
structure WalPrepared (s p : PagerState) : Prop where
  staged : Staged s p
  nonempty : p.wp.overlay.toList ≠ []
  covered : ∀ size, Covered size s.wp.pageCount.toNat s → Covered size p.wp.pageCount.toNat p

theorem prepareWal_runs {s : PagerState} (locked : reserved ≤ s.wp.held)
    (log : s.LogPaged) (paged : s.wp.overlay.Paged s.wp.pageSize)
    : Runs prepareWal s (fun _ => WalPrepared s) (fun _ => Staged s) := by
  refine (vacuumForCommit_runs locked log (Staged.refl paged)).seq fun _ t ht => ?_
  refine (stampPage1_staged log ht.1).mono (fun _ p hp => ?_) (fun _ _ => id)
  obtain ⟨honto, ⟨_, page1, -, hpage1⟩, -⟩ := hp
  refine ⟨honto.staged, fun hnil => ?_, fun size hcov => ?_⟩
  · have hmem := TreeMap.mem_toList_iff_getElem?_eq_some.mpr hpage1
    rw [hnil] at hmem
    cases hmem
  · rw [honto.pageCount]
    exact honto.covered (ht.2.1 size hcov)

/-- The index after a commit: the frames are appended to the log, which may have been restarted. -/
theorem appendedIndex_appends (p : PagerState) (w : WalRuntime) (hsome : p.wp.overlay.toList ≠ [])
    : AppendsTo p.vfs.index.restartLog (p.appendedIndex w)
      (commitFrames p.wp.pageCount p.wp.overlay.toList) := by
  have hlast : ∃ last, (p.logAppend w).appended.getLast? = some last := by
    obtain ⟨last, hlast, -⟩ := frameOps_last _ _ hsome
    exact ⟨last, hlast⟩
  obtain ⟨last, hlast⟩ := hlast
  have hindex := p.vfs.index.restartLog.publish_eq (p.logAppend w).salt p.wp.pageSize hlast
  have hframes : (p.logAppend w).appended.map AppendedFrame.frame
      = commitFrames p.wp.pageCount p.wp.overlay.toList := frameOps_frames _ _ _
  rw [hframes] at hindex
  rw [appendedIndex, hindex]
  exact ⟨rfl, rfl, rfl, rfl, rfl⟩

theorem appendStart_file {ix : WalIndex} {pageSize : Nat} {salt : Salt} {op : FileOp}
    (h : op ∈ (ix.appendStart pageSize salt).1) : op.file = .wal := by
  unfold WalIndex.appendStart at h
  cases hstate : ix.writerState with
  | some state =>
    simp only [hstate] at h
    cases h
  | none =>
    simp only [hstate, mem_singleton] at h
    rw [h]
    rfl

theorem appended_file (p : PagerState) (w : WalRuntime) (file : FileId) (hfile : file ≠ .wal)
    : (p.appended w).vfs.disk.read file = p.vfs.disk.read file := by
  refine Disk.run_read (fun op hop => ?_) p.vfs.disk
  have hwal : op.file = .wal := by
    simp only [logAppend, mem_append, mem_singleton] at hop
    rcases hop with (hop | hop) | rfl
    · exact appendStart_file hop
    · exact frameOps_file _ _ _ hop
    · rfl
  rw [hwal]
  exact hfile.symm

theorem appended_db (p : PagerState) (w : WalRuntime)
    : (p.appended w).vfs.disk.db = p.vfs.disk.db :=
  appended_file p w .db (by decide)

theorem appended_journal (p : PagerState) (w : WalRuntime)
    : (p.appended w).vfs.disk.journal = p.vfs.disk.journal :=
  appended_file p w .journal (by decide)

section Commit

variable {ps : Nat} {db : Db} {rest : List Nat} {s p : PagerState} {w : WalRuntime}

theorem restartLog_readers (ix : WalIndex) : ix.restartLog.readers = ix.readers := by
  rcases restartLog_cases ix with hsame | ⟨hrestart, -⟩
  · rw [hsame]
  · rw [hrestart]
    rfl

theorem Tracks.appended (tracks : Tracks ps db s.vfs) (hps : s.wp.pageSize = ps)
    (hp : WalPrepared s p) (hcount : 1 ≤ p.wp.pageCount.toNat)
    : Tracks ps (db.commit p.wp.overlay p.wp.pageCount) (p.appended w).vfs := by
  have hrestarted := tracks.restartLog
  refine hrestarted.append hcount hp.nonempty (fun n b hb => ?_) ?_ ?_
  · exact (hp.staged.paged n b hb).trans hps
  · rw [appended_db, hp.staged.vfs]
  · have happends := appendedIndex_appends p w hp.nonempty
    rw [hp.staged.vfs] at happends
    exact happends

theorem Attached.appended (hs : Attached ps s.wp) (hp : WalPrepared s p)
    : Attached ps (p.appended w).wp where
  runtime := ⟨_, rfl, hp.staged.positive hs.positive⟩
  walFile := hp.staged.walFile.trans hs.walFile
  pageSize := hp.staged.pageSize.trans hs.pageSize
  paged := by
    intro n b hb
    simp [PagerState.appended] at hb
  positive := hp.staged.positive hs.positive

theorem Quiet.refl {size : UInt32} (readers : s.vfs.index.readers.Perm (s.wp.marks ++ rest))
    (attached : Attached ps s.wp) : Quiet ps size rest s s :=
  ⟨rfl, rfl, readers, Or.inr (Or.inl rfl), attached⟩

/-- The rule of a commit: it fails before it writes, or appends what it prepared and releases its
locks.
-/
theorem commitWal_rule (attached : Attached ps s.wp) (tracks : Tracks ps db s.vfs)
    (locked : reserved ≤ s.wp.held) {post : Unit → PagerState → Prop}
    (hfail : ∀ e t, Staged s t → fail e t)
    (hdone : ∀ p w, prepareWal s = .ok () p → WalPrepared s p → s.wp.wal = some w
      → Runs releaseLocks (p.appended w) post fail)
    : Runs commitWal s post fail := by
  have hlog : s.LogPaged := fun _ f hf => (tracks.paged f hf).trans attached.pageSize.symm
  obtain ⟨w, hwal, -⟩ := attached.runtime
  have hprep := prepareWal_runs locked hlog attached.whole
  rw [commitWal_eq, runs_bind]
  cases hrun : prepareWal s with
  | error e t => exact .of_error hrun (hfail e t (hprep.error hrun))
  | ok u p =>
    have hp : WalPrepared s p := hprep.ok hrun
    refine .of_ok hrun ?_
    rw [runs_get_bind, hp.staged.wal, hwal]
    dsimp only
    rw [hp.staged.walFile, attached.walFile, if_neg (by decide)]
    exact .bind_ok (appendFrames_ok w p) (hdone p w hrun hp hwal)

/-- A commit fails before it writes, or appends what it prepared and ends the transaction. -/
theorem commitWal_runs (attached : Attached ps s.wp) (tracks : Tracks ps db s.vfs)
    (readers : s.vfs.index.readers.Perm (s.wp.marks ++ rest))
    (locked : reserved ≤ s.wp.held)
    : Runs commitWal s
      (fun _ t => ∃ p w, prepareWal s = .ok () p ∧ WalPrepared s p ∧ s.wp.wal = some w
        ∧ Quiet ps p.wp.pageCount rest (p.appended w) t ∧ t.wp.pin = none ∧ Clean t)
      (fun _ => Staged s) := by
  refine commitWal_rule attached tracks locked (fun _ _ => id) fun p w hrun hp hwal => ?_
  have hmarks : (p.appended w).wp.marks = s.wp.marks := by
    have hafter : (p.appended w).wp.marks = _ := marks_eq rfl
    rw [marks_eq hwal, hafter]
  have hreaders : (p.appended w).vfs.index.readers.Perm ((p.appended w).wp.marks ++ rest) := by
    have hsame : (p.appended w).vfs.index.readers = s.vfs.index.readers := by
      rw [← restartLog_readers s.vfs.index, ← hp.staged.vfs]
      exact (appendedIndex_appends p w hp.nonempty).readers
    rw [hmarks, hsame]
    exact readers
  have hstart : Quiet ps (db.commit p.wp.overlay p.wp.pageCount).size rest (p.appended w)
      (p.appended w) := Quiet.refl hreaders (attached.appended hp)
  have hclean : Clean (p.appended w) := TreeMap.isEmpty_emptyc
  refine (((endTxn_quiet.1 _ hstart).and (releaseLocks_clean _ hclean)).and
    (releaseLocks_unpinned _)).mono (fun _ t ht => ?_) (fun _ _ ht => ht.2.elim)
  exact ⟨p, w, hrun, hp, hwal, ht.1.1, ht.2, ht.1.2⟩

end Commit

-- Checkpoints

/-- What a checkpoint leaves behind. The log keeps its frames, unless all of them are in the main
file and nobody reads; pages that a reader finds in the main file stay there.
-/
structure Checkpointed (ps : Nat) (db : Db) (s t : PagerState) : Prop where
  tracks : Tracks ps db t.vfs
  readers : t.vfs.index.readers = s.vfs.index.readers
  journal : t.vfs.disk.journal = s.vfs.disk.journal
  log : t.vfs.index = { s.vfs.index with nBackfill := t.vfs.index.nBackfill }
      ∧ t.vfs.disk.wal = s.vfs.disk.wal
    ∨ t.vfs.index = s.vfs.index.restartHdr ∧ t.vfs.disk.wal = [] ∧ s.vfs.index.readers = []
  main : ∀ m ∈ s.vfs.index.readers, ∀ n b, n ≠ 0 → newest (s.vfs.index.log.take m) n = none
    → (s.vfs.index.log.length ≤ m → n ≤ db.size) → mainPage ps s.vfs.disk.db n = some b
    → mainPage ps t.vfs.disk.db n = some b
  attached : Attached ps t.wp
  pin : t.wp.pin = s.wp.pin
  overlay : t.wp.overlay = s.wp.overlay
  held : t.wp.held = s.wp.held

section Checkpoint

variable {ps : Nat} {db : Db} {s t : PagerState}

theorem Checkpointed.refl (tracks : Tracks ps db s.vfs) (attached : Attached ps s.wp)
    : Checkpointed ps db s s where
  tracks := tracks
  readers := rfl
  journal := rfl
  log := Or.inl ⟨rfl, rfl⟩
  main := fun _ _ _ _ _ _ _ h => h
  attached := attached
  pin := rfl
  overlay := rfl
  held := rfl

/-- Copying frames up to the oldest reader. -/
theorem backfilled_checkpointed (tracks : Tracks ps db s.vfs) (attached : Attached ps s.wp)
    (hgo : s.vfs.index.nBackfill < s.vfs.index.mxSafe)
    : Checkpointed ps db s (s.backfilled s.vfs.index.mxSafe) := by
  have hfile : (s.backfilled s.vfs.index.mxSafe).vfs.disk.db
      = s.vfs.backfilledFile ps s.vfs.index.mxSafe := by
    rw [← attached.pageSize]
    rfl
  have hfull : s.vfs.index.mxSafe = s.vfs.index.mxFrame → s.vfs.index.fullDbSize = db.size := by
    intro _
    have hne : s.vfs.index.log ≠ [] := by
      intro hnil
      have hsafe := mxSafe_le s.vfs.index
      rw [tracks.mxFrame, hnil] at hsafe
      simp only [length_nil] at hsafe
      omega
    rw [fullDbSize_eq, tracks.sized hne]
    rfl
  exact {
    tracks := tracks.backfillTo hgo (mxSafe_le _) hfile rfl
    readers := rfl
    journal := rfl
    log := Or.inl ⟨rfl, rfl⟩
    main := by
      intro m hm n b hn hnone hle hmain
      rw [hfile]
      refine tracks.notCopied hn (fun data hmem => ?_) (fun hall => ?_) hmain
      · exact backfillPages_seen tracks.mxFrame hmem (mxSafe_le_reader hm) hnone
      -- A reader at the end of the log has the size of the database.
      rw [hfull hall]
      refine hle ?_
      rw [← tracks.mxFrame, ← hall]
      exact mxSafe_le_reader hm
    attached := { attached with }
    pin := rfl
    overlay := rfl
    held := rfl }

def WalRuntime.afterCheckpoint (w : WalRuntime) (ix : WalIndex) (size : UInt32) : WalRuntime :=
  let w := if w.registeredMark = none then
      { w with snapshot := ix.snapshot, dbSize := if size ≠ 0 then size else w.dbSize }
    else w
  if ix.salt ≠ Salt.zero then { w with salt := ix.salt } else w

theorem refreshAfterCheckpoint_ok (size : UInt32) (t : PagerState)
    : refreshAfterCheckpoint size t = .ok () { t with wp := { t.wp with
        wal := t.wp.wal.map (·.afterCheckpoint t.vfs.index size) } } := (rfl)

theorem afterCheckpoint_view (w : WalRuntime) (ix : WalIndex) (size : UInt32)
    : (w.afterCheckpoint ix size).registeredMark = w.registeredMark
      ∧ (w.registeredMark ≠ none → (w.afterCheckpoint ix size).snapshot = w.snapshot
        ∧ (w.afterCheckpoint ix size).dbSize = w.dbSize)
      ∧ (1 ≤ w.dbSize.toNat → 1 ≤ (w.afterCheckpoint ix size).dbSize.toNat) := by
  have hpos : size ≠ 0 → 1 ≤ size.toNat := fun h =>
    Nat.one_le_iff_ne_zero.mpr fun h0 => h (UInt32.toNat_inj.mp h0)
  unfold WalRuntime.afterCheckpoint
  by_cases hmark : w.registeredMark = none
  · by_cases hsalt : ix.salt ≠ Salt.zero <;> by_cases hsize : size ≠ 0 <;>
      simp [hmark, hsalt, hsize, hpos]
  · by_cases hsalt : ix.salt ≠ Salt.zero <;> simp [hmark, hsalt]

/-- The refresh of the connection that ran the checkpoint. -/
theorem Checkpointed.refreshed (h : Checkpointed ps db s t) (size : UInt32)
    : Runs (refreshAfterCheckpoint size) t (fun _ u => Checkpointed ps db s u)
      (fun _ _ => False) := by
  obtain ⟨w, hwal, hpos⟩ := h.attached.runtime
  obtain ⟨hmark, hview, hsize⟩ := afterCheckpoint_view w t.vfs.index size
  have hwal' : t.wp.wal.map (·.afterCheckpoint t.vfs.index size)
      = some (w.afterCheckpoint t.vfs.index size) := by
    rw [hwal]
    rfl
  refine .of_ok (refreshAfterCheckpoint_ok size t) { h with attached := ?_, pin := ?_ }
  · exact { h.attached with runtime := ⟨_, hwal', hsize hpos⟩ }
  rw [← h.pin]
  cases hpin : w.registeredMark with
  | none => rw [pin_none hwal hpin, pin_none hwal' (hmark.trans hpin)]
  | some mark =>
    obtain ⟨hsnap, hdb⟩ := hview (by simp [hpin])
    rw [pin_some hwal hpin, pin_some hwal' (hmark.trans hpin), hsnap, hdb]

/-- What a mode does beyond copying keeps the database: the log is emptied only when all of it is
in the main file and nobody reads.
-/
theorem finishCheckpoint_runs (h : Checkpointed ps db s t) (mode : CheckpointMode)
    (hindex : t.vfs.index = { s.vfs.index with nBackfill := t.vfs.index.nBackfill })
    : Runs (finishCheckpoint mode s.vfs.index.mxFrame) t (fun _ u => Checkpointed ps db s u)
      (fun _ _ => False) := by
  unfold finishCheckpoint
  rw [runs_get_bind]
  dsimp only
  split
  · exact h
  split
  · exact h
  rename_i hbackfill
  split
  · exact h
  split
  · exact h
  rename_i hreading
  split
  · have hdone : t.vfs.index.nBackfill = t.vfs.index.log.length := by
      refine Nat.le_antisymm h.tracks.backfill ?_
      rw [← h.tracks.mxFrame, hindex]
      exact Nat.le_of_not_lt hbackfill
    have hreaders : s.vfs.index.readers = [] := by
      rw [← h.readers]
      refine min?_eq_none_iff.mp ?_
      simpa [WalIndex.minReaderMark] using hreading
    have htruncate : truncateLog t = .ok () { t with vfs := { t.vfs with
        disk := { t.vfs.disk with wal := [] }
        trace := t.vfs.trace ++ [.truncate .wal 0] ++ [.sync .wal]
        index := t.vfs.index.restartHdr } } := by
      unfold truncateLog withIndex
      rw [estate_modify_bind, estate_get_bind, if_pos h.attached.walFile]
      rw [perform_bind, perform_ok]
      simp [PagerState.after, Disk.run, Disk.apply, Disk.replace, Disk.read, resize_zero]
    refine .bind_ok htruncate ?_
    exact { h with
      tracks := h.tracks.restart hdone rfl rfl rfl rfl
      log := Or.inr ⟨by rw [hindex]; rfl, rfl, hreaders⟩
      main := fun m hm => by rw [hreaders] at hm; cases hm }
  · exact h

theorem checkpointLocked_runs (tracks : Tracks ps db s.vfs) (attached : Attached ps s.wp)
    (mode : CheckpointMode)
    : Runs (checkpointLocked mode) s (fun _ t => Checkpointed ps db s t) (fun _ _ => False) := by
  unfold checkpointLocked
  rw [runs_get_bind]
  refine .bind_ok (backfill_ok s) ?_
  rw [runs_bind]
  have hcopied : Runs (finishCheckpoint mode s.vfs.index.mxFrame)
      (if s.vfs.index.nBackfill < s.vfs.index.mxFrame ∧ s.vfs.index.nBackfill < s.vfs.index.mxSafe
        then s.backfilled s.vfs.index.mxSafe else s)
      (fun _ u => Checkpointed ps db s u) (fun _ _ => False) := by
    split
    · rename_i hgo
      exact finishCheckpoint_runs (backfilled_checkpointed tracks attached hgo.2) mode rfl
    · exact finishCheckpoint_runs (Checkpointed.refl tracks attached) mode rfl
  refine hcopied.mono (fun busy u hu => ?_) (fun _ _ => id)
  refine (hu.refreshed _).seq fun _ v hv => ?_
  exact hv

theorem Checkpointed.relocked {locks locks' : LockState} {held level level' : LockLevel}
    (h : Checkpointed ps db (s.relock locks held level s.wp.readTxn s.wp.readCacheToken) t)
    : Checkpointed ps db s (t.relock locks' s.wp.held level' t.wp.readTxn t.wp.readCacheToken) :=
  { h with
    tracks := h.tracks.congr rfl rfl rfl rfl
    attached := { h.attached with }
    held := rfl }

omit ps db s in
theorem runs_andFinally {α : Type} {x : PagerM α} {cleanup : PagerM Unit} {s : PagerState}
    {post : α → PagerState → Prop}
    (hx : Runs x s (fun a t => Runs cleanup t (fun _ => post a) fail) (fun _ _ => False))
    : Runs (andFinally x cleanup) s post fail := by
  unfold Runs andFinally
  cases hxs : x s with
  | ok a t =>
    have hclean : Runs (cleanup *> pure a) t post fail := by
      have hseq : (cleanup *> pure a : PagerM α) = cleanup >>= fun _ => pure a := (rfl)
      rw [hseq, runs_bind]
      exact hx.ok hxs
    exact hclean
  | error e t => exact (hx.error hxs).elim

/-- Every checkpoint, whether it gets the write lock or not. -/
theorem checkpointMode_runs (tracks : Tracks ps db s.vfs) (attached : Attached ps s.wp)
    (mode : CheckpointMode)
    : Ends (checkpointMode mode) s (Checkpointed ps db s) := by
  have hlocked : ∀ {mode : CheckpointMode} {f : Bool × Nat × Nat → Int × Int × Int},
      Ends (do let r ← checkpointLocked mode; return f r) s (Checkpointed ps db s) := by
    intro mode f
    exact (checkpointLocked_runs tracks attached mode).bind (fun _ _ => id) (fun _ _ => False.elim)
  obtain ⟨w, hwal, -⟩ := attached.runtime
  unfold checkpointMode
  rw [Ends, runs_get_bind, hwal]
  simp only [Option.isNone_some, Bool.false_eq_true, if_false]
  split
  · exact hlocked
  cases hlock : s.vfs.lock s.wp.level .reserved with
  | ok r =>
    obtain ⟨locks, -, rfl⟩ := Vfs.lock_ok hlock
    rw [runs_bind, runs_set, runs_bind]
    refine runs_andFinally ?_
    let r := s.relock locks .reserved (if s.wp.level < .reserved then .reserved else s.wp.level)
      s.wp.readTxn s.wp.readCacheToken
    have htracks : Tracks ps db r.vfs := tracks.congr rfl rfl rfl rfl
    have hattached : Attached ps r.wp :=
      { attached with }
    exact (checkpointLocked_runs htracks hattached mode).mono (fun _ t ht => ht.relocked)
      (fun _ _ => False.elim)
  | error e =>
    cases e with
    | busy => exact hlocked
    | _ => exact Checkpointed.refl tracks attached

end Checkpoint

end GraphiteSql
