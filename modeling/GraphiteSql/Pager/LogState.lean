import GraphiteSql.Pager.LogCuts
import GraphiteSql.Pager.WalWorld

/-! The log file and the shared index hold the same transactions: what commits, checkpoints and
restarts do to both.
-/

namespace GraphiteSql

open Lib List Nat PagerState
open Std (TreeMap)

-- What a commit writes

def PagerState.txn (p : PagerState) : List IndexFrame :=
  commitFrames p.wp.pageCount p.wp.overlay.toList

/-- The index that a commit appends to. -/
abbrev PagerState.restarted (p : PagerState) : WalIndex :=
  p.vfs.index.restartLog

section Append

variable {p : PagerState} {w : WalRuntime} (hsome : p.wp.overlay.toList ≠ [])
  (hpaged : ∀ page ∈ p.wp.overlay.toList, page.2.length = p.wp.pageSize)

include hsome hpaged

/-- What a commit leaves in the file and in the index, by where it starts. -/
theorem appended_parts {ops : List FileOp} {off : Nat} {cksum : UInt32 × UInt32} {salt : Salt}
    {bigEnd : Bool}
    (hstart : p.restarted.appendStart p.wp.pageSize w.salt = (ops, off, cksum, salt, bigEnd))
      (hoff : off ≤ (p.vfs.disk.run ops).wal.length)
    : (p.appended w).vfs.disk.wal
        = writeAt (p.vfs.disk.run ops).wal off (chainBytes bigEnd salt cksum p.txn) 0
      ∧ (p.appended w).vfs.index = { p.restarted with
          log := p.restarted.log ++ p.txn
          mxFrame := (p.restarted.log ++ p.txn).length
          salt
          nextOffset := off + p.txn.length * frameLen p.wp.pageSize
          cksum := chainChecksum bigEnd cksum p.txn
          pageSize := p.wp.pageSize } := by
  obtain ⟨last, hlast, hnext, hck⟩ :=
    @frameOps_last _ p.wp.pageCount salt bigEnd p.wp.pageSize off cksum hsome
  have hlen : p.txn.length = p.wp.overlay.toList.length := commitFrames_length _ _
  constructor
  · simp only [appended, logAppend, hstart, Disk.run_append]
    exact run_frameOps_wal hpaged hoff
  · simp only [appended, appendedIndex, logAppend, hstart]
    rw [WalIndex.publish_eq _ _ _ hlast, frameOps_frames, hnext, hck, hlen]
    rfl

/-- A commit to a log without frames starts the file over. -/
theorem appended_fresh (hnone : p.restarted.writerState = none)
    : ∃ salt, (p.appended w).vfs.disk.wal
        = writeAt p.vfs.disk.wal 0
            (logBytes p.wp.pageSize p.restarted.ckptSeq salt p.txn) 0
      ∧ (p.appended w).vfs.index = { p.restarted with
          log := p.restarted.log ++ p.txn
          mxFrame := (p.restarted.log ++ p.txn).length
          salt
          nextOffset := walHdrLen + p.txn.length * frameLen p.wp.pageSize
          cksum := logCksum p.wp.pageSize p.restarted.ckptSeq salt p.txn
          pageSize := p.wp.pageSize }
      ∧ (p.restarted.salt ≠ Salt.zero → salt = p.restarted.salt) := by
  obtain ⟨salt, hsalt, hstart⟩ : ∃ salt,
      (p.restarted.salt ≠ Salt.zero → salt = p.restarted.salt)
      ∧ p.restarted.appendStart p.wp.pageSize w.salt
        = ([.writeAllAt .wal (walHeader nativeBigEndian p.wp.pageSize
              p.restarted.ckptSeq salt).1 0], walHdrLen,
            (walHeader nativeBigEndian p.wp.pageSize p.restarted.ckptSeq salt).2, salt,
            nativeBigEndian) := by
    refine ⟨if p.restarted.salt = Salt.zero then w.salt else p.restarted.salt,
      fun hsalt => if_neg hsalt, ?_⟩
    rw [WalIndex.appendStart, hnone]
  generalize hheader : walHeader nativeBigEndian p.wp.pageSize p.restarted.ckptSeq salt
    = header at hstart
  have hlen : header.1.length = walHdrLen := by
    rw [← hheader]
    exact walHeader_length
  have hwritten : (p.vfs.disk.run [.writeAllAt .wal header.1 0]).wal
      = writeAt p.vfs.disk.wal 0 header.1 0 := rfl
  obtain ⟨hwal, hindex⟩ := appended_parts hsome hpaged hstart (by
    rw [hwritten, writeAt_length]
    omega)
  have hboth : writeAt (writeAt p.vfs.disk.wal 0 header.1 0) (0 + header.1.length)
      (chainBytes nativeBigEndian salt header.2 p.txn) 0 = _ := writeAt_writeAt (zero_le _)
  rw [Nat.zero_add, hlen] at hboth
  refine ⟨salt, ?_, ?_, hsalt⟩
  · rw [hwal, hwritten, hboth, logBytes, hheader]
  · rw [hindex, logCksum, hheader]

/-- A commit to a log with frames writes behind them. -/
theorem appended_next (hstate : p.restarted.mxFrame ≠ 0)
    (hoff : p.restarted.nextOffset ≤ p.vfs.disk.wal.length)
    : (p.appended w).vfs.disk.wal
        = writeAt p.vfs.disk.wal p.restarted.nextOffset
            (chainBytes p.restarted.bigEndCksum p.restarted.salt
              p.restarted.cksum p.txn) 0
      ∧ (p.appended w).vfs.index = { p.restarted with
          log := p.restarted.log ++ p.txn
          mxFrame := (p.restarted.log ++ p.txn).length
          nextOffset := p.restarted.nextOffset + p.txn.length * frameLen p.wp.pageSize
          cksum := chainChecksum p.restarted.bigEndCksum p.restarted.cksum p.txn
          pageSize := p.wp.pageSize } := by
  have hstart : p.restarted.appendStart p.wp.pageSize w.salt
      = ([], p.restarted.nextOffset, p.restarted.cksum,
          p.restarted.salt, p.restarted.bigEndCksum) := by
    rw [WalIndex.appendStart, WalIndex.writerState, if_neg hstate]
  exact appended_parts hsome hpaged hstart hoff

end Append

/-- The index, its log file and the transactions in them are in step. -/
structure LogState (ps : Nat) (txns : List (List IndexFrame)) (ix : WalIndex)
    (wal : Bytes) : Prop where
  log : ix.log = txns.flatten
  txns : ∀ txn ∈ txns, IsTxn txn
  order : ix.bigEndCksum = nativeBigEndian
  file : ix.log ≠ [] → logBytes ps ix.ckptSeq ix.salt ix.log <+: wal
  next : ix.log ≠ [] → ix.nextOffset = walHdrLen + ix.log.length * frameLen ps
    ∧ ix.cksum = logCksum ps ix.ckptSeq ix.salt ix.log ∧ ix.pageSize = ps

section State

variable {ps : Nat} {txns : List (List IndexFrame)} {ix : WalIndex} {wal : Bytes} {p : PagerState}
  {w : WalRuntime}

theorem LogState.restartHdr (wal : Bytes) : LogState ps [] ix.restartHdr wal where
  log := rfl
  txns := fun _ h => by cases h
  order := rfl
  file := absurd rfl
  next := absurd rfl

theorem PagerState.txn_isTxn (hcount : 1 ≤ p.wp.pageCount.toNat) (hsome : p.wp.overlay.toList ≠ [])
    : IsTxn p.txn := by
  obtain ⟨init, last, hframes, hlast, hinit⟩ := commitFrames_last p.wp.pageCount hsome
  refine ⟨init, last, hframes, fun hzero => ?_, hinit⟩
  rw [← hlast, hzero] at hcount
  exact absurd hcount (by decide)

theorem PagerState.txn_paged (hpaged : ∀ page ∈ p.wp.overlay.toList, page.2.length = ps)
    : ∀ f ∈ p.txn, f.data.length = ps :=
  fun f hf => hpaged (f.pageNo, f.data) (mem_commitFrames hf)

-- Frames of earlier generations

def frameSalts (ps : Nat) (wal : Bytes) (i : Nat) : Option Bytes :=
  slice wal (walHdrLen + i * frameLen ps + 8) 8

/-- The frames behind the log have smaller salts: they are from earlier generations. -/
def StaleSalts (ps : Nat) (ix : WalIndex) (wal : Bytes) : Prop :=
  ∀ i, ix.log.length ≤ i → ∀ b, frameSalts ps wal i = some b
    → ∃ old : Salt, b = old.toBytes ∧ old.salt1 < ix.salt.salt1

theorem Salt.toBytes_injective {a b : Salt} (h : a.toBytes = b.toBytes) : a = b := by
  obtain ⟨h1, h2⟩ := append_inj h rfl
  cases a
  cases u32ToBytes_injective h1
  cases u32ToBytes_injective h2
  rfl

/-- The frames of a log carry its salts. -/
theorem frameSalts_log {ckptSeq : UInt32} {salt : Salt} {log : List IndexFrame}
    (h : logBytes ps ckptSeq salt log <+: wal) (hpaged : ∀ f ∈ log, f.data.length = ps) {i : Nat}
    (hi : i < log.length) : frameSalts ps wal i = some salt.toBytes := by
  have hsplit : log = log.take i ++ log[i] :: log.drop (i + 1) := by
    rw [← drop_eq_getElem_cons hi, take_append_drop]
  have hlen : (logBytes ps ckptSeq salt (log.take i)).length = walHdrLen + i * frameLen ps := by
    rw [logBytes_length fun f hf => hpaged f (mem_of_mem_take hf), length_take,
      min_eq_left (Nat.le_of_lt hi)]
  obtain ⟨rest, hrest⟩ := h
  rw [hsplit, logBytes_append, chainBytes, append_assoc, append_assoc] at hrest
  generalize hframe : frameBytes _ salt _ _ = frame at hrest
  have hslice : slice frame 0 (frameLen ps) = some frame := by
    have hself : slice frame 0 frame.length = some frame := slice_self
    rwa [← hframe, frameBytes_length rfl (hpaged _ (getElem_mem hi)), hframe] at hself
  conv at hslice => rhs; rw [← hframe]
  obtain ⟨-, hsalt, -⟩ := (slice_frameBytes (frameHead_length _ _)).mp hslice
  rw [frameSalts, ← hlen, ← hrest]
  exact slice_append_right.trans (slice_append_left hsalt)

/-- The frames of the old generation are stale after a restart, as salt-1 counts up. -/
theorem StaleSalts.restartHdr (h : StaleSalts ps ix wal) (hstate : LogState ps txns ix wal)
    (hpaged : ∀ f ∈ ix.log, f.data.length = ps) (hwrap : ix.salt.salt1 ≠ 0xFFFFFFFF)
    : StaleSalts ps ix.restartHdr wal := by
  have hnext : ix.salt.salt1 < ix.restartHdr.salt.salt1 := by
    show ix.salt.salt1 < ix.salt.salt1 + 1
    have hmax : ix.salt.salt1.toNat ≠ 0xFFFFFFFF := fun h => hwrap (UInt32.toNat_inj.mp h)
    have hlt := ix.salt.salt1.toNat_lt
    rw [UInt32.lt_iff_toNat_lt, UInt32.toNat_add, UInt32.toNat_one]
    omega
  intro i _ b hb
  by_cases hi : i < ix.log.length
  · have hne : ix.log ≠ [] := ne_nil_of_length_pos (by omega)
    rw [frameSalts_log (hstate.file hne) hpaged hi] at hb
    cases hb
    exact ⟨ix.salt, rfl, hnext⟩
  · obtain ⟨old, rfl, hlt⟩ := h i (Nat.le_of_not_lt hi) b hb
    exact ⟨old, rfl, UInt32.lt_trans hlt hnext⟩

variable (hstate : LogState ps txns p.restarted p.vfs.disk.wal)
  (hmx : p.restarted.mxFrame = p.restarted.log.length)
  (hlog : ∀ f ∈ p.restarted.log, f.data.length = ps) (hps : p.wp.pageSize = ps)
  (hpaged : ∀ page ∈ p.wp.overlay.toList, page.2.length = ps) (hsome : p.wp.overlay.toList ≠ [])

include hstate hmx hlog hps hpaged hsome

/-- A commit adds its transaction to the file and to the index. -/
theorem LogState.appended (hcount : 1 ≤ p.wp.pageCount.toNat)
    : LogState ps (txns ++ [p.txn]) (p.appended w).vfs.index (p.appended w).vfs.disk.wal := by
  subst hps
  have htxns : ∀ txn ∈ txns ++ [p.txn], IsTxn txn := by
    intro txn htxn
    rcases mem_append.mp htxn with hold | hnew
    · exact hstate.txns txn hold
    · rw [mem_singleton.mp hnew]
      exact p.txn_isTxn hcount hsome
  have hflat : p.restarted.log ++ p.txn = (txns ++ [p.txn]).flatten := by
    rw [hstate.log, flatten_append, flatten_singleton]
  by_cases hnil : p.restarted.log = []
  · have hnone : p.restarted.writerState = none := by
      rw [WalIndex.writerState, if_pos (by rw [hmx, hnil]; rfl)]
    obtain ⟨salt, hwal, hindex, -⟩ := appended_fresh (w := w) hsome hpaged hnone
    rw [hindex, hwal]
    refine ⟨hflat, htxns, hstate.order, fun _ => ?_, fun _ => ⟨?_, ?_, rfl⟩⟩
    · rw [hnil]
      exact prefix_writeAt_zero
    · rw [hnil]
      rfl
    · rw [hnil]
      rfl
  · obtain ⟨hoff, hck, -⟩ := hstate.next hnil
    obtain ⟨rest, hrest⟩ := hstate.file hnil
    have hend : (logBytes p.wp.pageSize p.restarted.ckptSeq p.restarted.salt
        p.restarted.log).length = _ := logBytes_length hlog
    obtain ⟨hwal, hindex⟩ := appended_next (w := w) hsome hpaged
      (by rw [hmx]; exact fun h0 => hnil (length_eq_zero_iff.mp h0))
      (by rw [hoff, ← hend]; exact (hstate.file hnil).length_le)
    rw [hindex, hwal]
    refine ⟨hflat, htxns, hstate.order, fun _ => ?_, fun _ => ⟨?_, ?_, rfl⟩⟩
    · dsimp only
      rw [logBytes_append, ← hrest, hoff, ← hend, ← Nat.add_zero (length _),
        writeAt_append_left, hstate.order, hck]
      exact prefix_append_right_inj _ |>.mpr prefix_writeAt_zero
    · rw [hoff, length_append, Nat.add_mul, Nat.add_assoc]
    · rw [hstate.order, hck]
      exact (chainChecksum_append _ _).symm

/-- A commit leaves alone what stands behind its frames. -/
theorem StaleSalts.appended (h : StaleSalts ps p.restarted p.vfs.disk.wal)
    : StaleSalts ps (p.appended w).vfs.index (p.appended w).vfs.disk.wal := by
  subst hps
  have htxn := txn_paged hpaged
  intro i hi b hb
  by_cases hnil : p.restarted.log = []
  · have hnone : p.restarted.writerState = none := by
      rw [WalIndex.writerState, if_pos (by rw [hmx, hnil]; rfl)]
    obtain ⟨salt, hwal, hindex, hsalt⟩ := appended_fresh (w := w) hsome hpaged hnone
    rw [hindex] at hi ⊢
    dsimp only at hi ⊢
    rw [hnil, nil_append] at hi
    have hend := mul_le_mul_right (frameLen p.wp.pageSize) hi
    rw [frameSalts, hwal, slice_writeAt_after (by decide)
      (by rw [logBytes_length htxn]; omega)] at hb
    obtain ⟨old, rfl, hlt⟩ := h i (by rw [hnil]; exact zero_le i) b hb
    refine ⟨old, rfl, ?_⟩
    by_cases hzero : p.restarted.salt = Salt.zero
    · rw [hzero] at hlt
      exact absurd hlt UInt32.not_lt_zero
    · rw [hsalt hzero]
      exact hlt
  · obtain ⟨hoff, -, -⟩ := hstate.next hnil
    have hfile := (hstate.file hnil).length_le
    rw [logBytes_length hlog] at hfile
    obtain ⟨hwal, hindex⟩ := appended_next (w := w) hsome hpaged
      (by rw [hmx]; exact fun h0 => hnil (length_eq_zero_iff.mp h0))
      (by rw [hoff]; exact hfile)
    rw [hindex] at hi ⊢
    rw [length_append] at hi
    have hend := mul_le_mul_right (frameLen p.wp.pageSize) hi
    rw [Nat.add_mul] at hend
    rw [frameSalts, hwal, slice_writeAt_after (by decide)
      (by rw [chainBytes_length htxn]; omega)] at hb
    exact h i (by omega) b hb

end State

def PagerState.commits (s : PagerState) : WalCall → Option (List IndexFrame)
  | .commit =>
      if s.wp.overlay.isEmpty then none else
      match prepareWal s, commit s with
      | .ok _ p, .ok _ _ => some p.txn
      | _, _ => none
  | _ => none

/-- What a call does to the log: it is kept, a transaction is appended to it, or it is emptied. -/
inductive LogChange (s : PagerState) (c : WalCall) (t : PagerState) : Prop where
  | kept (commits : s.commits c = none)
      (index : t.vfs.index = { s.vfs.index with
        nBackfill := t.vfs.index.nBackfill
        readers := t.vfs.index.readers })
      (wal : t.vfs.disk.wal = s.vfs.disk.wal)
  | appended (p : PagerState) (w : WalRuntime) (prepared : WalPrepared s p)
      (commits : s.commits c = some p.txn)
      (index : t.vfs.index = { (p.appended w).vfs.index with readers := t.vfs.index.readers })
      (wal : t.vfs.disk.wal = (p.appended w).vfs.disk.wal)
  | emptied (commits : s.commits c = none) (index : t.vfs.index = s.vfs.index.restartHdr)
      (wal : t.vfs.disk.wal = [])

/-- The effect of a call on all files. The main file is for checkpoints, the journal for nobody. -/
structure LogEffect (s : PagerState) (c : WalCall) (t : PagerState) : Prop where
  change : LogChange s c t
  journal : t.vfs.disk.journal = s.vfs.disk.journal
  main : c = .commit → t.vfs.disk.db = s.vfs.disk.db

section Effect

variable {ps : Nat} {db : Db} {rest : List Nat} {s t : PagerState}

theorem Quiet.logEffect {size : UInt32} {c : WalCall} (h : Quiet ps size rest s t)
    (hcommits : s.commits c = none) : LogEffect s c t where
  change := .kept hcommits (by rw [h.index]) (by rw [h.disk])
  journal := by rw [h.disk]
  main := fun _ => by rw [h.disk]

theorem Checkpointed.logEffect (h : Checkpointed ps db s t) (mode : CheckpointMode)
    : LogEffect s (.checkpoint mode) t where
  change := by
    rcases h.log with ⟨hindex, hwal⟩ | ⟨hindex, hwal, -⟩
    · exact .kept rfl (by rw [hindex]) hwal
    · exact .emptied rfl hindex hwal
  journal := h.journal
  main := fun hc => by cases hc

theorem silent_logEffect (calls : Calls ps db rest s) {c : WalCall} (hc : c.Silent)
    : Ends c.run s (LogEffect s c) := by
  have hcommits : s.commits c = none := by
    cases c with
    | commit => exact hc.elim
    | _ => rfl
  exact (silent_quiet calls hc).imp fun _ ht => ht.1.logEffect hcommits

/-- Every call has such an effect. -/
theorem call_logEffect (calls : Calls ps db rest s) (c : WalCall)
    : Ends c.run s (LogEffect s c) := by
  cases c with
  | checkpoint mode => exact (checkpoint_runs calls mode).imp fun _ ht => ht.logEffect mode
  | commit =>
    have hrun := commit_runs calls
    cases hcommit : commit s with
    | error e t =>
      refine .of_error hcommit ?_
      obtain ⟨hdirty, hstaged⟩ := hrun.error hcommit
      refine (calls.quiet.staged hstaged).logEffect ?_
      simp only [commits, hdirty, hcommit]
      cases prepareWal s <;> rfl
    | ok u t =>
      refine .of_ok hcommit ?_
      rcases hrun.ok hcommit with ⟨hempty, hquiet, -, -⟩
        | ⟨p, w, hdirty, hprep, hp, -, hquiet, -, -⟩
      · exact hquiet.logEffect (by simp [commits, hempty])
      have hvfs : p.vfs = s.vfs := hp.staged.vfs
      exact {
        change := .appended p w hp (by simp [commits, hdirty, hprep, hcommit])
          hquiet.index (by rw [hquiet.disk])
        journal := by rw [hquiet.disk, appended_journal, hvfs]
        main := fun _ => by rw [hquiet.disk, appended_db, hvfs] }
  | beginRead | endRead | refresh | beginWrite | page _ | rollback =>
    exact silent_logEffect calls trivial

end Effect

end GraphiteSql
