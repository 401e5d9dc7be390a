import GraphiteSql.Pager.LogState
import GraphiteSql.Pager.WalReaders

/-! Recovery of the log file in runs of any number of connections: at every cut, the whole
transactions in the file are found again, and nothing else.
-/

namespace GraphiteSql

open Lib List PagerState

/-- The transactions of a log, or none when it has no frames. -/
def WalIndex.txns (ix : WalIndex) (txns : List (List IndexFrame)) : List (List IndexFrame) :=
  if ix.log.isEmpty then [] else txns

/-- The transactions of the current generation after a call, which leaves the index `ix`. -/
def PagerState.txnsAfter (s : PagerState) (txns : List (List IndexFrame)) (c : WalCall)
    (ix : WalIndex) : List (List IndexFrame) :=
  match s.commits c with
  | some txn => s.vfs.index.restartLog.txns txns ++ [txn]
  | none => ix.txns txns

/-- The log file holds the transactions of the index, and an empty log has an empty file. -/
structure LogInv (ps : Nat) (txns : List (List IndexFrame)) (v : Vfs) : Prop where
  state : LogState ps txns v.index v.disk.wal
  empty : v.index.log = [] → v.disk.wal = []

section Calls

variable {ps : Nat} {db : Db} {rest : List Nat} {s t : PagerState} {c : WalCall}
  {txns : List (List IndexFrame)} {ix : WalIndex} {wal : Bytes}

section

variable (h : LogState ps txns ix wal)

include h

theorem LogState.settle : LogState ps (ix.txns txns) ix wal := by
  unfold WalIndex.txns
  split
  · rename_i hnil
    have hlog : ix.log = [] := isEmpty_iff.mp hnil
    exact ⟨hlog, fun _ htxn => absurd htxn not_mem_nil, h.order, absurd hlog,
      absurd hlog⟩
  · exact h

theorem LogState.restartLog
    : LogState ps (ix.restartLog.txns txns) ix.restartLog wal := by
  rcases restartLog_cases ix with hsame | ⟨hrestart, -, -⟩
  · rw [hsame]
    exact h.settle
  · rw [hrestart]
    exact LogState.restartHdr wal

theorem LogState.congr {nBackfill : Nat} {readers : List Nat}
    : LogState ps txns { ix with nBackfill, readers } wal :=
  { h with }

end

theorem WalPrepared.paged {p : PagerState} (hp : WalPrepared s p) (hps : s.wp.pageSize = ps)
    : ∀ page ∈ p.wp.overlay.toList, page.2.length = ps := by
  intro page hpage
  exact (hp.staged.paged page.1 page.2
    (Std.TreeMap.mem_toList_iff_getElem?_eq_some.mp hpage)).trans hps

/-- Every call keeps index and log file together. -/
theorem LogEffect.logInv (effect : LogEffect s c t) (calls : Calls ps db rest s)
    (inv : LogInv ps txns s.vfs) : LogInv ps (s.txnsAfter txns c t.vfs.index) t.vfs := by
  cases effect.change with
  | kept commits index wal =>
    unfold txnsAfter
    rw [commits]
    refine ⟨LogState.settle ?_, fun hnil => ?_⟩
    · rw [index, wal]
      exact inv.state.congr
    rw [wal]
    refine inv.empty ?_
    rw [index] at hnil
    exact hnil
  | appended p w prepared commits index wal =>
    unfold txnsAfter
    rw [commits]
    have htracks := calls.tracks.restartLog
    have hvfs : p.vfs = s.vfs := prepared.staged.vfs
    have happended : LogState ps (s.vfs.index.restartLog.txns txns ++ [p.txn])
        (p.appended w).vfs.index (p.appended w).vfs.disk.wal := by
      refine LogState.appended ?_ ?_ ?_ (prepared.staged.pageSize.trans calls.attached.pageSize)
        (prepared.paged calls.attached.pageSize) prepared.nonempty
        (prepared.staged.positive calls.attached.positive)
      · rw [restarted, hvfs]
        exact inv.state.restartLog
      · rw [restarted, hvfs]
        exact htracks.mxFrame
      · rw [restarted, hvfs]
        exact htracks.paged
    refine ⟨?_, fun hnil => ?_⟩
    · rw [index, wal]
      exact happended.congr
    have hlog := happended.log
    rw [index] at hnil
    rw [hnil, flatten_append, flatten_singleton] at hlog
    exact absurd (append_eq_nil_iff.mp hlog.symm).2
      (p.txn_isTxn (prepared.staged.positive calls.attached.positive) prepared.nonempty).ne_nil
  | emptied commits index wal =>
    unfold txnsAfter
    rw [commits]
    exact ⟨by rw [index]; exact LogState.restartHdr _, fun _ => wal⟩

/-- Until salt-1 wraps around, every call leaves only smaller salts behind the log. -/
theorem LogEffect.staleSalts (effect : LogEffect s c t) (calls : Calls ps db rest s)
    (inv : LogInv ps txns s.vfs) (stale : StaleSalts ps s.vfs.index s.vfs.disk.wal)
    (hwrap : s.vfs.index.salt.salt1 ≠ 0xFFFFFFFF) : StaleSalts ps t.vfs.index t.vfs.disk.wal := by
  cases effect.change with
  | kept commits index wal =>
    rw [index, wal]
    exact stale
  | appended p w prepared commits index wal =>
    have htracks := calls.tracks.restartLog
    have hvfs : p.vfs = s.vfs := prepared.staged.vfs
    have hrestart : StaleSalts ps s.vfs.index.restartLog s.vfs.disk.wal := by
      rcases restartLog_cases s.vfs.index with hsame | ⟨hrestart, -, -⟩
      · rw [hsame]
        exact stale
      · rw [hrestart]
        exact stale.restartHdr inv.state calls.tracks.paged hwrap
    have happended : StaleSalts ps (p.appended w).vfs.index (p.appended w).vfs.disk.wal := by
      have hstate := inv.state.restartLog
      rw [← hvfs] at hrestart hstate
      refine hrestart.appended hstate ?_ ?_
        (prepared.staged.pageSize.trans calls.attached.pageSize)
        (prepared.paged calls.attached.pageSize) prepared.nonempty
      · rw [restarted, hvfs]
        exact htracks.mxFrame
      · rw [restarted, hvfs]
        exact htracks.paged
    rw [index, wal]
    exact happended
  | emptied commits index wal =>
    rw [wal]
    intro i _ b hb
    cases hb

end Calls

/-- A run, with the transactions the log holds since it was restarted. -/
structure LogRun where
  world : World
  txns : List (List IndexFrame)

def LogRun.step (t : LogRun) (c : Nat × WalCall) : LogRun :=
  match t.world.state c.1 with
  | none => t
  | some s =>
      let world := t.world.call c.1 c.2.run
      { world, txns := s.txnsAfter t.txns c.2 world.vfs.index }

/-- A world at rest, over an empty log. -/
structure LogRun.Fresh (ps : Nat) (t : LogRun) : Prop where
  pageSize : ps < 2 ^ 32
  world : ∃ db, t.world.AtRest ps db
  order : t.world.vfs.index.bigEndCksum = nativeBigEndian
  log : t.world.vfs.index.log = []
  wal : t.world.vfs.disk.wal = []
  txns : t.txns = []

structure LogRun.Inv (ps : Nat) (t : LogRun) : Prop where
  pageSize : ps < 2 ^ 32
  world : ∃ db, t.world.Inv ps db
  log : LogInv ps t.txns t.world.vfs

/-- The frame behind the log, if there is one, has the salts of the current generation. -/
def LogRun.Revives (ps : Nat) (t : LogRun) : Prop :=
  frameSalts ps t.world.vfs.disk.wal t.world.vfs.index.log.length
    = some t.world.vfs.index.salt.toBytes

structure LogRun.Recoverable (ps : Nat) (t : LogRun) : Prop where
  /-- Of a file that is cut anywhere, exactly the transactions that are whole in the cut. -/
  cut : ¬ t.Revives ps → ∀ c, ∃ k ≤ t.txns.length,
    Recovers ps (t.world.vfs.disk.wal.take c) (t.txns.take k).flatten
      ∧ ∀ j ≤ t.txns.length, 0 < j → (logEnd ps (t.txns.take j) ≤ c ↔ j ≤ k)
  /-- Of a file that was changed behind some transactions, at least these. -/
  changed : ∀ k ≤ t.txns.length, 0 < k → ∀ wal,
    wal.take (logEnd ps (t.txns.take k)) = t.world.vfs.disk.wal.take (logEnd ps (t.txns.take k))
      → ∃ more, Recovers ps wal ((t.txns.take k).flatten ++ more)

section Run

variable {ps : Nat} {t : LogRun}

theorem LogRun.Fresh.inv (h : t.Fresh ps) : t.Inv ps where
  pageSize := h.pageSize
  world := by
    obtain ⟨db, hrest⟩ := h.world
    exact ⟨db, hrest.inv⟩
  log := by
    rw [h.txns]
    exact ⟨⟨h.log, fun _ htxn => absurd htxn not_mem_nil, h.order, absurd h.log,
      absurd h.log⟩, fun _ => h.wal⟩

/-- One step keeps the log and its file together, and leaves stale salts behind the log. -/
theorem LogRun.Inv.step (h : t.Inv ps) (c : Nat × WalCall)
    : (t.step c).Inv ps
      ∧ (StaleSalts ps t.world.vfs.index t.world.vfs.disk.wal
        → t.world.vfs.index.salt.salt1 ≠ 0xFFFFFFFF
        → StaleSalts ps (t.step c).world.vfs.index (t.step c).world.vfs.disk.wal) := by
  unfold LogRun.step
  cases hstate : t.world.state c.1 with
  | none => exact ⟨h, fun hstale _ => hstale⟩
  | some s =>
    obtain ⟨db, hworld⟩ := h.world
    obtain ⟨before, after, hconns, hput⟩ := World.split hstate
    have hcalls := hworld.calls hstate hconns
    obtain ⟨hvfs, -⟩ := World.state_mem hstate
    have hlog := h.log
    rw [← hvfs] at hlog
    obtain ⟨u, hcall, hends⟩ := World.call_put c.2.run hstate
    have hmoves := hends _ (call_moves hcalls c.2)
    have heffect := hends _ (call_logEffect hcalls c.2)
    rw [hcall]
    refine ⟨⟨h.pageSize, ⟨_, hworld.put (hput u) hmoves.after⟩, heffect.logInv hcalls hlog⟩, ?_⟩
    rw [← hvfs]
    exact heffect.staleSalts hcalls hlog

/-- A log whose file is intact can be recovered. -/
theorem LogRun.Inv.recoverable (h : t.Inv ps) : t.Recoverable ps := by
  obtain ⟨db, hworld⟩ := h.world
  have hpaged : ∀ f ∈ t.txns.flatten, f.data.length = ps := by
    rw [← h.log.state.log]
    exact hworld.tracks.paged
  by_cases hnil : t.world.vfs.index.log = []
  · have htxns : t.txns = [] := by
      rw [h.log.state.log] at hnil
      cases hall : t.txns with
      | nil => rfl
      | cons txn more =>
        have htxn := h.log.state.txns txn (by rw [hall]; exact mem_cons_self)
        rw [hall] at hnil
        exact absurd (append_eq_nil_iff.mp hnil).1 htxn.ne_nil
    refine ⟨fun _ c => ?_, fun k hk hpos => ?_⟩
    · rw [h.log.empty hnil, htxns]
      refine ⟨0, Nat.le_refl 0, recovers_short ?_, fun j hj hpos => ?_⟩
      · rw [take_nil]
        decide
      · exact absurd hj (Nat.not_le.mpr hpos)
    · rw [htxns] at hk
      exact absurd hk (Nat.not_le.mpr hpos)
  · have hfile := h.log.state.file hnil
    rw [h.log.state.log] at hfile
    refine ⟨fun hend c => ?_, fun k _ _ wal hwal => ?_⟩
    · refine recovers_take h.pageSize h.log.state.txns hpaged hfile ?_ c
      rw [LogRun.Revives, h.log.state.log] at hend
      exact hend
    have hsub : ∀ txn ∈ t.txns.take k, IsTxn txn :=
      fun txn htxn => h.log.state.txns txn (mem_of_mem_take htxn)
    have hpre : (t.txns.take k).flatten <+: t.txns.flatten := by
      conv_rhs => rw [← take_append_drop k t.txns, flatten_append]
      exact prefix_append _ _
    have hbytes := logBytes_take hfile hpaged hpre (Nat.le_refl (logEnd ps (t.txns.take k)))
    rw [← hwal] at hbytes
    exact recovers_prefix h.pageSize hsub (fun f hf => hpaged f (hpre.subset hf))
      <| hbytes.trans <| take_prefix _ _

end Run

def LogRun.SaltsLeft (t : LogRun) (_ : Nat × WalCall) : Prop :=
  t.world.vfs.index.salt.salt1 ≠ 0xFFFFFFFF

instance (t : LogRun) (c : Nat × WalCall) : Decidable (t.SaltsLeft c) :=
  inferInstanceAs (Decidable (_ ≠ _))

/-- Whatever is committed, checkpointed and restarted, the whole transactions of the current
generation are recovered from every cut of the log file. Frames of earlier generations are never
among them; that they have other salts is certain until salt-1 has gone through all its values.
-/
theorem log_recovers_commits {ps : Nat} {t : LogRun} (start : t.Fresh ps)
    (script : List (Nat × WalCall))
    : (exec LogRun.step t script).Recoverable ps
      ∧ (Meets LogRun.step LogRun.SaltsLeft t script
        → ¬ (exec LogRun.step t script).Revives ps) := by
  have hinv : (exec LogRun.step t script).Inv ps :=
    exec_always LogRun.step (LogRun.Inv ps) (fun _ c h => (h.step c).1) start.inv script
  refine ⟨hinv.recoverable, fun hsalts hrevives => ?_⟩
  have hempty : StaleSalts ps t.world.vfs.index t.world.vfs.disk.wal := by
    intro i _ b hb
    rw [start.wal] at hb
    cases hb
  have hstale := exec_invariant LogRun.step
    (fun r => r.Inv ps ∧ StaleSalts ps r.world.vfs.index r.world.vfs.disk.wal)
    (fun _ c h hc => ⟨(h.1.step c).1, (h.1.step c).2 h.2 hc⟩) ⟨start.inv, hempty⟩ hsalts
  obtain ⟨old, hold, hlt⟩ := hstale.2 _ (Nat.le_refl _) _ hrevives
  rw [← Salt.toBytes_injective hold] at hlt
  exact UInt32.lt_irrefl _ hlt

/-- Two connections over a database of one page. -/
def pairLog : LogRun where
  world := pair.world
  txns := []

/-- A log that was restarted once: the first transaction is behind the second one in the file. -/
theorem log_recovers_commits_sample
    : pairLog.Fresh 512
      ∧ (exec LogRun.step pairLog [(0, .page .allocate), (0, .commit), (1, .checkpoint .passive),
          (1, .page (.write 1 pairPage)), (1, .commit)]).Recoverable 512
      ∧ ¬ (exec LogRun.step pairLog [(0, .page .allocate), (0, .commit), (1, .checkpoint .passive),
          (1, .page (.write 1 pairPage)), (1, .commit)]).Revives 512 := by
  have hfresh : pairLog.Fresh 512 :=
    { pageSize := by decide
      world := ⟨_, pair_atRest.toAtRest⟩
      order := rfl
      log := rfl
      wal := rfl
      txns := rfl }
  obtain ⟨hrecoverable, hsalts⟩ := log_recovers_commits hfresh [(0, .page .allocate), (0, .commit),
    (1, .checkpoint .passive), (1, .page (.write 1 pairPage)), (1, .commit)]
  exact ⟨hfresh, hrecoverable, hsalts (by decide +kernel)⟩

end GraphiteSql
