import GraphiteSql.Pager.WalReaders
import GraphiteSql.Pager.WalTxns

/-! Runs of transactions in WAL mode: as long as no connection takes the write lock from an old
state, no update is lost and the commits are as good as a serial execution in their order.
-/

namespace GraphiteSql

open Lib List Option PagerState WritePager LockLevel
open Std (TreeMap)

variable {c : TxnCall} {reads : List (UInt32 × Bytes)} {before : List WritePager} {i : Nat}
  {s : PagerState}

-- One call

/-- A transaction that takes the write lock between `s` and `t` starts with the newest size. -/
def PagerState.Begins (s t : PagerState) : Prop :=
  s.wp.held < .reserved → .reserved ≤ t.wp.held
    → t.wp.pageCount = t.snapshotSize t.vfs.index.snapshot

section Call

variable {ps : Nat} {db : Db} {rest : List Nat} {t : PagerState}

theorem PagerState.Begins.of_le (h : s.wp.held < .reserved → t.wp.held < .reserved)
    : s.Begins t :=
  fun hfree hlocked => absurd hlocked (not_le.mpr (h hfree))

section

variable (calls : Calls ps db rest s)

include calls

theorem writePage_coherent (h : s.Coherent reads)
    (hcond : s.wp.held < .reserved → s.Upgradable reads) (n : UInt32) (b : Bytes)
    : Ends (writePage n b) s fun t => t.Coherent reads ∧ s.Begins t := by
  unfold writePage
  rw [Ends, runs_get_bind]
  split
  · exact ⟨h, .of_le id⟩
  refine (acquireWriteIntent_coherent calls h hcond).bind (fun _ r hr => ?_)
    (fun _ t ht => ⟨ht.1, .of_le fun _ => ht.2⟩)
  exact ⟨hr.1.congr ⟨rfl, rfl, fun _ => rfl⟩ rfl rfl rfl, fun hfree _ => hr.2 hfree⟩

/-- Every call keeps its connection coherent. -/
theorem call_coherent (h : s.Coherent reads)
    (hcond : c.writes → s.wp.held < .reserved → s.Upgradable reads) {call : WalCall}
    (hcall : c.walCall = some call)
    : Ends call.run s fun t => t.Coherent (s.readsAfter reads c) ∧ s.Begins t := by
  cases c with
  | read n => cases hcall
  | beginRead =>
    cases hcall
    obtain ⟨w, hwal, -⟩ := calls.attached.runtime
    refine ((beginRead_coherent calls h).and (beginReadTxn_runtime hwal)).mono
      (fun _ t ht => ⟨ht.1, .of_le fun hfree => ?_⟩) (fun _ t ht => ⟨ht.1, .of_le fun hfree => ?_⟩)
    · rw [ht.2.2.1]
      split
      · decide
      · exact hfree
    · rw [ht.2]
      exact hfree
  | write n b =>
    cases hcall
    exact writePage_coherent calls h (hcond rfl) n b
  | commit =>
    cases hcall
    have hended := commit_ended calls
    cases hrun : commit s with
    | ok u t =>
      obtain ⟨hpin, hheld⟩ := hended.ok hrun
      refine .of_ok hrun ⟨.ended hpin hheld, .of_le fun _ => ?_⟩
      rw [hheld]
      decide
    | error e t =>
      have ht : Staged s t := hended.error hrun
      refine .of_error hrun ⟨?_, .of_le fun hfree => ?_⟩
      · rw [readsAfter, hrun]
        exact h.staged calls ht
      · rw [ht.held]
        exact hfree
  | rollback =>
    cases hcall
    refine (releaseLocks_ended _).mono (fun _ t ht => ?_) (fun _ _ => False.elim)
    refine ⟨.ended ht.1 ht.2, .of_le fun _ => ?_⟩
    rw [ht.2]
    decide

theorem call_holds {others : List LockLevel} (hs : Holds others s)
    {call : WalCall} (hcall : c.walCall = some call)
    : Ends call.run s (Holds others) := by
  cases c with
  | read n => cases hcall
  | beginRead =>
    cases hcall
    exact beginReadTxn_holds s hs
  | write n b =>
    cases hcall
    exact pageOp_keeps calls hs acquireWriteIntent_holds (fun _ _ hr ht => hr.staged ht)
      (.write n b)
  | commit =>
    cases hcall
    exact commit_holds calls hs
  | rollback =>
    cases hcall
    exact rollback_holds s hs

end

/-- A call leaves the newest commit alone, or its connection holds the write lock and moves the end
of the log on.
-/
def Advances (ps : Nat) (db : Db) (rest : List Nat) (s t : PagerState) : Prop :=
  Quiet ps db.size rest s t
    ∨ LockLevel.reserved ≤ s.wp.held
      ∧ (s.vfs.index.mxFrame < t.vfs.index.mxFrame ∨ s.vfs.index.readers = [])

theorem call_advances (calls : Calls ps db rest s) {call : WalCall} (hcall : c.walCall = some call)
    : Ends call.run s (Advances ps db rest s) := by
  have hsilent : ∀ {call : WalCall}, call.Silent
      → Ends call.run s (Advances ps db rest s) := fun hc =>
    (silent_quiet calls hc).imp fun _ ht => .inl ht.1
  cases c with
  | read n => cases hcall
  | beginRead | rollback | write n b =>
    cases hcall
    exact hsilent trivial
  | commit =>
    cases hcall
    refine (commit_runs calls).mono (fun _ t ht => ?_)
      (fun _ t ht => .inl (calls.quiet.staged ht.2))
    rcases ht with ⟨-, hquiet, -⟩ | ⟨p, w, hdirty, -, hp, -, hquiet, hpin, hclean⟩
    · exact .inl hquiet
    refine .inr ⟨calls.guarded hdirty, ?_⟩
    rcases appended_log (w := w) hp with ⟨-, hgrown⟩ | ⟨-, hnone⟩
    · refine .inl ?_
      have hmoves := appended_moves calls hp hquiet hpin hclean
      have hlog : t.vfs.index.log = (p.appended w).vfs.index.log := by rw [hquiet.index]
      have hpos := length_pos_iff.mpr hp.nonempty
      rw [hmoves.after.tracks.mxFrame, hlog, hgrown, length_append, commitFrames_length,
        calls.tracks.mxFrame]
      omega
    · exact .inr hnone

/-- A connection stays coherent when another one advances the log. -/
theorem PagerState.Coherent.others {r : PagerState} (h : r.Coherent reads)
    (hadvances : Advances ps db rest s t) (calls : Calls ps db rest s) (hvfs : r.vfs = s.vfs)
    (hps : r.wp.pageSize = ps) (hmark : ∀ pin, r.wp.pin = some pin → pin.mark ∈ s.vfs.index.readers)
    (hother : reserved ≤ s.wp.held → r.wp.held < .reserved)
    : PagerState.Coherent { r with vfs := t.vfs } reads := by
  rcases hadvances with hquiet | ⟨hlocked, hmoved⟩
  · refine h.congr ?_ rfl rfl rfl
    have tracks : Tracks ps db r.vfs := by
      rw [hvfs]
      exact calls.tracks
    refine .of_files tracks hps ?_ ?_ hps
    · rw [hvfs]
      exact hquiet.disk
    · rw [hvfs]
      exact hquiet.index
  have hfree := hother hlocked
  refine ⟨h.entry, fun pin hpin => ?_, fun hheld => absurd hheld (not_le.mpr hfree)⟩
  obtain ⟨hle, -⟩ := h.pinned pin hpin
  rw [hvfs] at hle
  rcases hmoved with hlt | hnone
  · exact ⟨Nat.le_trans hle (Nat.le_of_lt hlt),
      fun hmx => absurd (Nat.lt_of_le_of_lt hle hlt) (Nat.not_lt.mpr (Nat.le_of_eq hmx.symm))⟩
  · have hmem := hmark pin hpin
    rw [hnone] at hmem
    cases hmem

end Call

-- Runs

def World.handles (w : World) : Handles :=
  { locks := w.vfs.locks, levels := w.conns.map WritePager.level }

/-- The transactions committed so far lead from `first`, one after the other. -/
structure TxnRun.Inv (ps : Nat) (first : Db) (t : TxnRun) : Prop extends
    World.Inv ps t.db t.world where
  balanced : t.world.handles.Balanced
  known : ∀ wp ∈ t.world.conns, wp.held = wp.level
  coherent : ∀ i s, t.world.state i = some s → s.Coherent (t.reads i)
  serial : Serial first t.history t.db

/-- A write takes the write lock only when that is safe. -/
def TxnRun.Upgrades (t : TxnRun) (c : Nat × TxnCall) : Prop :=
  ∀ s ∈ t.world.state c.1, c.2.writes → s.wp.held < .reserved → s.Upgradable (t.reads c.1)

instance (t : TxnRun) (c : Nat × TxnCall) : Decidable (t.Upgrades c) :=
  inferInstanceAs (Decidable (∀ s ∈ t.world.state c.1, c.2.writes → _))

/-- No update is lost in a step of a run that started with the database `first`. -/
structure TxnRun.NoLostUpdate (ps : Nat) (first : Db) (t : TxnRun) (c : Nat × TxnCall) : Prop where
  /-- A transaction that takes the write lock works from the newest commit and its size. -/
  begins : ∀ s s', t.world.state c.1 = some s → (t.step c).world.state c.1 = some s'
    → s.wp.held < .reserved → .reserved ≤ s'.wp.held
    → s'.Newest ((t.step c).reads c.1) ∧ s'.wp.pageCount = s'.snapshotSize s'.vfs.index.snapshot
  /-- A transaction that commits has read the newest commit only: nothing was committed after its
  snapshot.
  -/
  commits : ∀ s s', t.world.state c.1 = some s → c.2 = .commit → s.wp.overlay.isEmpty = false
    → commit s = .ok () s' → s.Newest (t.reads c.1)
  /-- The log and the main file hold the result of the committed transactions, run one after the
  other in the order of their commits.
  -/
  serial : Serial first (t.step c).history (t.step c).db
    ∧ Tracks ps (t.step c).db (t.step c).world.vfs

section Runs

variable {ps : Nat} {first : Db} {t : TxnRun}

/-- The database and the history move on together. -/
theorem Serial.after {db : Db} {rest : List Nat}
    {xs : List Txn} (h : Serial first xs db) (calls : Calls ps db rest s) (hs : s.Coherent reads)
    : Serial first (xs ++ s.txnsOf reads c) (c.walCall.elim db (s.dbAfter db)) := by
  cases c with
  | commit =>
    simp only [TxnCall.walCall, elim_some, txnsOf, dbAfter]
    split
    · rw [append_nil]
      exact h
    rename_i hdirty
    have hlocked := calls.guarded (Bool.eq_false_iff.mpr hdirty)
    cases prepareWal s with
    | error e p =>
      rw [append_nil]
      exact h
    | ok u p =>
      cases commit s with
      | error e q =>
        rw [append_nil]
        exact h
      | ok u q =>
        exact h.concat ((hs.locked hlocked).readsFrom calls.tracks calls.attached.pageSize _ _)
  | beginRead | read _ | write _ _ | rollback =>
    simp only [txnsOf, append_nil]
    exact h

theorem TxnRun.Inv.holds (h : t.Inv ps first) {after : List WritePager}
    (hvfs : s.vfs = t.world.vfs) (hconns : t.world.conns = before ++ s.wp :: after)
    : Holds ((before ++ after).map level) s where
  known := h.known s.wp (by rw [hconns]; simp)
  balanced := by
    have hbalanced : Handles.Balanced { locks := t.world.vfs.locks
                                        levels := t.world.conns.map level } := h.balanced
    rw [hconns] at hbalanced
    rw [hvfs]
    exact hbalanced.perm (perm_middle.map level)

theorem Holds.handles {w : World} {u : PagerState} {after : List WritePager}
    (h : Holds ((before ++ after).map level) u)
    (hput : (w.put i u).conns = before ++ u.wp :: after) : (w.put i u).handles.Balanced := by
  unfold World.handles
  rw [hput]
  exact h.balanced.perm (perm_middle.map level).symm

theorem World.exclusive {w : World} (h : w.handles.Balanced) {j : Nat} {r : PagerState}
    (hi : w.state i = some s) (hj : w.state j = some r) (hne : i ≠ j)
    (hlocked : reserved ≤ s.wp.level) : r.wp.level < .reserved := by
  by_contra hlevel
  have hget : ∀ {k : Nat} {q : PagerState}, w.state k = some q
      → w.handles.levels[k]? = some q.wp.level := by
    intro k q hk
    obtain ⟨wp, hwp, rfl⟩ := map_eq_some_iff.mp hk
    simp [World.handles, hwp]
  have htwo : 2 ≤ w.handles.levels.countP (reserved ≤ ·) :=
    two_le_countP hne (hget hi) (hget hj) (decide_eq_true hlocked)
      (decide_eq_true (not_lt.mp hlevel))
  exact absurd (Nat.le_trans htwo h.excludes.writers) (by decide)

theorem TxnRun.Inv.read (h : t.Inv ps first)
    (hstate : t.world.state i = some s) (n : UInt32)
    : TxnRun.Inv ps first
      { t with reads := Function.update t.reads i (s.readsAfter (t.reads i) (.read n)) } := by
  refine { h with coherent := fun j r hr => ?_ }
  dsimp only at hr ⊢
  by_cases hj : j = i
  · subst hj
    cases hr.symm.trans hstate
    rw [Function.update_self, readsAfter]
    split
    · rename_i hstaged hread
      exact (h.coherent j s hstate).read hstaged hread
    · exact h.coherent j s hstate
  · rw [Function.update_of_ne hj]
    exact h.coherent j r hr

/-- What a call of connection `i` means for all connections. -/
theorem TxnRun.Inv.call (h : t.Inv ps first) {call : WalCall}
    (hstate : t.world.state i = some s) (hcall : c.walCall = some call) (hcond : t.Upgrades (i, c))
    : ∃ u, t.step (i, c)
        = { world := t.world.put i u
            db := s.dbAfter t.db call
            reads := Function.update t.reads i (s.readsAfter (t.reads i) c)
            history := t.history ++ s.txnsOf (t.reads i) c }
      ∧ s.Begins u ∧ (t.step (i, c)).Inv ps first := by
  obtain ⟨before, after, hconns, hput⟩ := World.split hstate
  obtain ⟨hvfs, -⟩ := World.state_mem hstate
  have hcalls := h.calls hstate hconns
  have hcoherent := h.coherent i s hstate
  obtain ⟨u, hu, hends⟩ := World.call_put call.run hstate
  have hmoves := hends _ (call_moves hcalls call)
  have hholds := hends _ (call_holds hcalls (h.holds hvfs hconns) hcall)
  obtain ⟨hafter, hbegins⟩ := hends _ (call_coherent hcalls hcoherent
    (hcond s hstate) hcall)
  have hadvances := hends _ (call_advances hcalls hcall)
  have hserial := h.serial.after hcalls hcoherent (c := c)
  rw [hcall] at hserial
  have hstep : t.step (i, c)
      = { world := t.world.put i u
          db := s.dbAfter t.db call
          reads := Function.update t.reads i (s.readsAfter (t.reads i) c)
          history := t.history ++ s.txnsOf (t.reads i) c } := by
    simp only [TxnRun.step, hstate, hcall, elim_some, hu]
  refine ⟨u, hstep, hbegins, ?_⟩
  rw [hstep]
  refine { h.toInv.put (hput u) hmoves.after with
    balanced := hholds.handles (hput u)
    known := fun wp hwp => ?_
    coherent := fun j r hr => ?_
    serial := hserial }
  · rcases World.put_conns hwp with rfl | hold
    · exact hholds.known
    · exact h.known wp hold
  dsimp only at hr ⊢
  by_cases hj : j = i
  · subst hj
    cases hr.symm.trans (World.put_state_self hstate)
    rw [Function.update_self]
    exact hafter
  rw [World.put_state_other (Ne.symm hj)] at hr
  obtain ⟨r', hr', rfl⟩ := map_eq_some_iff.mp hr
  obtain ⟨hvfs', hmem'⟩ := World.state_mem hr'
  rw [Function.update_of_ne hj]
  refine (h.coherent j r' hr').others hadvances hcalls (hvfs'.trans hvfs.symm)
    (h.attached r'.wp hmem').1.pageSize (fun pin hpin => ?_) (fun hlocked => ?_)
  · rw [hvfs]
    exact h.toInv.registered hr' hpin
  rw [h.known r'.wp hmem']
  refine World.exclusive h.balanced hstate hr' (Ne.symm hj) ?_
  rw [← (h.holds hvfs hconns).known]
  exact hlocked

/-- One step keeps the invariant and loses no update. -/
theorem TxnRun.Inv.step (h : t.Inv ps first) (c : Nat × TxnCall) (hcond : t.Upgrades c)
    : t.NoLostUpdate ps first c ∧ (t.step c).Inv ps first := by
  obtain ⟨i, c⟩ := c
  have hdone : ∀ hinv : (t.step (i, c)).Inv ps first,
      (∀ s s', t.world.state i = some s → (t.step (i, c)).world.state i = some s' → s.Begins s')
      → t.NoLostUpdate ps first (i, c) ∧ (t.step (i, c)).Inv ps first := by
    refine fun hinv hbegins => ⟨⟨?_, ?_, hinv.serial, hinv.tracks⟩, hinv⟩
    · intro s s' hs hs' hfree hlocked
      exact ⟨(hinv.coherent i s' hs').locked hlocked, hbegins s s' hs hs' hfree hlocked⟩
    · intro s s' hs _ hdirty _
      have hguarded := (h.attached s.wp (World.state_mem hs).2).2.1
      exact (h.coherent i s hs).locked (hguarded hdirty)
  cases hstate : t.world.state i with
  | none =>
    have hstep : t.step (i, c) = t := by simp only [TxnRun.step, hstate]
    refine hdone (by rw [hstep]; exact h) fun s s' hs => ?_
    rw [hstate] at hs
    cases hs
  | some s =>
    cases hcall : c.walCall with
    | none =>
      obtain ⟨n, rfl⟩ : ∃ n, c = .read n := by
        cases c <;> first | exact ⟨_, rfl⟩ | cases hcall
      have hstep : t.step (i, .read n)
          = { t with reads := Function.update t.reads i (s.readsAfter (t.reads i) (.read n)) } := by
        simp only [TxnRun.step, hstate, TxnCall.walCall, elim_none, txnsOf,
          append_nil]
      refine hdone (by rw [hstep]; exact h.read hstate n) fun r r' hr hr' => ?_
      rw [hstep] at hr'
      cases hr.symm.trans hr'
      exact .of_le id
    | some call =>
      obtain ⟨u, hstep, hbegins, hinv⟩ := h.call hstate hcall hcond
      refine hdone hinv fun r r' hr hr' => ?_
      rw [hstep] at hr'
      cases hr.symm.trans hstate
      cases hr'.symm.trans (World.put_state_self hstate)
      exact hbegins

end Runs

/-- A world at rest, with every lock released. -/
structure TxnRun.AtRest (ps : Nat) (t : TxnRun) : Prop extends World.AtRest ps t.db t.world where
  unlocked : ∀ wp ∈ t.world.conns, wp.held = .unlocked ∧ wp.level = .unlocked
  locks : t.world.vfs.locks = .default
  history : t.history = []

theorem TxnRun.AtRest.inv {ps : Nat} {t : TxnRun} (h : t.AtRest ps) : t.Inv ps t.db where
  toInv := h.toAtRest.inv
  balanced := by
    have hlevels : t.world.conns.map level
        = replicate t.world.conns.length .unlocked := by
      refine eq_replicate_of_mem (fun level hlevel => ?_) |>.trans (by rw [length_map])
      obtain ⟨wp, hwp, rfl⟩ := mem_map.mp hlevel
      exact (h.unlocked wp hwp).2
    unfold World.handles
    rw [hlevels, h.locks]
    exact Handles.idle_balanced _
  known := fun wp hwp => (h.unlocked wp hwp).1.trans (h.unlocked wp hwp).2.symm
  coherent := by
    intro i s hs
    have hmem := (World.state_mem hs).2
    exact .ended (h.idle s.wp hmem).2 (h.unlocked s.wp hmem).1
  serial := by
    rw [h.history]
    exact rfl

/-- In every run whose writes take the write lock only when that is safe, no update is lost. -/
theorem wal_commits_serial {ps : Nat} {t : TxnRun} (start : t.AtRest ps)
    {script : List (Nat × TxnCall)} (hsafe : Meets TxnRun.step TxnRun.Upgrades t script)
    : Meets TxnRun.step (TxnRun.NoLostUpdate ps t.db) t script :=
  Meets.of_invariant TxnRun.step (TxnRun.Inv ps t.db) (fun _ c hinv hc => hinv.step c hc) start.inv
    hsafe

/-- Two idle connections to a database of one page. -/
def pairTxns : TxnRun where
  world := pair.world
  db := pair.db
  reads := fun _ => []
  history := []

theorem pairTxns_atRest : pairTxns.AtRest 512 where
  toAtRest := pair_atRest.toAtRest
  unlocked := by
    intro wp hwp
    have hconn : wp = pairConnection := by simpa [pairTxns, pair] using hwp
    rw [hconn]
    exact ⟨rfl, rfl⟩
  locks := rfl
  history := rfl

/-- The connections write in turn; the second one also reads in an explicit transaction before it
writes.
-/
theorem wal_commits_serial_sample
    : pairTxns.AtRest 512
      ∧ Meets TxnRun.step (TxnRun.NoLostUpdate 512 pairTxns.db) pairTxns
          [(0, .write 1 (markedPage 7)), (0, .read 1), (1, .beginRead), (0, .commit), (1, .read 1),
            (1, .rollback), (1, .write 1 (markedPage 8)), (1, .commit), (1, .beginRead),
              (1, .read 1),
            (1, .write 1 (markedPage 9)), (1, .commit)] :=
  ⟨pairTxns_atRest, wal_commits_serial pairTxns_atRest (by decide +kernel)⟩

/-- The first connection reads page 1 in a read transaction, the second one commits a change of
that page, and the first one goes on to write it.
-/
def upgradeScript : List (Nat × TxnCall) :=
  [(0, .beginRead), (0, .read 1), (1, .write 1 (markedPage 7)), (1, .commit),
    (0, .write 1 (markedPage 8))]

theorem Db.commit_page {db : Db} {pages : Overlay} {count n : UInt32} {b : Bytes}
    (hpage : pages[n]? = some b) (hzero : n ≠ 0) (hle : n ≤ count)
    : (db.commit pages count).page n = some b := by
  have hrange : ¬ (n = 0 ∨ count < n) := by
    simp only [not_or, UInt32.not_lt]
    exact ⟨hzero, hle⟩
  simp only [Db.commit, if_neg hrange, hpage, some_or]

/-- Both commits succeed, and the change of the second connection is overwritten: neither order of
the two transactions explains what they have read and what they leave behind.
-/
theorem pinned_upgrade_loses_update
    : pairTxns.AtRest 512
      ∧ ∃ x y, (exec TxnRun.step pairTxns (upgradeScript ++ [(0, .commit)])).history = [x, y]
          ∧ ¬ Serial pairTxns.db [x, y]
            (exec TxnRun.step pairTxns (upgradeScript ++ [(0, .commit)])).db
          ∧ ¬ Serial pairTxns.db [y, x]
            (exec TxnRun.step pairTxns (upgradeScript ++ [(0, .commit)])).db
          ∧ ¬ (exec TxnRun.step pairTxns upgradeScript).NoLostUpdate 512 pairTxns.db
            (0, .commit) := by
  refine ⟨pairTxns_atRest, ?_⟩
  have hstep : exec TxnRun.step pairTxns (upgradeScript ++ [(0, .commit)])
      = (exec TxnRun.step pairTxns upgradeScript).step (0, .commit) := by
    rw [exec_append, exec_cons, exec_nil]
  -- The byte behind the header tells the three versions of page 1 apart.
  have hbytes : ((exec TxnRun.step pairTxns (upgradeScript ++ [(0, .commit)])).history.map (fun x =>
        (x.reads.map fun r => (r.1, r.2[500]?), x.pages[(1 : UInt32)]?.map (·[500]?), x.count)),
      ((exec TxnRun.step pairTxns (upgradeScript ++ [(0, .commit)])).db.page 1).map (·[500]?))
      = ([([], some (some 7), 1), ([(1, some 0)], some (some 8), 1)], some (some 8)) := by
    decide +kernel
  generalize exec TxnRun.step pairTxns (upgradeScript ++ [(0, .commit)]) = last at hbytes hstep ⊢
  generalize exec TxnRun.step pairTxns upgradeScript = before at hstep ⊢
  obtain ⟨hhistory, hpage⟩ := Prod.mk.inj hbytes
  obtain ⟨x, rest, hx, hxval, hrest⟩ := map_eq_cons_iff.mp hhistory
  obtain ⟨y, rest', hy, hyval, hrest'⟩ := map_eq_cons_iff.mp hrest
  obtain rfl : rest' = [] := map_eq_nil_iff.mp hrest'
  simp only [Prod.mk.injEq] at hxval hyval
  obtain ⟨-, hxpage, hxcount⟩ := hxval
  obtain ⟨hyreads, -, -⟩ := hyval
  obtain ⟨bx, hbx, hbx7⟩ := map_eq_some_iff.mp hxpage
  obtain ⟨bl, hbl, hbl8⟩ := map_eq_some_iff.mp hpage
  obtain ⟨r, rest'', hr, hrval, -⟩ := map_eq_cons_iff.mp hyreads
  simp only [Prod.mk.injEq] at hrval
  have hcommitted : ∀ db : Db, (db.commit x.pages x.count).page 1 = some bx := fun db =>
    Db.commit_page hbx (by decide) (by rw [hxcount]; decide)
  have hinOrder : ¬ Serial pairTxns.db [x, y] last.db := by
    rintro ⟨-, hfrom, -⟩
    have hsame := hfrom.pages r (by rw [hr]; exact mem_cons_self) bx
      (by rw [hrval.1]; exact hcommitted _)
    rw [hsame, hbx7] at hrval
    exact absurd hrval.2 (by decide)
  refine ⟨x, y, by rw [hx, hy], hinOrder, ?_, fun hgood => hinOrder ?_⟩
  · rintro ⟨-, -, hdb⟩
    rw [hdb, hcommitted] at hbl
    cases hbl
    rw [hbx7] at hbl8
    exact absurd hbl8 (by decide)
  · have hserial := hgood.serial.1
    rw [← hstep, hx, hy] at hserial
    exact hserial

end GraphiteSql
