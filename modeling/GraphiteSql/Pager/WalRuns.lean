import GraphiteSql.Pager.WalCommit

/-! Runs of several connections over one log: reads, writes, commits and checkpoints in any
order. Readers keep the database they pinned, and checkpoints lose nothing.
-/

namespace GraphiteSql

open Lib WritePager LockLevel
open Std (TreeMap)

variable {s : PagerState} {n : UInt32}

inductive WalCall where
  | beginRead
  | endRead
  | refresh
  | beginWrite
  | page (op : PageOp)
  | commit
  | rollback
  | checkpoint (mode : CheckpointMode)
deriving DecidableEq, Repr

variable {c : WalCall}

def WalCall.run : WalCall → PagerM Unit
  | .beginRead => beginReadTxn
  | .endRead => endReadTxn
  | .refresh => revalidateReadCache
  | .beginWrite => GraphiteSql.beginWrite
  | .page op => op.run
  | .commit => GraphiteSql.commit
  | .rollback => GraphiteSql.rollback
  | .checkpoint mode => do
      let _ ← checkpointMode mode

/-- The database after a call of `s`: a commit that succeeds replaces the pages it appends. -/
def PagerState.dbAfter (s : PagerState) (db : Db) : WalCall → Db
  | .commit =>
      if s.wp.overlay.isEmpty then db else
      match prepareWal s, GraphiteSql.commit s with
      | .ok _ p, .ok _ _ => db.commit p.wp.overlay p.wp.pageCount
      | _, _ => db
  | _ => db

/-- A run: the connections, the database after the latest commit, and the database that was
current when each read transaction began.
-/
structure WalRun where
  world : World
  db : Db
  views : Nat → Option Db

/-- The view of connection `i`, before and after a call of connection `j`. -/
def WalRun.viewAfter (t : WalRun) (world : World) (i : Nat) : Option Db :=
  match world.conns[i]?.bind WritePager.pin, t.world.conns[i]?.bind WritePager.pin with
  | none, _ => none
  | some _, some _ => t.views i
  | some _, none => some t.db

def WalRun.step (t : WalRun) (c : Nat × WalCall) : WalRun :=
  match t.world.state c.1 with
  | none => t
  | some s =>
      let world := t.world.call c.1 c.2.run
      { world, db := s.dbAfter t.db c.2, views := t.viewAfter world }

-- What a reader sees

/-- Every page of the database has contents. -/
def Db.Total (db : Db) : Prop :=
  ∀ n, n ≠ 0 → n ≤ db.size → ∃ b, db.page n = some b

/-- A read transaction with the snapshot `pin` reads the database `view`. A snapshot at the end
of the log has the size of the current database.
-/
structure Sees (ps : Nat) (size : UInt32) (v : Vfs) (view : Db) (pin : Pin) : Prop where
  mark : pin.mark = pin.mxFrame
  bound : pin.mxFrame ≤ v.index.log.length
  dbSize : pin.dbSize = view.size
  newest : v.index.log.length ≤ pin.mxFrame → view.size = size
  pages : ∀ n b, view.page n = some b → n ≠ 0 ∧ n ≤ view.size
    ∧ (GraphiteSql.newest (v.index.log.take pin.mxFrame) n).or (mainPage ps v.disk.db n) = some b

section Sees

variable {ps : Nat} {size : UInt32} {v : Vfs} {view : Db} {pin : Pin}

theorem readPage_pinned {pin : Pin} (hpin : s.wp.pin = some pin) (hstaged : s.wp.overlay[n]? = none)
    : s.readPage n =
      match newest (s.vfs.index.log.take pin.mxFrame) n with
      | some b => .ok b
      | none =>
          if n = 0 ∨ pin.dbSize < n then .error (.corrupt s!"page {n} out of range")
          else readExactAt s.vfs.disk.db s.wp.pageSize ((n.toNat - 1) * s.wp.pageSize) := by
  obtain ⟨w, hwal, -, hmx, hsize⟩ := pin_runtime hpin
  unfold PagerState.readPage
  rw [hstaged, hwal]
  dsimp only
  rw [findFrame_eq, hmx, hsize]
  rfl

theorem Sees.readPage (h : Sees ps size s.vfs view pin) (hpin : s.wp.pin = some pin)
    (hps : s.wp.pageSize = ps) (hstaged : s.wp.overlay[n]? = none) {b : Bytes}
    (hpage : view.page n = some b) : s.readPage n = .ok b := by
  obtain ⟨hzero, hle, hboth⟩ := h.pages n b hpage
  rw [readPage_pinned hpin hstaged]
  cases hnew : GraphiteSql.newest (s.vfs.index.log.take pin.mxFrame) n with
  | some data =>
    rw [hnew] at hboth
    cases hboth
    rfl
  | none =>
    rw [hnew] at hboth
    rw [if_neg (by rw [h.dbSize]; simp only [not_or, UInt32.not_lt]; exact ⟨hzero, hle⟩), hps]
    exact readExactAt_ok.mpr hboth

theorem Sees.readPage_eq {t : PagerState} (h : Sees ps size s.vfs view pin) {size' : UInt32}
    (h' : Sees ps size' t.vfs view pin) (hpin : s.wp.pin = some pin) (hpin' : t.wp.pin = some pin)
    (total : view.Total) (hps : s.wp.pageSize = ps) (hps' : t.wp.pageSize = ps)
    (hlog : t.vfs.index.log.take pin.mxFrame = s.vfs.index.log.take pin.mxFrame)
    (hstaged : s.wp.overlay[n]? = none) (hstaged' : t.wp.overlay[n]? = none)
    : t.readPage n = s.readPage n := by
  by_cases hrange : n = 0 ∨ view.size < n
  · rw [readPage_pinned hpin hstaged, readPage_pinned hpin' hstaged', hlog, h.dbSize,
      if_pos hrange, if_pos hrange]
  · simp only [not_or, UInt32.not_lt] at hrange
    obtain ⟨b, hb⟩ := total n hrange.1 hrange.2
    rw [h.readPage hpin hps hstaged hb, h'.readPage hpin' hps' hstaged' hb]

/-- What a view depends on. -/
theorem Sees.congr (h : Sees ps size v view pin) {v' : Vfs} {size' : UInt32}
    (hlen : pin.mxFrame ≤ v'.index.log.length)
    (hsize : v'.index.log.length ≤ pin.mxFrame → view.size = size')
    (hlog : v'.index.log.take pin.mxFrame = v.index.log.take pin.mxFrame)
    (hmain : ∀ n b, n ≠ 0 → n ≤ view.size
      → GraphiteSql.newest (v.index.log.take pin.mxFrame) n = none
      → mainPage ps v.disk.db n = some b → mainPage ps v'.disk.db n = some b)
    : Sees ps size' v' view pin where
  mark := h.mark
  bound := hlen
  dbSize := h.dbSize
  newest := hsize
  pages := by
    intro n b hpage
    obtain ⟨hzero, hle, hboth⟩ := h.pages n b hpage
    refine ⟨hzero, hle, ?_⟩
    rw [hlog]
    cases hnew : GraphiteSql.newest (v.index.log.take pin.mxFrame) n with
    | some data =>
      rw [hnew] at hboth
      exact hboth
    | none =>
      rw [hnew] at hboth
      exact hmain n b hzero hle hnew hboth

theorem Tracks.sees {db : Db} (tracks : Tracks ps db v)
    : Sees ps db.size v db (v.index.newPin db.size) where
  mark := rfl
  bound := Nat.le_of_eq tracks.mxFrame
  dbSize := rfl
  newest := fun _ => rfl
  pages := by
    intro n b hpage
    obtain ⟨hzero, hle, -⟩ := tracks.range n b hpage
    refine ⟨hzero, hle, ?_⟩
    rw [WalIndex.newPin, tracks.mxFrame, List.take_length]
    exact tracks.newest_or_main hpage

end Sees

-- The effect of one call

/-- A connection below the write lock has nothing staged. -/
theorem WritePager.Guarded.clean (h : s.wp.Guarded)
    (hheld : ¬ reserved ≤ s.wp.held) : Clean s := by
  by_contra hdirty
  exact hheld (h (Bool.eq_false_iff.mpr hdirty))

section Guarded

def Guards (s : PagerState) : Prop := s.wp.Guarded

theorem ensureShared_guards : Maintains Guards ensureShared := by
  intro s hs
  by_cases hheld : reserved ≤ s.wp.held
  · unfold ensureShared
    rw [runs_get_bind, if_neg (not_lt.mpr (le_trans (by decide) hheld))]
    exact hs
  · have hclean : Clean s := hs.clean hheld
    exact (maintains_clean_of_relocked (fun _ => ensureShared_relocked) s hclean).imp fun t ht =>
      Clean.guarded ht

theorem unpin_guards : Maintains Guards unpin := by
  refine .get_bind fun s hs => ?_
  split <;> exact hs

theorem beginReadTxn_guards : Maintains Guards beginReadTxn := by
  refine ensureShared_guards.bind fun _ => .bind ?_ fun _ => .modify fun _ => id
  refine .get_bind fun s hs => ?_
  split <;> exact hs

theorem endReadTxn_guards : Maintains Guards endReadTxn := by
  refine .bind (Maintains.modify fun _ => id) fun _ => unpin_guards.bind fun _ => ?_
  refine .get_bind fun s hs => ?_
  split
  · rename_i hheld
    have hclean : Clean s := hs.clean (by rw [hheld]; decide)
    exact (maintains_clean_of_relocked (fun _ => dropLock_relocked) s hclean).imp fun t ht =>
      Clean.guarded ht
  · exact hs

theorem revalidateReadCache_guards : Maintains Guards revalidateReadCache := by
  refine .get_bind fun s hs => ?_
  cases s.wp.wal with
  | some w =>
    dsimp only
    split <;> exact hs
  | none =>
    dsimp only
    split
    · exact hs
    cases s.diskChangeCounter with
    | none => exact hs
    | some current =>
      dsimp only
      split <;> exact hs

theorem rollback_clean (s : PagerState) : Ends rollback s Clean := by
  exact releaseLocks_clean _ TreeMap.isEmpty_emptyc

end Guarded

/-- Commits and checkpoints are the calls that change the log and the main file. -/
def WalCall.Silent : WalCall → Prop
  | .commit | .checkpoint _ => False
  | _ => True

section Effect

variable {ps : Nat} {db : Db} {rest : List Nat}

/-- A connection beside which other readers hold the marks `rest`. -/
structure Calls (ps : Nat) (db : Db) (rest : List Nat) (s : PagerState) : Prop where
  tracks : Tracks ps db s.vfs
  attached : Attached ps s.wp
  guarded : s.wp.Guarded
  locksPin : LocksPin s
  readers : s.vfs.index.readers.Perm (s.wp.marks ++ rest)

section

variable (h : Calls ps db rest s)

include h

theorem Calls.quiet : Quiet ps db.size rest s s :=
  Quiet.refl h.readers h.attached

theorem checkpoint_runs (mode : CheckpointMode)
    : Ends (WalCall.checkpoint mode).run s (Checkpointed ps db s) :=
  (checkpointMode_runs h.tracks h.attached mode).bind (fun _ _ => id) (fun _ _ => id)

theorem silent_quiet (hc : c.Silent)
    : Ends c.run s fun t => Quiet ps db.size rest s t ∧ t.wp.Guarded := by
  cases c with
  | beginRead =>
    exact (beginReadTxn_quiet h.tracks h.quiet).and (beginReadTxn_guards s h.guarded)
  | endRead => exact (endTxn_quiet.2.and endReadTxn_guards) s ⟨h.quiet, h.guarded⟩
  | refresh =>
    exact ((revalidateReadCache_quiet h.tracks).and revalidateReadCache_guards) s
      ⟨h.quiet, h.guarded⟩
  | beginWrite =>
    exact (acquireWriteIntent_quiet h.tracks h.quiet h.guarded).mono
      (fun _ t ht => ⟨ht.1, fun _ => ht.2⟩) (fun _ t ht => ⟨ht.1, ht.2.guarded⟩)
  | page op => exact pageOp_quiet h.tracks op h.quiet h.guarded
  | rollback =>
    exact ((rollback_quiet s h.quiet).and (rollback_clean s)).imp fun t ht => ⟨ht.1, ht.2.guarded⟩
  | commit => exact hc.elim
  | checkpoint mode => exact hc.elim

/-- The write lock is taken first; a page size error comes before that. -/
theorem pageOp_keeps {inv : PagerState → Prop} (hs : inv s)
    (hacquire : Maintains inv acquireWriteIntent) (hstaged : ∀ r t, inv r → Staged r t → inv t)
    (op : PageOp) : Ends op.run s inv := by
  have hgranted : Runs acquireWriteIntent s
      (fun _ r => inv r ∧ reserved ≤ r.wp.held ∧ Attached ps r.wp) (fun _ => inv) :=
    ((hacquire s hs).and (acquireWriteIntent_quiet h.tracks h.quiet h.guarded)).mono
      (fun _ r hr => ⟨hr.1, hr.2.2, hr.2.1.attached⟩) (fun _ _ hr => hr.1)
  have hdone : ∀ t, (∃ r, inv r ∧ reserved ≤ r.wp.held ∧ Staged r t) → inv t := by
    rintro t ⟨r, hr, -, ht⟩
    exact hstaged r t hr ht
  exact (pageOp_runs op hgranted h.attached.pageSize fun _ => hs).mono (fun _ => hdone)
    (fun _ t ht => ht.elim id (hdone t))

theorem silent_locksPin (hc : c.Silent)
    : Ends c.run s LocksPin := by
  have hended : ∀ t : PagerState, t.wp.pin = none → LocksPin t := fun t ht hpin => absurd ht hpin
  cases c with
  | beginRead => exact beginReadTxn_locksPin s h.locksPin
  | endRead => exact (endReadTxn_unpinned s).mono (fun _ => hended) (fun _ _ => False.elim)
  | refresh =>
    obtain ⟨w, hwal, -⟩ := h.attached.runtime
    exact revalidateReadCache_locksPin h.locksPin (by rw [hwal]; simp)
  | beginWrite => exact acquireWriteIntent_locksPin s h.locksPin
  | page op =>
    refine pageOp_keeps h h.locksPin acquireWriteIntent_locksPin (fun r t hr ht hpin => ?_) op
    rw [ht.held]
    rw [pin, ht.wal] at hpin
    exact hr hpin
  | rollback => exact (rollback_unpinned s).mono (fun _ => hended) (fun _ _ => False.elim)
  | commit => exact hc.elim
  | checkpoint mode => exact hc.elim

end

def WalCall.EndsRead : WalCall → Prop
  | .endRead | .commit | .rollback => True
  | _ => False

section

variable (h : Calls ps db rest s)

include h

/-- An open read transaction stays open until a call that ends it. -/
theorem silent_pinned {pin : Pin} (hpin : s.wp.pin = some pin)
    (hc : c.Silent) (hends : ¬ c.EndsRead)
    : Ends c.run s fun t => t.wp.pin = some pin := by
  have hstart : Pinned pin s := ⟨hpin, h.locksPin (by rw [hpin]; simp)⟩
  have hkept : Ends c.run s (Pinned pin) := by
    cases c with
    | beginRead => exact beginReadTxn_pinned s hstart
    | refresh => exact revalidateReadCache_pinned s hstart
    | beginWrite => exact acquireWriteIntent_pinned s hstart
    | page op =>
      exact pageOp_keeps h hstart acquireWriteIntent_pinned (fun _ _ hr ht => hr.staged ht) op
    | checkpoint mode => exact hc.elim
    | endRead | rollback | commit => exact absurd trivial hends
  exact hkept.imp fun t ht => ht.pin

/-- The rule of `commit`: with nothing staged it releases the locks; else it fails before it
writes, or appends what it prepared and then releases the locks.
-/
theorem commit_rule {post : Unit → PagerState → Prop}
    {fail : Error → PagerState → Prop}
    (hclean : s.wp.overlay.isEmpty = true → Runs releaseLocks s post fail)
    (hfail : s.wp.overlay.isEmpty = false → ∀ e t, Staged s t → fail e t)
    (hdone : s.wp.overlay.isEmpty = false → Runs commitWal s post fun _ => Staged s)
    : Runs commit s post fail := by
  unfold commit
  rw [runs_get_bind]
  by_cases hempty : s.wp.overlay.isEmpty = true
  · rw [if_pos hempty]
    exact hclean hempty
  have hdirty : s.wp.overlay.isEmpty = false := Bool.eq_false_iff.mpr hempty
  obtain ⟨w, hwal, -⟩ := h.attached.runtime
  rw [if_neg hempty, if_pos (by rw [hwal]; rfl)]
  exact (hdone hdirty).mono (fun _ _ => id) (hfail hdirty)

/-- A commit that fails or has nothing staged is quiet; one that succeeds appends its pages. -/
theorem commit_runs
    : Runs commit s
      (fun _ t => (s.wp.overlay.isEmpty = true ∧ Quiet ps db.size rest s t ∧ t.wp.pin = none
          ∧ Clean t)
        ∨ ∃ p w, s.wp.overlay.isEmpty = false ∧ prepareWal s = .ok () p ∧ WalPrepared s p
          ∧ s.wp.wal = some w ∧ Quiet ps p.wp.pageCount rest (p.appended w) t
          ∧ t.wp.pin = none ∧ Clean t)
      (fun _ t => s.wp.overlay.isEmpty = false ∧ Staged s t) := by
  refine commit_rule h (fun hempty => ?_) (fun hdirty _ _ ht => ⟨hdirty, ht⟩) fun hdirty => ?_
  · exact (((endTxn_quiet.1.and releaseLocks_clean) s ⟨h.quiet, hempty⟩).and
      (releaseLocks_unpinned s)).mono
      (fun _ t ht => .inl ⟨hempty, ht.1.1, ht.2, ht.1.2⟩) (fun _ _ ht => ht.2.elim)
  refine (commitWal_runs h.attached h.tracks h.readers (h.guarded hdirty)).mono (fun _ t ht => ?_)
    (fun _ _ => id)
  obtain ⟨p, w', hrun, hp, hwal', hquiet, hpin, hclean⟩ := ht
  exact .inr ⟨p, w', hdirty, hrun, hp, hwal', hquiet, hpin, hclean⟩

theorem commit_ended
    : Runs commit s (fun _ t => t.wp.pin = none ∧ t.wp.held = .unlocked) (fun _ => Staged s) := by
  refine commit_rule h (fun _ => ?_) (fun _ _ _ => id) fun hdirty => ?_
  · exact (releaseLocks_ended s).mono (fun _ _ => id) (fun _ _ => False.elim)
  · refine commitWal_rule h.attached h.tracks (h.guarded hdirty) (fun _ _ => id) fun p w _ _ _ => ?_
    exact (releaseLocks_ended _).mono (fun _ _ => id) (fun _ _ => False.elim)

end

end Effect

end GraphiteSql
