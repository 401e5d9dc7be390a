import GraphiteSql.Pager.Staging

/-! What taking and dropping locks leaves alone in rollback-journal mode: the files, the staged
pages and the header.
-/

namespace GraphiteSql

open Lib

def PagerState.relock (s : PagerState) (locks : LockState) (held level : LockLevel)
    (readTxn : Bool) (readCacheToken : Option UInt32) : PagerState :=
  { vfs := { s.vfs with locks }
    wp := { s.wp with held, level, readTxn, readCacheToken } }

def Relocked (base s : PagerState) : Prop :=
  s = base.relock s.vfs.locks s.wp.held s.wp.level s.wp.readTxn s.wp.readCacheToken

theorem Relocked.refl (s : PagerState) : Relocked s s := rfl

namespace Relocked

variable {base s : PagerState} (h : Relocked base s)

include h

theorem disk : s.vfs.disk = base.vfs.disk := by rw [h]; rfl

theorem trace : s.vfs.trace = base.vfs.trace := by rw [h]; rfl

theorem index : s.vfs.index = base.vfs.index := by rw [h]; rfl

theorem wal : s.wp.wal = base.wp.wal := by rw [h]; rfl

theorem overlay : s.wp.overlay = base.wp.overlay := by rw [h]; rfl

theorem journal : s.wp.journal = base.wp.journal := by rw [h]; rfl

theorem header : s.wp.header = base.wp.header := by rw [h]; rfl

theorem pageSize : s.wp.pageSize = base.wp.pageSize := by rw [h]; rfl

theorem diskPages : s.wp.diskPages = base.wp.diskPages := by rw [h]; rfl

theorem pageCount : s.wp.pageCount = base.wp.pageCount := by rw [h]; rfl

end Relocked

section Steps

variable {base : PagerState} {inv : PagerState → Prop}

/-- A granted lock changes the shared lock state and the level of the handle. -/
theorem Vfs.lock_ok {v : Vfs} {level target : LockLevel} {r : Vfs × LockLevel}
    (h : v.lock level target = .ok r)
    : ∃ locks, v.locks.acquire level target = .ok locks
      ∧ r = ({ v with locks }, if level < target then target else level) := by
  unfold Vfs.lock at h
  cases hacq : v.locks.acquire level target with
  | error e =>
    rw [hacq] at h
    cases h
  | ok locks =>
    rw [hacq] at h
    cases h
    exact ⟨locks, rfl, rfl⟩

/-- An error keeps `P` when the failing call and the cleanup keep it. -/
theorem runs_onError {α : Type} {x : PagerM α} {cleanup : PagerM Unit}
    {post : α → PagerState → Prop} {fail : Error → PagerState → Prop} {P : PagerState → Prop}
    {s : PagerState} (hx : Runs x s post fun _ => P)
    (hclean : ∀ e t, P t → Runs cleanup t (fun _ => fail e) (fun _ => fail e))
    : Runs (onError x cleanup) s post fail := by
  unfold Runs onError
  cases hxs : x s with
  | ok a t => exact hx.ok hxs
  | error e t =>
    have hrun := hclean e t (hx.error hxs)
    dsimp only
    cases hct : cleanup t with
    | ok u t' => exact hrun.ok hct
    | error e' t' => exact hrun.error hct

theorem maintains_onError {α : Type} {x : PagerM α}
    {cleanup : PagerM Unit} (hx : Maintains inv x) (hc : Maintains inv cleanup)
    : Maintains inv (onError x cleanup) :=
  fun s hs => runs_onError (hx s hs) fun _ t ht => hc t ht

theorem lock_relocked (target : LockLevel) : Maintains (Relocked base) (lock target) := by
  refine .get_bind fun s hs => ?_
  refine runs_lift_bind.mpr ⟨fun r hr => ?_, fun _ _ => hs⟩
  obtain ⟨locks, -, rfl⟩ := Vfs.lock_ok hr
  rw [hs]
  rfl

theorem unlock_relocked (target : LockLevel) : Maintains (Relocked base) (unlock target) := by
  refine .modify fun s hs => ?_
  rw [hs]
  rfl

theorem setHeld_relocked (level : LockLevel) : Maintains (Relocked base) (setHeld level) := by
  refine .modify fun s hs => ?_
  rw [hs]
  rfl

theorem dropLock_relocked : Maintains (Relocked base) dropLock := by
  refine (unlock_relocked _).bind fun _ => .modify fun s hs => ?_
  rw [hs]
  rfl

theorem ensureShared_relocked : Maintains (Relocked base) ensureShared := by
  refine .get_bind fun s hs => ?_
  split
  · exact (lock_relocked _).bind (fun _ => setHeld_relocked _) s hs
  · exact hs

/-- Both ends of a transaction drop the pin, and then perhaps the lock. -/
theorem endTxn_maintains
    (hend : ∀ s, inv s → inv { s with wp := { s.wp with readTxn := false } })
    (hunpin : Maintains inv unpin) (hdrop : Maintains inv dropLock)
    : Maintains inv releaseLocks ∧ Maintains inv endReadTxn := by
  have hrest (held : PagerState → Prop) [DecidablePred held] : Maintains inv (do
      modifyWp fun wp => { wp with readTxn := false }
      unpin
      if held (← get) then dropLock) := by
    refine .bind (Maintains.modify hend) fun _ => hunpin.bind fun _ => ?_
    refine .get_bind fun s hs => ?_
    split
    · exact hdrop s hs
    · exact hs
  exact ⟨hrest _, hrest _⟩

/-- Taking the write lock keeps what its parts keep. A refused first write ends the transaction. -/
theorem acquireWriteIntent_maintains
    (hshared : Maintains inv ensureShared) (hlock : Maintains inv (lock .reserved))
    (hheld : ∀ s, inv s
      → inv { s with wp := { s.wp with held := .reserved, readCacheToken := none } })
    (hrefresh : Maintains inv refreshForeignState)
    (hundo : ∀ s, inv s → s.wp.held = .unlocked → Maintains inv releaseLocks)
    : Maintains inv acquireWriteIntent := by
  refine .get_bind fun s hs => ?_
  have hcleanup : Maintains inv (if s.wp.held = .unlocked then releaseLocks else pure ()) := by
    split
    · rename_i hentry
      exact hundo s hs hentry
    · exact .pure _
  refine hshared.bind (fun _ => ?_) s hs
  refine .get_bind fun t ht => ?_
  split
  · refine (maintains_onError hlock hcleanup).bind (fun _ => ?_) t ht
    refine .bind (Maintains.modify hheld) fun _ => ?_
    exact maintains_onError hrefresh hcleanup
  · exact ht

/-- The state in which a refresh reads page 1: the newest snapshot of the log. -/
def PagerState.advanced (s : PagerState) (w : WalRuntime) : PagerState :=
  { s with wp := { s.wp with
      wal := some { w with
        snapshot := s.vfs.index.snapshot
        dbSize := s.snapshotSize s.vfs.index.snapshot }
      diskPages := s.mainFilePageCount.getD s.wp.diskPages
      pageCount := s.snapshotSize s.vfs.index.snapshot } }

theorem refreshForeignState_maintains
    (hlog : ∀ s w, inv s → s.wp.wal = some w → w.registeredMark = none → inv (s.advanced w))
    (hfile : ∀ s pages, inv s → s.wp.wal = none
      → inv { s with wp := { s.wp with diskPages := pages, pageCount := pages } })
    (hadopt : ∀ hdr, Maintains inv (adoptCommittedHeader hdr))
    : Maintains inv refreshForeignState := by
  refine .get_bind fun s hs => ?_
  split
  · exact hs
  cases hwal : s.wp.wal with
  | some w =>
    dsimp only
    split
    · exact hs
    rename_i hmark
    have hmoved : inv (s.advanced w) := hlog s w hs hwal (by simpa using hmark)
    rw [runs_bind, modifyWp, runs_modify, runs_bind, readPage_runs]
    refine ⟨fun page _ => runs_lift_bind.mpr ⟨fun hdr _ => ?_, fun _ _ => hmoved⟩,
      fun _ _ => hmoved⟩
    split
    · exact hadopt hdr _ hmoved
    · exact hmoved
  | none =>
    cases s.diskChangeCounter with
    | none => exact hs
    | some current =>
      dsimp only
      split
      · exact hs
      refine runs_lift_bind.mpr ⟨fun head _ => ?_, fun _ _ => hs⟩
      exact runs_lift_bind.mpr ⟨fun hdr _ => hadopt hdr _ (hfile s _ hs hwal), fun _ _ => hs⟩

variable (rollbackMode : base.wp.wal = none)

include rollbackMode

theorem unpin_ok : unpin base = .ok () base := by
  unfold unpin
  rw [estate_get_bind, rollbackMode]
  rfl

theorem unpin_relocked : Maintains (Relocked base) unpin := by
  refine .get_bind fun s hs => ?_
  rw [hs.wal, rollbackMode]
  exact hs

theorem releaseLocks_relocked : Maintains (Relocked base) releaseLocks :=
  (endTxn_maintains (fun s hs => by rw [hs]; rfl) (unpin_relocked rollbackMode)
    dropLock_relocked).1

/-- Releasing the locks never fails, and the pager believes to hold none afterwards. -/
theorem releaseLocks_done
    : Runs releaseLocks base (fun _ s' => Relocked base s' ∧ s'.wp.held = .unlocked)
      (fun _ _ => False) := by
  have hfirst : Relocked base { base with wp := { base.wp with readTxn := false } } := rfl
  unfold releaseLocks
  rw [runs_bind, modifyWp, runs_modify]
  refine .bind_ok (unpin_ok (hfirst.wal.trans rollbackMode)) ?_
  rw [runs_get_bind]
  split_ifs with hheld
  · exact ⟨rfl, rfl⟩
  · exact ⟨hfirst, not_not.mp hheld⟩

variable (dirty : ¬ base.wp.overlay.isEmpty)

include dirty

omit rollbackMode in
theorem refreshForeignState_relocked : Maintains (Relocked base) refreshForeignState := by
  refine .get_bind fun s hs => ?_
  rw [hs.overlay]
  simp only [dirty, Bool.not_false, Bool.true_or, ite_true]
  exact hs

theorem acquireWriteIntent_relocked : Maintains (Relocked base) acquireWriteIntent :=
  acquireWriteIntent_maintains ensureShared_relocked (lock_relocked _)
    (fun s hs => by rw [hs]; rfl) (refreshForeignState_relocked dirty)
    fun _ _ _ => releaseLocks_relocked rollbackMode

theorem acquireExclusive_relocked {s : PagerState} (hs : Relocked base s)
    : Runs acquireExclusive s
      (fun _ s' => Relocked base s' ∧ LockLevel.exclusive ≤ s'.wp.held)
      (fun _ => Relocked base) := by
  unfold acquireExclusive
  refine (acquireWriteIntent_relocked rollbackMode dirty s hs).seq fun _ s' hs' => ?_
  rw [runs_get_bind]
  split_ifs with hheld
  · refine (lock_relocked _ s' hs').seq fun _ t ht => ?_
    exact ⟨setHeld_relocked _ t ht, le_refl _⟩
  · exact ⟨hs', not_lt.mp hheld⟩

end Steps

end GraphiteSql
