import GraphiteSql.Pager.Handles
import GraphiteSql.Pager.HeaderSync
import GraphiteSql.Pager.WalRuns

/-! The locks of the calls in WAL mode, as transitions of the handle on the main file: the lock
state counts every connection, and at most one of them writes.
-/

namespace GraphiteSql

open Lib PagerState LockLevel
open Std (TreeMap)

/-- The pager knows its lock level, and the lock state counts it. -/
structure Holds (others : List LockLevel) (s : PagerState) : Prop where
  known : s.wp.held = s.wp.level
  balanced : Handles.Balanced { locks := s.vfs.locks, levels := s.wp.level :: others }

theorem Handles.Balanced.perm {locks : LockState} {levels levels' : List LockLevel}
    (h : Handles.Balanced { locks, levels }) (hperm : levels.Perm levels')
    : Handles.Balanced { locks, levels := levels' } where
  shared := (hperm.countP_eq _).symm.trans h.shared
  reserved := (hperm.countP_eq _).symm.trans h.reserved
  exclusive := (hperm.countP_eq _).symm.trans h.exclusive
  pending := h.pending
  alone := h.alone
  settled := fun hmem => h.settled (hperm.mem_iff.mpr hmem)

section Holds

variable {others : List LockLevel} {s t : PagerState}

/-- What holding a lock depends on. -/
theorem Holds.congr (h : Holds others s) (hlocks : t.vfs.locks = s.vfs.locks)
    (hheld : t.wp.held = s.wp.held) (hlevel : t.wp.level = s.wp.level) : Holds others t where
  known := by rw [hheld, hlevel]; exact h.known
  balanced := by rw [hlocks, hlevel]; exact h.balanced

theorem ensureShared_holds : Maintains (Holds others) ensureShared := by
  refine .get_bind fun s hs => ?_
  split
  · rename_i hheld
    have hlevel : s.wp.level = .unlocked := by
      rw [← hs.known]
      cases hlevel : s.wp.held <;> rw [hlevel] at hheld
        <;> first | rfl | exact absurd hheld (by decide)
    have hbalanced := hs.balanced
    rw [hlevel] at hbalanced
    rw [runs_bind]
    refine runs_lift_bind.mpr ⟨fun r hr => ?_, fun _ _ => hs⟩
    obtain ⟨locks, hlocks, rfl⟩ := Vfs.lock_ok hr
    rw [hlevel] at hlocks
    rw [hlevel]
    exact ⟨rfl, hbalanced.acquire_shared (i := 0) rfl hlocks⟩
  · exact hs

theorem unpin_holds : Maintains (Holds others) unpin := by
  refine .get_bind fun s hs => ?_
  split
  · exact hs.congr rfl rfl rfl
  · exact hs

theorem dropLock_holds : Maintains (Holds others) dropLock := by
  intro s hs
  have hlevel : (if unlocked < s.wp.level then unlocked else s.wp.level)
      = .unlocked := by
    cases s.wp.level <;> rfl
  refine ⟨hlevel.symm, ?_⟩
  simp only [Vfs.unlock, hlevel]
  exact hs.balanced.release (i := 0) rfl

theorem releaseLocks_holds : Maintains (Holds others) releaseLocks :=
  (endTxn_maintains (fun _ hs => hs.congr rfl rfl rfl) unpin_holds dropLock_holds).1

theorem beginReadTxn_holds : Maintains (Holds others) beginReadTxn := by
  refine ensureShared_holds.bind fun _ => .bind ?_ fun _ =>
    Maintains.modify fun _ hs => hs.congr rfl rfl rfl
  refine .get_bind fun s hs => ?_
  split
  · exact hs.congr rfl rfl rfl
  · exact hs

theorem rollback_holds : Maintains (Holds others) rollback :=
  Maintains.bind (Maintains.modify fun _ hs => hs.congr rfl rfl rfl) fun _ => releaseLocks_holds

/-- The step to the write lock, from the shared lock. -/
theorem ensureReserved_holds {undo : PagerM Unit} (hundo : Maintains (Holds others) undo)
    (hs : Holds others s) (hshared : shared ≤ s.wp.held)
    : Ends (ensureReserved undo) s (Holds others) := by
  unfold ensureReserved
  rw [Ends, runs_get_bind]
  split
  · rename_i hheld
    have hlevel : s.wp.level = .shared := by
      rw [← hs.known]
      cases hlevel : s.wp.held <;> rw [hlevel] at hheld hshared <;>
        first | rfl | exact absurd hheld (by decide) | exact absurd hshared (by decide)
    have hbalanced := hs.balanced
    rw [hlevel] at hbalanced
    rw [runs_bind]
    refine runs_onError (P := Holds others) ?_ fun _ t ht => hundo t ht
    refine runs_lift_bind.mpr ⟨fun r hr => ?_, fun _ _ => hs⟩
    obtain ⟨locks, hlocks, rfl⟩ := Vfs.lock_ok hr
    rw [hlevel] at hlocks
    rw [hlevel]
    have hgranted : ∀ t : PagerState, t.vfs.locks = locks → t.wp.held = .reserved
        → t.wp.level = .reserved → Holds others t := by
      intro t hl hh hv
      refine ⟨hh.trans hv.symm, ?_⟩
      rw [hl, hv]
      exact hbalanced.acquire_reserved (i := 0) rfl hlocks
    refine runs_onError (P := Holds others) ?_ fun _ t ht => hundo t ht
    refine (refreshForeignState_frame _ _ ⟨rfl, rfl, rfl, rfl⟩).mono (fun _ t ht => ?_)
      (fun _ t ht => ?_)
    · exact hgranted t (by rw [ht.1]) ht.2.1 ht.2.2.1
    · exact hgranted t (by rw [ht.1]) ht.2.1 ht.2.2.1
  · exact hs

theorem acquireWriteIntent_holds : Maintains (Holds others) acquireWriteIntent := by
  refine .get_bind fun s hs => ?_
  have hundo : Maintains (Holds others)
      (if s.wp.held = .unlocked then releaseLocks else pure ()) := by
    split
    · exact releaseLocks_holds
    · exact .pure _
  refine ((ensureShared_holds s hs).and (ensureShared_shared s)).bind (fun _ t ht => ?_)
    (fun _ _ ht => ht.1)
  exact ensureReserved_holds hundo ht.1 ht.2

theorem Holds.staged (h : Holds others s) (ht : Staged s t) : Holds others t := by
  refine h.congr (by rw [ht.vfs]) ht.held ?_
  rw [ht.shape]
  rfl

theorem commit_holds {ps : Nat} {db : Db} {rest : List Nat} (calls : Calls ps db rest s)
    (hs : Holds others s) : Ends commit s (Holds others) := by
  refine commit_rule calls (fun _ => releaseLocks_holds s hs)
    (fun _ _ _ => hs.staged) fun hdirty => ?_
  refine commitWal_rule calls.attached calls.tracks (calls.guarded hdirty) (fun _ _ => id) ?_
  intro p w _ hp _
  have hafter : Holds others (p.appended w) := (hs.staged hp.staged).congr rfl rfl rfl
  exact ((releaseLocks_holds _ hafter).and (releaseLocks_ended _)).mono (fun _ _ ht => ht.1)
    (fun _ _ ht => ht.2.elim)

end Holds

section WriteIntent

variable {ps : Nat} {db : Db} {rest : List Nat} {s : PagerState}

theorem lock_granted (target : LockLevel)
    : Runs (lock target) s (fun _ => Relocked s) (fun _ t => t = s) := by
  refine runs_lift_bind.mpr ⟨fun r hr => ?_, fun _ _ => rfl⟩
  obtain ⟨locks, -, rfl⟩ := Vfs.lock_ok hr
  exact rfl

theorem ensureShared_granted
    : Runs ensureShared s
      (fun _ t => Relocked s t
        ∧ t.wp.held = if s.wp.held < .shared then .shared else s.wp.held)
      (fun _ t => t = s) := by
  unfold ensureShared
  rw [runs_get_bind]
  split
  · exact (lock_granted _).seq fun _ t ht => ⟨setHeld_relocked _ t ht, rfl⟩
  · exact ⟨Relocked.refl s, rfl⟩

def PagerState.newestHeader (s : PagerState) : Result DatabaseHeader := do
  DatabaseHeader.parse (← s.newestPage 1)

theorem newestPage_congr {t : PagerState} (hdisk : t.vfs.disk = s.vfs.disk)
    (hlog : t.vfs.index.log = s.vfs.index.log) (hmx : t.vfs.index.mxFrame = s.vfs.index.mxFrame)
    (hps : t.wp.pageSize = s.wp.pageSize)
    (hsize : t.snapshotSize t.vfs.index.snapshot = s.snapshotSize s.vfs.index.snapshot) (n : UInt32)
    : t.newestPage n = s.newestPage n := by
  unfold newestPage readDisk
  rw [findFrame_eq, findFrame_eq, hlog, hmx, hsize, hdisk, hps]

/-- `t` is `s` moved to the newest snapshot, of `size` pages. -/
structure Refreshed (size : UInt32) (s t : PagerState) : Prop where
  vfs : t.vfs = s.vfs
  held : t.wp.held = s.wp.held
  overlay : t.wp.overlay = s.wp.overlay
  wal : ∀ w, s.wp.wal = some w
    → t.wp.wal = some { w with snapshot := s.vfs.index.snapshot, dbSize := size }
  pageCount : t.wp.pageCount = size
  header : ∃ hdr, s.newestHeader = .ok hdr
    ∧ (hdr = s.wp.committedHeader ∨ hdr.changeCounter ≠ s.wp.header.changeCounter
      → t.wp.committedHeader = hdr)

theorem refreshForeignState_refreshed (hclean : Clean s)
    (hheader : s.wp.header = s.wp.committedHeader)
    (hpin : s.wp.pin = none) (hwal : s.wp.wal ≠ none)
    : Runs refreshForeignState s (fun _ => Refreshed (s.snapshotSize s.vfs.index.snapshot) s)
      (fun _ _ => True) := by
  obtain ⟨w, hw⟩ := Option.ne_none_iff_exists'.mp hwal
  have hmark := WritePager.registeredMark_none hpin hw
  unfold refreshForeignState
  rw [runs_get_bind, hclean, hheader]
  simp only [Bool.not_true, ne_eq, not_true_eq_false, decide_false, Bool.or_self,
    Bool.false_eq_true,
    if_false, hw, hmark, Option.isSome_none]
  rw [runs_bind, modifyWp, runs_modify, runs_bind, readPage_runs]
  refine ⟨fun page hpage => ?_, fun _ _ => trivial⟩
  have hnewest : s.newestPage 1 = .ok page := by
    rw [← hpage]
    unfold PagerState.readPage PagerState.newestPage
    rewrite [TreeMap.getElem?_of_isEmpty hclean]
    rfl
  refine runs_lift_bind.mpr ⟨fun hdr hparse => ?_, fun _ _ => trivial⟩
  have hhdr : s.newestHeader = .ok hdr := except_bind_eq_ok.mpr ⟨page, hnewest, hparse⟩
  have hset : ∀ w', s.wp.wal = some w' → some { w with
      snapshot := s.vfs.index.snapshot
      dbSize := s.snapshotSize s.vfs.index.snapshot
      registeredMark := none }
      = some { w' with
          snapshot := s.vfs.index.snapshot
          dbSize := s.snapshotSize s.vfs.index.snapshot } := by
    intro w' hw'
    rw [hw] at hw'
    cases hw'
    rw [hmark]
  split
  · exact ⟨rfl, rfl, rfl, hset, rfl, hdr, hhdr, fun _ => rfl⟩
  rename_i hsame
  refine ⟨rfl, rfl, rfl, hset, rfl, hdr, hhdr, fun hcase => ?_⟩
  rcases hcase with hcase | hcase
  · exact hcase.symm
  · rw [hheader] at hcase
    exact absurd hcase hsame

/-- An unlocked connection that takes the write lock refreshes its state under it. -/
theorem acquireWriteIntent_first (hclean : Clean s) (hheader : s.wp.header = s.wp.committedHeader)
    (hpin : s.wp.pin = none) (hwal : s.wp.wal ≠ none) (hheld : s.wp.held = .unlocked)
    : Runs acquireWriteIntent s
      (fun _ t => ∃ r, Relocked s r ∧ r.wp.held = .reserved
        ∧ Refreshed (r.snapshotSize r.vfs.index.snapshot) r t)
      (fun _ t => t.wp.pin = none ∧ t.wp.held = .unlocked) := by
  have hundo : ∀ t : PagerState, Ends releaseLocks t
    fun u => u.wp.pin = none ∧ u.wp.held = .unlocked := fun t =>
    (releaseLocks_ended t).mono (fun _ _ => id) (fun _ _ => False.elim)
  unfold acquireWriteIntent
  rw [runs_get_bind]
  dsimp only
  rw [if_pos hheld]
  refine ensureShared_granted.bind (fun _ r hr => ?_)
    (fun _ t ht => by rw [ht]; exact ⟨hpin, hheld⟩)
  unfold ensureReserved
  rw [runs_get_bind, if_pos (by rw [hr.2, hheld]; decide), runs_bind]
  refine runs_onError (P := fun _ => True)
    ((lock_relocked _ r hr.1).mono (fun _ q hq => ?_) (fun _ _ _ => trivial)) fun _ t _ => hundo t
  rw [runs_bind, modifyWp, runs_modify]
  have hlocked : Relocked s
      { q with wp := { q.wp with held := .reserved, readCacheToken := none } } := by
    rw [hq]
    rfl
  refine runs_onError (P := fun _ => True) ?_ fun _ t _ => hundo t
  refine (refreshForeignState_refreshed ?_ ?_ ?_ ?_).mono (fun _ t ht => ⟨_, hlocked, rfl, ht⟩)
    (fun _ _ => id)
  · rw [hlocked.overlay]
    exact hclean
  · rw [hlocked.header, hlocked.committedHeader]
    exact hheader
  · rw [hlocked.wal]
    exact hpin
  · rw [hlocked.wal]
    exact hwal

/-- A pinned connection takes the write lock as it is. -/
theorem acquireWriteIntent_upgrade {pin : Pin} (hs : Pinned pin s) (hfree : s.wp.held < .reserved)
    : Runs acquireWriteIntent s (fun _ t => Relocked s t ∧ t.wp.held = .reserved)
      (fun _ t => t = s) := by
  have hentry : s.wp.held ≠ .unlocked := fun h => by
    have hshared := hs.shared
    rw [h] at hshared
    exact absurd hshared (by decide)
  unfold acquireWriteIntent ensureShared
  rw [runs_get_bind]
  dsimp only
  rw [if_neg hentry, runs_bind, runs_get_bind, if_neg (not_lt.mpr hs.shared)]
  unfold ensureReserved
  rw [runs_pure, runs_get_bind, if_pos hfree, runs_bind]
  refine runs_onError (P := fun t => t = s) ?_ fun _ _ ht => ht
  refine (lock_granted _).mono (fun _ q hq => ?_) (fun _ _ => id)
  rw [runs_bind]
  have hlocked : Relocked s
      { q with wp := { q.wp with held := .reserved, readCacheToken := none } } := by
    rw [hq]
    rfl
  refine runs_onError (P := fun _ => False) ?_ fun _ _ => False.elim
  have hpin := hs.pin
  rw [WritePager.pin, ← hlocked.wal] at hpin
  exact .of_ok (refreshForeignState_skips hpin) ⟨hlocked, rfl⟩

end WriteIntent

end GraphiteSql
