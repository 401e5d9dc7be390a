import GraphiteSql.Pager.WalRules

/-! Open read transactions: they hold the shared lock, and only the calls that end them drop the
pin.
-/

namespace GraphiteSql

open Lib Option WritePager LockLevel

/-- A read transaction is open, and holds the shared lock. -/
structure Pinned (pin : Pin) (s : PagerState) : Prop where
  pin : s.wp.pin = some pin
  shared : LockLevel.shared ≤ s.wp.held

section Pinned

variable {pin : Pin}

theorem ensureShared_pinned : Maintains (Pinned pin) ensureShared := by
  refine .get_bind fun s hs => ?_
  rw [if_neg (not_lt.mpr hs.shared)]
  exact hs

theorem refreshForeignState_skips {s : PagerState} (h : s.wp.pin = some pin)
    : refreshForeignState s = .ok () s := by
  obtain ⟨w, hwal, hmark, -⟩ := pin_runtime h
  unfold refreshForeignState
  rw [estate_get_bind, hwal]
  split
  · rfl
  · dsimp only
    rw [if_pos (by rw [hmark]; rfl)]
    rfl

theorem refreshForeignState_pinned : Maintains (Pinned pin) refreshForeignState := fun _ hs =>
  Runs.of_ok (refreshForeignState_skips hs.pin) hs

theorem revalidateReadCache_pinned : Maintains (Pinned pin) revalidateReadCache := by
  refine .get_bind fun s hs => ?_
  obtain ⟨w, hwal, hmark, -⟩ := pin_runtime hs.pin
  rw [hwal]
  dsimp only
  rw [if_neg (by rw [hmark]; simp)]
  exact hs

theorem beginReadTxn_pinned : Maintains (Pinned pin) beginReadTxn := by
  refine ensureShared_pinned.bind fun _ => .bind ?_ fun _ =>
    Maintains.modify fun s hs => ⟨hs.pin, hs.shared⟩
  refine .get_bind fun s hs => ?_
  obtain ⟨w, hwal, hmark, -⟩ := pin_runtime hs.pin
  rw [hwal, map_some, hmark]
  exact hs

theorem lock_pinned (target : LockLevel) : Maintains (Pinned pin) (lock target) := by
  refine .get_bind fun s hs => ?_
  refine runs_lift_bind.mpr ⟨fun r hr => ?_, fun _ _ => hs⟩
  exact ⟨hs.pin, hs.shared⟩

/-- An open read transaction survives the step to a write lock, whether it is granted or not. -/
theorem acquireWriteIntent_pinned : Maintains (Pinned pin) acquireWriteIntent := by
  refine acquireWriteIntent_maintains ensureShared_pinned (lock_pinned _) (fun s hs => ⟨hs.pin, ?_⟩)
    refreshForeignState_pinned fun s hs hentry => ?_
  · show shared ≤ reserved
    decide
  · have hshared := hs.shared
    rw [hentry] at hshared
    exact absurd hshared (by decide)

theorem Pinned.staged {r t : PagerState} (hr : Pinned pin r) (ht : Staged r t) : Pinned pin t where
  pin := by rw [WritePager.pin, ht.wal]; exact hr.pin
  shared := by rw [ht.held]; exact hr.shared

end Pinned

/-- An open read transaction holds at least the shared lock. -/
def LocksPin (s : PagerState) : Prop :=
  s.wp.pin ≠ none → LockLevel.shared ≤ s.wp.held

section LocksPin

theorem unpin_unpinned : Ensures (fun s => s.wp.pin = none) unpin := by
  intro s
  unfold unpin
  rw [runs_get_bind]
  cases hwal : s.wp.wal with
  | none => exact congrArg (Option.bind · _) hwal
  | some w =>
    rw [bind_some]
    cases hmark : w.registeredMark with
    | none => exact pin_none hwal hmark
    | some mark =>
      exact pin_none (congrArg (Option.map _) hwal) rfl

section

variable (s : PagerState)

include s

theorem unpin_succeeds : ∃ t, unpin s = .ok () t := by
  unfold unpin
  rw [estate_get_bind]
  cases s.wp.wal.bind WalRuntime.registeredMark with
  | none => exact ⟨_, rfl⟩
  | some mark => exact ⟨_, rfl⟩

/-- Releasing the locks always succeeds and ends the transaction. -/
theorem releaseLocks_ended
    : Runs releaseLocks s (fun _ t => t.wp.pin = none ∧ t.wp.held = .unlocked)
      (fun _ _ => False) := by
  unfold releaseLocks modifyWp
  rw [runs_bind]
  obtain ⟨t, ht⟩ := unpin_succeeds { s with wp := { s.wp with readTxn := false } }
  have hpin : t.wp.pin = none := (unpin_unpinned _).ok ht
  refine .bind_ok ht ?_
  rw [runs_get_bind]
  split
  · exact ⟨hpin, rfl⟩
  · rename_i hheld
    exact ⟨hpin, not_not.mp hheld⟩

theorem releaseLocks_unpinned
    : Runs releaseLocks s (fun _ t => t.wp.pin = none) (fun _ _ => False) :=
  (releaseLocks_ended s).mono (fun _ _ ht => ht.1) (fun _ _ => id)

theorem endReadTxn_unpinned
    : Runs endReadTxn s (fun _ t => t.wp.pin = none) (fun _ _ => False) := by
  unfold endReadTxn modifyWp
  rw [runs_bind]
  obtain ⟨t, ht⟩ := unpin_succeeds { s with wp := { s.wp with readTxn := false } }
  have hpin : t.wp.pin = none := (unpin_unpinned _).ok ht
  refine .bind_ok ht ?_
  rw [runs_get_bind]
  split
  · exact hpin
  · exact hpin

theorem rollback_unpinned
    : Runs rollback s (fun _ t => t.wp.pin = none) (fun _ _ => False) := by
  exact releaseLocks_unpinned _

end

theorem lock_locksPin (target : LockLevel) : Maintains LocksPin (lock target) := by
  refine .get_bind fun s hs => ?_
  exact runs_lift_bind.mpr ⟨fun r hr => hs, fun _ _ => hs⟩

theorem ensureShared_locksPin : Maintains LocksPin ensureShared := by
  refine .get_bind fun s hs => ?_
  split
  · refine (lock_locksPin _).bind (fun _ => ?_) s hs
    exact .modify fun _ _ _ => le_refl _
  · exact hs

theorem ensureShared_shared : Ensures (fun s => shared ≤ s.wp.held) ensureShared := by
  intro s
  unfold ensureShared
  rw [runs_get_bind]
  split
  · refine Ensures.bind (fun _ => ?_) s
    exact fun t => le_refl shared
  · rename_i hheld
    exact not_lt.mp hheld

theorem beginReadTxn_locksPin : Maintains LocksPin beginReadTxn := by
  intro s hs
  refine ((ensureShared_locksPin s hs).and (ensureShared_shared s)).bind (fun _ t ht => ?_)
    (fun _ _ ht => ht.1)
  have hshared : shared ≤ t.wp.held := ht.2
  rw [runs_bind]
  unfold pinSnapshot
  rw [runs_get_bind]
  split
  · exact fun _ => hshared
  · exact fun _ => hshared

theorem WritePager.registeredMark_none {wp : WritePager} {w : WalRuntime} (hpin : wp.pin = none)
    (hwal : wp.wal = some w) : w.registeredMark = none := by
  cases hmark : w.registeredMark with
  | none => rfl
  | some mark =>
    rw [pin_some hwal hmark] at hpin
    cases hpin

/-- Refreshing the state of an unpinned connection does not pin it. -/
theorem refreshForeignState_unpinned
    : Maintains (fun s => s.wp.pin = none) refreshForeignState :=
  refreshForeignState_maintains (fun _ _ _ _ hmark => pin_none rfl hmark)
    (fun _ _ hs _ => hs) fun _ => .modify fun _ => id

theorem refreshForeignState_locksPin : Maintains LocksPin refreshForeignState := by
  intro s hs
  by_cases hpin : s.wp.pin = none
  · exact (refreshForeignState_unpinned s hpin).mono (fun _ t ht h => absurd ht h)
      (fun _ t ht h => absurd ht h)
  · obtain ⟨pin, hsome⟩ := ne_none_iff_exists'.mp hpin
    exact (refreshForeignState_pinned s ⟨hsome, hs hpin⟩).mono (fun _ t ht _ => ht.shared)
      (fun _ t ht _ => ht.shared)

theorem acquireWriteIntent_locksPin : Maintains LocksPin acquireWriteIntent := by
  refine acquireWriteIntent_maintains ensureShared_locksPin (lock_locksPin _) (fun _ _ _ => ?_)
    refreshForeignState_locksPin fun _ _ _ s _ => ?_
  · show shared ≤ reserved
    decide
  · exact (releaseLocks_unpinned s).mono (fun _ t ht h => absurd ht h) (fun _ _ => False.elim)

theorem revalidateReadCache_locksPin {s : PagerState} (hs : LocksPin s) (hwal : s.wp.wal ≠ none)
    : Ends revalidateReadCache s LocksPin := by
  obtain ⟨w, hw⟩ := ne_none_iff_exists'.mp hwal
  unfold revalidateReadCache
  rw [Ends, runs_get_bind, hw]
  dsimp only
  split
  · rename_i hfree
    intro hpin
    let w' : WalRuntime := { w with
      snapshot := s.vfs.index.snapshot
      dbSize := s.snapshotSize s.vfs.index.snapshot }
    exact absurd (pin_none (w := w') (congrArg (Option.map _) hw) hfree.2) hpin
  · exact hs

end LocksPin

end GraphiteSql
