import GraphiteSql.Pager.WalPins

/-! The lock of the file handle: every call of a pager leaves it at the level that the pager
believes to hold.
-/

namespace GraphiteSql

open Lib LockLevel

def PagerState.InStep (s : PagerState) : Prop :=
  s.wp.level = s.wp.held

section InStep

/-- A granted lock raises the handle to its level. -/
theorem lock_level (target : LockLevel) {s : PagerState} (hs : s.InStep)
    (hheld : s.wp.held < target)
    : Runs (lock target) s (fun _ t => t.wp.level = target) (fun _ => PagerState.InStep) := by
  refine runs_lift_bind.mpr ⟨fun r hr => ?_, fun _ _ => hs⟩
  obtain ⟨locks, -, rfl⟩ := Vfs.lock_ok hr
  have hlevel : s.wp.level < target := by
    rw [hs]
    exact hheld
  exact if_pos hlevel

/-- Dropping the lock lowers the handle all the way. -/
theorem dropLock_inStep (s : PagerState)
    : Ends dropLock s PagerState.InStep := by
  show (if unlocked < s.wp.level then unlocked else s.wp.level) = .unlocked
  cases s.wp.level <;> rfl

theorem ensureShared_inStep : Maintains PagerState.InStep ensureShared := by
  refine .get_bind fun s hs => ?_
  split
  · rename_i hheld
    exact (lock_level _ hs hheld).seq fun _ t ht => ht
  · exact hs

theorem unpin_inStep : Maintains PagerState.InStep unpin := by
  refine .get_bind fun s hs => ?_
  split <;> exact hs

theorem endTxn_inStep
    : Maintains PagerState.InStep releaseLocks ∧ Maintains PagerState.InStep endReadTxn :=
  endTxn_maintains (fun _ => id) unpin_inStep fun s _ => dropLock_inStep s

theorem beginReadTxn_inStep : Maintains PagerState.InStep beginReadTxn := by
  refine ensureShared_inStep.bind fun _ => .bind ?_ fun _ => ?_
  · refine .get_bind fun s hs => ?_
    split <;> exact hs
  · exact .modify fun _ hs => hs

theorem revalidateReadCache_inStep : Maintains PagerState.InStep revalidateReadCache := by
  refine .get_bind fun s hs => ?_
  cases s.wp.wal with
  | some w =>
    dsimp only
    split <;> exact hs
  | none =>
    dsimp only
    split
    · exact hs
    cases s.diskChangeCounter with
    | none => exact hs
    | some current =>
      dsimp only
      split <;> exact hs

theorem beginAutocommitRead_inStep : Maintains PagerState.InStep beginAutocommitRead := by
  refine .get_bind fun s hs => ?_
  dsimp only
  split
  · exact hs
  rename_i hheld
  simp only [not_or, not_le] at hheld
  exact (lock_level _ hs hheld.2.2).seq fun _ t ht => ht

theorem endAutocommitRead_inStep : Maintains PagerState.InStep endAutocommitRead := by
  refine .get_bind fun s hs => ?_
  split
  · exact hs
  rw [runs_bind, modifyWp, runs_modify, runs_get_bind]
  split
  · exact dropLock_inStep { s with wp := { s.wp with transientRead := false } }
  · exact hs

theorem acquireWriteIntent_inStep : Maintains PagerState.InStep acquireWriteIntent := by
  have hundo : ∀ entry : LockLevel, Maintains PagerState.InStep
      (if entry = .unlocked then releaseLocks else pure ()) := by
    intro entry
    split
    · exact endTxn_inStep.1
    · exact .pure _
  have hrefresh : Maintains PagerState.InStep refreshForeignState := by
    intro s hs
    have hkeeps : ∀ t : PagerState, t.wp.held = s.wp.held → t.wp.level = s.wp.level → t.InStep :=
      fun t hheld hlevel => by
        rw [PagerState.InStep, hheld, hlevel]
        exact hs
    exact (refreshForeignState_frame s s ⟨rfl, rfl, rfl, rfl⟩).imp fun t ht =>
      hkeeps t ht.2.1 ht.2.2.1
  refine .get_bind fun s hs => ?_
  refine ensureShared_inStep.bind (fun _ => ?_) s hs
  refine .get_bind fun t ht => ?_
  split
  · rename_i hheld
    rw [runs_bind]
    refine runs_onError ((lock_level _ ht hheld).mono (fun _ u hu => ?_) (fun _ _ => id))
      fun _ u hu => hundo _ u hu
    exact maintains_onError hrefresh (hundo _) _ hu
  · exact ht

end InStep

end GraphiteSql
