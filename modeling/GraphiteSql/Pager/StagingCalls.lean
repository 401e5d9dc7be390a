import GraphiteSql.Pager.Savepoints
import GraphiteSql.Pager.LockRules
import GraphiteSql.Pager.World

/-! The calls that stage changes, and the invariants that do not depend on what is staged. -/

namespace GraphiteSql

open Lib
open Std (TreeMap)

/-- `inv` does not speak about what is staged. -/
structure IgnoresStaging (inv : PagerState → Prop) : Prop where
  acquire : Maintains inv acquireWriteIntent
  restage : ∀ {s : PagerState} (header : DatabaseHeader) (overlay : Overlay) (pageCount : UInt32)
    (savepoints : List Savepoint), inv s
    → inv { s with wp := { s.wp with header, overlay, pageCount, savepoints } }

section Staging

variable {inv : PagerState → Prop} (keeps : IgnoresStaging inv)

include keeps

/-- Any page may be staged. -/
theorem IgnoresStaging.rules : StagingRules (fun _ => True) inv where
  acquire := keeps.acquire
  pageSize := fun _ => trivial
  insert := fun {s _ _ _} hs _ _ => keeps.restage _ _ _ s.wp.savepoints hs
  withHeader := fun {s _} hs _ => keeps.restage _ _ _ s.wp.savepoints hs

theorem unstage_ignored (n : UInt32) : Maintains inv (unstage n) :=
  Maintains.modify fun s hs => keeps.restage _ _ _ s.wp.savepoints hs

theorem extendFile_ignored (room : Nat) : Maintains inv (extendFile room) := by
  induction room with
  | zero => exact .throw _
  | succ room ih =>
    refine .get_bind fun s hs => ?_
    refine Maintains.bind (Maintains.modify fun s hs => ?_) (fun _ => ?_) s hs
    · exact keeps.restage _ _ _ s.wp.savepoints hs
    · split
      · exact ih
      · exact .pure _

theorem allocatePage_ignored : Maintains inv allocatePage := by
  refine keeps.acquire.bind fun _ => .get_bind fun s hs => ?_
  split
  · exact allocFromFreelist_keeps keeps.rules s hs
  · exact extendFile_ignored keeps _ s hs

theorem pageOp_ignored (op : PageOp) : Maintains inv op.run := by
  cases op with
  | write number bytes => exact writePage_keeps keeps.rules number bytes
  | allocate => exact (allocatePage_ignored keeps).bind fun _ => .pure _
  | free page => exact freePage_keeps keeps.rules page

theorem headerMut_ignored (change : DatabaseHeader → DatabaseHeader)
    : Maintains inv (headerMut change) := by
  refine .bind (Maintains.get_bind fun s hs => ?_) fun _ => ?_
  · split
    · exact hs
    · cases s.readPage 1 with
      | ok page => exact keeps.restage _ _ _ s.wp.savepoints hs
      | error e => exact hs
  · exact .modify fun s hs => keeps.restage _ _ _ s.wp.savepoints hs

theorem savepoint_ignored (name : String) : Maintains inv (savepoint name) :=
  Maintains.modify fun s hs => keeps.restage s.wp.header s.wp.overlay s.wp.pageCount _ hs

theorem releaseSavepoint_ignored (name : String) : Maintains inv (releaseSavepoint name) := by
  refine .get_bind fun s hs => ?_
  cases s.wp.findSavepoint name with
  | some idx => exact keeps.restage s.wp.header s.wp.overlay s.wp.pageCount _ hs
  | none => exact hs

theorem rollbackToSavepoint_ignored (name : String) : Maintains inv (rollbackToSavepoint name) := by
  refine .get_bind fun s hs => ?_
  dsimp only
  cases s.wp.findSavepoint name with
  | none => exact hs
  | some idx =>
    dsimp only
    cases s.wp.savepoints[idx]? with
    | none => exact hs
    | some snap => exact keeps.restage snap.header snap.overlay snap.pageCount _ hs

theorem relocateTail_ignored (want : WantMap) (limit start last : Nat) (free : Std.TreeSet UInt32)
    (moved : TreeMap UInt32 UInt32)
    : Maintains inv (relocateTail want limit start last free moved) := by
  fun_induction relocateTail want limit start last free moved with
  | case1 free moved => exact .pure _
  | case2 free moved => exact .pure _
  | case3 last free moved ih1 ih2 ih3 =>
    refine .get_bind fun s hs => ?_
    dsimp only at ih2 ih3 ⊢
    split
    · exact hs
    split
    · exact (unstage_ignored keeps _).bind (fun _ => ih1) s hs
    split
    · exact hs
    split
    · exact (unstage_ignored keeps _).bind (fun _ => ih2) s hs
    split
    · exact hs
    rename_i dest _
    refine (maintains_lift _).bind (fun entry => ?_) s hs
    split
    · exact .pure _
    refine (readPage_maintains _).bind fun contents => ?_
    refine (stage_keeps keeps.rules trivial).bind fun _ => ?_
    refine (unstage_ignored keeps _).bind fun _ => ?_
    exact (fixReference_keeps keeps.rules (fun _ _ => trivial) _ _ _ _).bind fun _ => ih3 dest

theorem autovacuumTruncate_ignored (limit : Nat) : Maintains inv (autovacuumTruncate limit) := by
  refine .get_bind fun s hs => ?_
  refine (maintains_lift _).bind (fun want => ?_) s hs
  refine (maintains_lift _).bind fun probe => ?_
  dsimp only
  split
  · exact .pure _
  refine .bind (Maintains.modify fun s hs => ?_) fun _ => ?_
  · exact keeps.restage _ _ _ s.wp.savepoints hs
  refine (relocateTail_ignored keeps _ _ _ _ _ _).bind fun r => ?_
  refine (Maintains.forM fun pg _ => freePage_keeps keeps.rules pg).bind fun _ => ?_
  exact .modify fun s hs => keeps.restage _ _ _ s.wp.savepoints hs

theorem incrementalVacuum_ignored (n : Int64) : Maintains inv (incrementalVacuum n) := by
  intro s hs
  unfold Runs incrementalVacuum
  split_ifs with hmode
  · exact hs
  have hrun := autovacuumTruncate_ignored keeps (vacuumLimit n) s hs
  cases htrunc : autovacuumTruncate (vacuumLimit n) s with
  | ok u t => exact hrun.ok htrunc
  | error e t =>
    have ht : inv t := hrun.error htrunc
    dsimp only
    split_ifs with hreturned
    · exact keeps.restage s.wp.header s.wp.overlay s.wp.pageCount t.wp.savepoints ht
    · exact ht

theorem maybeAutovacuumTruncate_ignored : Maintains inv maybeAutovacuumTruncate := by
  intro s hs
  unfold Runs maybeAutovacuumTruncate
  split_ifs with hmode
  · exact hs
  have hrun := autovacuumTruncate_ignored keeps 0 s hs
  cases htrunc : autovacuumTruncate 0 s with
  | ok u t => exact hrun.ok htrunc
  | error e t =>
    have ht : inv t := hrun.error htrunc
    dsimp only
    split_ifs with hreturned
    · exact keeps.restage s.wp.header s.wp.overlay s.wp.pageCount t.wp.savepoints ht
    · exact ht

theorem vacuumForCommit_ignored : Maintains inv vacuumForCommit := by
  refine .get_bind fun s hs => ?_
  split
  · refine (maybeAutovacuumTruncate_ignored keeps).bind (fun _ => ?_) s hs
    exact rebuildPtrmap_keeps keeps.rules fun _ _ => trivial
  · exact hs

end Staging

section PageCount

variable {s : PagerState} (positive : 1 ≤ s.wp.pageCount.toNat)

include positive

theorem autovacuumTruncate_positive (limit : Nat)
    : Runs (autovacuumTruncate limit) s (fun _ t => 1 ≤ t.wp.pageCount.toNat)
      (fun _ _ => True) := by
  refine runs_lift_bind.mpr ⟨fun want _ => ?_, fun _ _ => trivial⟩
  refine runs_lift_bind.mpr ⟨fun probe _ => ?_, fun _ _ => trivial⟩
  dsimp only
  split
  · exact positive
  rw [runs_bind, modifyWp, runs_modify]
  refine (relocateTail_last _ _ _ _ _ _ _).bind (fun r u hr => ?_) (fun _ _ _ => trivial)
  obtain ⟨hlow, hhigh⟩ := hr positive
  refine (Ensures.bind fun _ => .modify fun t => ?_ : Ensures _ _) u
  have hlt := s.wp.pageCount.toNat_lt
  rw [UInt32.toNat_ofNat', Nat.mod_eq_of_lt (by omega)]
  exact hlow

theorem maybeAutovacuumTruncate_positive
    : Runs maybeAutovacuumTruncate s (fun _ t => 1 ≤ t.wp.pageCount.toNat) (fun _ _ => True) := by
  unfold Runs maybeAutovacuumTruncate
  split_ifs with hmode
  · exact positive
  have hrun := autovacuumTruncate_positive positive 0
  cases htrunc : autovacuumTruncate 0 s with
  | ok u t => exact hrun.ok htrunc
  | error e t =>
    dsimp only
    split_ifs with hreturned
    · exact positive
    · trivial

theorem vacuumForCommit_positive
    : Runs vacuumForCommit s (fun _ t => 1 ≤ t.wp.pageCount.toNat) (fun _ _ => True) := by
  unfold vacuumForCommit
  rw [runs_get_bind]
  split
  · refine (maybeAutovacuumTruncate_positive positive).seq fun _ t ht => ?_
    refine (rebuildPtrmap_stages t).mono (fun _ u hu => ?_) (fun _ _ _ => trivial)
    rw [hu.1]
    exact ht
  · exact positive

end PageCount

end GraphiteSql
