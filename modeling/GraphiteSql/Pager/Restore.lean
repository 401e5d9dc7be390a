import GraphiteSql.Pager.WalPins
import Mathlib.Data.List.Perm.Subperm

/-! What a transaction leaves alone before it commits: the files, the log, and what its pager knows
of the last commit.
-/

namespace GraphiteSql

open Lib List Option WritePager
open Std (TreeMap)

/-- Where a connection reads the log: its snapshot, and the size of the database there. -/
def WalRuntime.view (w : WalRuntime) : WalSnapshot × UInt32 :=
  (w.snapshot, w.dbSize)

def WritePager.committedPages (wp : WritePager) : UInt32 :=
  match wp.wal with
  | some w => w.dbSize
  | none => wp.diskPages

/-- The pager of `c` has nothing staged, and no other connection has committed since its last
commit: what it would refresh from the file or the log is what it has.
-/
structure AtCommit (c : PagerState) : Prop where
  header : c.wp.header = c.wp.committedHeader
  pages : c.wp.pageCount = c.wp.committedPages
  clean : c.wp.overlay.isEmpty = true
  counter : c.wp.wal = none → ∀ counter, c.diskChangeCounter = some counter
    → counter = c.wp.committedHeader.changeCounter
  filePages : c.wp.wal = none → ∀ n, c.mainFilePageCount = some n → n = c.wp.diskPages
  newest : ∀ w, c.wp.wal = some w → w.snapshot = c.vfs.index.snapshot
  size : ∀ w, c.wp.wal = some w → c.vfs.index.snapshotDbSize c.vfs.index.mxFrame = some w.dbSize
  page1 : c.wp.wal ≠ none → ∀ page hdr, c.readPage 1 = .ok page
    → DatabaseHeader.parse page = .ok hdr
    → hdr.changeCounter = c.wp.committedHeader.changeCounter

/-- A pager right after a commit, or after it was opened. -/
structure CommitPoint (c : PagerState) : Prop extends AtCommit c where
  unlocked : c.wp.held = .unlocked
  level : c.wp.level = .unlocked
  unpinned : c.wp.pin = none

/-- A rollback of `t` goes back to `c`: the files, the log and what the pager knows of the last
commit are the same. In WAL mode the size of the main file is refreshed without being used. The
reader mark of a connection that had none is registered.
-/
structure Restorable (c t : PagerState) : Prop where
  db : t.vfs.disk.db = c.vfs.disk.db
  index : t.vfs.index = { c.vfs.index with readers := t.vfs.index.readers }
  pageSize : t.wp.pageSize = c.wp.pageSize
  committedHeader : t.wp.committedHeader = c.wp.committedHeader
  wal : t.wp.wal.map WalRuntime.view = c.wp.wal.map WalRuntime.view
  diskPages : t.wp.wal = none → t.wp.diskPages = c.wp.diskPages
  marks : c.wp.pin = none → t.wp.marks.Subperm t.vfs.index.readers

section Restorable

variable {c s t : PagerState}

theorem Restorable.refl (c : PagerState) : Restorable c c where
  db := rfl
  index := rfl
  pageSize := rfl
  committedHeader := rfl
  wal := rfl
  diskPages := fun _ => rfl
  marks := fun h => by
    rw [marks_none h]
    exact nil_subperm

/-- What `Restorable` depends on. -/
theorem Restorable.congr (h : Restorable c s) (hvfs : t.vfs.disk.db = s.vfs.disk.db)
    (hindex : t.vfs.index = s.vfs.index) (hps : t.wp.pageSize = s.wp.pageSize)
    (hheader : t.wp.committedHeader = s.wp.committedHeader) (hwal : t.wp.wal = s.wp.wal)
    (hdisk : t.wp.diskPages = s.wp.diskPages) : Restorable c t where
  db := hvfs.trans h.db
  index := by rw [hindex]; exact h.index
  pageSize := hps.trans h.pageSize
  committedHeader := hheader.trans h.committedHeader
  wal := by rw [hwal]; exact h.wal
  diskPages := fun hmode => by rw [hdisk]; exact h.diskPages (hwal ▸ hmode)
  marks := fun hpin => by
    have hmarks : t.wp.marks = s.wp.marks := by
      rw [WritePager.marks, WritePager.pin, hwal, WritePager.marks, WritePager.pin]
    rw [hmarks, hindex]
    exact h.marks hpin

theorem Restorable.relocked (h : Restorable c s) (hrel : Relocked s t) : Restorable c t :=
  h.congr (by rw [hrel.disk]) hrel.index hrel.pageSize (by rw [hrel]; rfl) hrel.wal hrel.diskPages

section

variable (h : Restorable c t)

include h

/-- The two pagers are in the same journal mode. -/
theorem Restorable.wal_none : t.wp.wal = none ↔ c.wp.wal = none := by
  rw [← map_eq_none_iff (f := WalRuntime.view), h.wal, map_eq_none_iff]

theorem Restorable.wal_some {w : WalRuntime} (hwal : t.wp.wal = some w)
    : ∃ v, c.wp.wal = some v ∧ v.snapshot = w.snapshot ∧ v.dbSize = w.dbSize := by
  have hview := h.wal
  rw [hwal] at hview
  obtain ⟨v, hv, heq⟩ := map_eq_some_iff.mp hview.symm
  exact ⟨v, hv, congrArg Prod.fst heq, congrArg Prod.snd heq⟩

/-- Pages that neither of them stages read the same. -/
theorem Restorable.readPage {n : UInt32} (hc : c.wp.overlay[n]? = none)
    (ht : t.wp.overlay[n]? = none) : t.readPage n = c.readPage n := by
  have hdisk : t.readDisk n = c.readDisk n := by
    unfold PagerState.readDisk
    rw [h.db, h.pageSize]
  unfold PagerState.readPage
  rw [hc, ht]
  cases hwal : t.wp.wal with
  | none =>
    rw [h.wal_none.mp hwal, h.diskPages hwal, hdisk]
  | some w =>
    obtain ⟨v, hv, hsnap, hsize⟩ := h.wal_some hwal
    have hfind : t.vfs.index.findFrame n w.snapshot.mxFrame
        = c.vfs.index.findFrame n w.snapshot.mxFrame := by
      rw [h.index]
      rfl
    rw [hv, hdisk]
    dsimp only
    rw [hfind, hsnap, hsize]

theorem Restorable.mainFilePageCount
    : t.mainFilePageCount = c.mainFilePageCount := by
  unfold PagerState.mainFilePageCount
  rw [h.db, h.pageSize]

theorem Restorable.diskChangeCounter (hwal : t.wp.wal = none)
    : t.diskChangeCounter = c.diskChangeCounter := by
  unfold PagerState.diskChangeCounter
  rw [h.diskPages hwal, h.db]

end

theorem Restorable.current (base : AtCommit c) (h : Restorable c t) {w : WalRuntime}
    (hwal : t.wp.wal = some w)
    : t.vfs.index.snapshot = w.snapshot ∧ t.snapshotSize t.vfs.index.snapshot = w.dbSize := by
  obtain ⟨v, hv, hsnap, hsize⟩ := h.wal_some hwal
  have hindex : t.vfs.index.snapshot = c.vfs.index.snapshot := by
    rw [h.index]
    rfl
  have hdb : t.vfs.index.snapshotDbSize c.vfs.index.mxFrame = some v.dbSize := by
    rw [h.index]
    exact base.size v hv
  refine ⟨by rw [hindex, ← base.newest v hv, hsnap], ?_⟩
  rw [hindex]
  show ((t.vfs.index.snapshotDbSize c.vfs.index.mxFrame).or t.mainFilePageCount).getD _ = _
  rw [hdb, hsize]
  rfl

end Restorable

-- Locks and read transactions

theorem unregisterReader_eq (ix : WalIndex) (m : Nat)
    : ix.unregisterReader m = { ix with readers := (ix.unregisterReader m).readers } := by
  unfold WalIndex.unregisterReader
  split <;> rfl

section Locks

variable {c : PagerState}

theorem maintains_restorable_of_relocked {α : Type} {x : PagerM α}
    (hx : ∀ s, Maintains (Relocked s) x) : Maintains (Restorable c) x := fun s hs =>
  (hx s s (Relocked.refl s)).imp fun _ ht => hs.relocked ht

/-- Unpinning removes the mark of this connection and no other. -/
theorem unpin_marks {s : PagerState} (hs : Restorable c s)
    : Runs unpin s
      (fun _ t => Restorable c t
        ∧ (c.wp.pin = none → s.vfs.index.readers.Perm (s.wp.marks ++ t.vfs.index.readers)))
      (fun _ _ => False) := by
  unfold unpin
  rw [runs_get_bind]
  cases hwal : s.wp.wal with
  | none =>
    have hmarks : s.wp.marks = [] := marks_none (congrArg (Option.bind · _) hwal)
    exact ⟨hs, fun _ => by rw [hmarks]; exact .rfl⟩
  | some w =>
    rw [bind_some]
    have hmarks := marks_eq hwal
    cases hmark : w.registeredMark with
    | none =>
      rw [hmark] at hmarks
      exact ⟨hs, fun _ => by rw [hmarks]; exact .rfl⟩
    | some m =>
      rw [hmark] at hmarks
      rw [runs_bind, withIndex, runs_modify]
      have hpin : ({ s.wp with wal := s.wp.wal.map fun w => { w with registeredMark := none } }
          : WritePager).pin = none := pin_none (by rw [hwal]; rfl) rfl
      refine ⟨?_, fun hunpinned => ?_⟩
      · exact {
          db := hs.db
          index := by
            rw [unregisterReader_eq, hs.index]
          pageSize := hs.pageSize
          committedHeader := hs.committedHeader
          wal := by
            rw [← hs.wal]
            exact map_map _ _ _
          diskPages := fun hmode => hs.diskPages (map_eq_none_iff.mp hmode)
          marks := fun _ => by
            rw [marks_none hpin]
            exact nil_subperm }
      · have hsub := hs.marks hunpinned
        rw [hmarks] at hsub
        have hperm : s.vfs.index.readers.Perm (m :: s.vfs.index.readers.erase m) :=
          perm_cons_erase (hsub.subset (mem_singleton_self m))
        rw [hmarks]
        exact hperm.trans ((unregisterReader_perm hperm).symm.cons m)

theorem unpin_restorable : Maintains (Restorable c) unpin := fun _ hs =>
  (unpin_marks hs).mono (fun _ _ ht => ht.1) (fun _ _ => False.elim)

theorem endTxn_restorable
    : Maintains (Restorable c) releaseLocks ∧ Maintains (Restorable c) endReadTxn :=
  endTxn_maintains (fun _ hs => hs.congr rfl rfl rfl rfl rfl rfl) unpin_restorable
    (maintains_restorable_of_relocked fun _ => dropLock_relocked)

theorem beginAutocommitRead_restorable : Maintains (Restorable c) beginAutocommitRead := by
  refine .get_bind fun s hs => ?_
  dsimp only
  split
  · exact hs
  · refine (maintains_restorable_of_relocked fun _ => lock_relocked _).bind (fun _ => ?_) s hs
    refine .bind (Maintains.modify fun s hs => ?_) fun _ => .pure _
    exact hs.congr rfl rfl rfl rfl rfl rfl

theorem endAutocommitRead_restorable : Maintains (Restorable c) endAutocommitRead := by
  refine .get_bind fun s hs => ?_
  split
  · exact hs
  refine Maintains.bind (Maintains.modify fun s hs => ?_) (fun _ => ?_) s hs
  · exact hs.congr rfl rfl rfl rfl rfl rfl
  refine .get_bind fun t ht => ?_
  split
  · exact (maintains_restorable_of_relocked fun _ => unlock_relocked _).bind
      (fun _ => maintains_restorable_of_relocked fun _ => setHeld_relocked _) t ht
  · exact ht

variable (base : AtCommit c)

include base

/-- Moving to the newest commit of the log is no move. -/
theorem Restorable.advance {s t : PagerState} (hs : Restorable c s) {w : WalRuntime}
    (hwal : s.wp.wal = some w) (hdb : t.vfs.disk.db = s.vfs.disk.db)
    (hindex : t.vfs.index = { s.vfs.index with readers := t.vfs.index.readers })
    (hps : t.wp.pageSize = s.wp.pageSize)
    (hheader : t.wp.committedHeader = s.wp.committedHeader) {mark : Option Nat} {salt : Salt}
    (hwal' : t.wp.wal = some {
      snapshot := s.vfs.index.snapshot
      registeredMark := mark
      dbSize := s.snapshotSize s.vfs.index.snapshot
      salt })
    (hmarks : c.wp.pin = none → mark.toList.Subperm t.vfs.index.readers) : Restorable c t where
  db := hdb.trans hs.db
  index := by rw [hindex, hs.index]
  pageSize := hps.trans hs.pageSize
  committedHeader := hheader.trans hs.committedHeader
  wal := by
    obtain ⟨hsnap, hsize⟩ := hs.current base hwal
    rw [← hs.wal, hwal', hwal, hsnap, ← hsnap, hsize, hsnap]
    rfl
  diskPages := fun hmode => by
    rw [hwal'] at hmode
    cases hmode
  marks := by
    rw [marks_eq hwal']
    exact hmarks

theorem pinSnapshot_restorable : Maintains (Restorable c) pinSnapshot := by
  refine .get_bind fun s hs => ?_
  split
  · rename_i hmark
    obtain ⟨w, hwal, -⟩ := map_eq_some_iff.mp hmark
    refine hs.advance base hwal rfl rfl rfl rfl (congrArg (Option.map _) hwal) fun _ => ?_
    refine singleton_subperm_iff.mpr ?_
    exact mem_append_right _ (mem_singleton_self _)
  · exact hs

theorem beginReadTxn_restorable : Maintains (Restorable c) beginReadTxn := by
  refine (maintains_restorable_of_relocked fun _ => ensureShared_relocked).bind fun _ => ?_
  refine (pinSnapshot_restorable base).bind fun _ => .modify fun s hs => ?_
  exact hs.congr rfl rfl rfl rfl rfl rfl

theorem revalidateReadCache_restorable : Maintains (Restorable c) revalidateReadCache := by
  refine .get_bind fun s hs => ?_
  cases hwal : s.wp.wal with
  | some w =>
    dsimp only
    split
    · refine hs.advance base hwal rfl rfl rfl rfl (congrArg (Option.map _) hwal) ?_
      rw [← marks_eq hwal]
      exact hs.marks
    · exact hs
  | none =>
    dsimp only
    split
    · exact hs
    cases s.diskChangeCounter with
    | none => exact hs.congr rfl rfl rfl rfl rfl rfl
    | some current =>
      dsimp only
      split
      · exact hs
      refine hs.congr rfl rfl rfl rfl rfl ?_
      -- The size of the file is the one of the last commit.
      rw [hs.mainFilePageCount]
      cases hpages : c.mainFilePageCount with
      | none => rfl
      | some n => rw [hs.diskPages hwal, base.filePages (hs.wal_none.mp hwal) n hpages]; rfl

/-- There is nothing to refresh as long as no other connection commits. -/
theorem refreshForeignState_restorable : Maintains (Restorable c) refreshForeignState := by
  refine .get_bind fun s hs => ?_
  split
  · exact hs
  rename_i hidle
  simp only [Bool.or_eq_true, Bool.not_eq_true', decide_eq_true_eq, not_or, not_not,
    Bool.not_eq_false] at hidle
  obtain ⟨hclean, hheader⟩ := hidle
  cases hwal : s.wp.wal with
  | some w =>
    dsimp only
    split
    · exact hs
    rw [runs_bind, modifyWp, runs_modify, runs_bind, readPage_runs]
    let moved : PagerState := { s with wp := { s.wp with
      wal := some { w with
        snapshot := s.vfs.index.snapshot
        dbSize := s.snapshotSize s.vfs.index.snapshot }
      diskPages := s.mainFilePageCount.getD s.wp.diskPages
      pageCount := s.snapshotSize s.vfs.index.snapshot } }
    have hmoved : Restorable c moved := by
      refine hs.advance base hwal rfl rfl rfl rfl rfl ?_
      rw [← marks_eq hwal]
      exact hs.marks
    refine ⟨fun page hpage => ?_, fun _ _ => hmoved⟩
    refine runs_lift_bind.mpr ⟨fun hdr hparse => ?_, fun _ _ => hmoved⟩
    have hpage' : c.readPage 1 = .ok page := by
      rw [← hmoved.readPage (TreeMap.getElem?_of_isEmpty base.clean)
        (TreeMap.getElem?_of_isEmpty hclean)]
      exact hpage
    have hsame := base.page1
        (by rw [Ne, ← hs.wal_none, hwal]; exact Option.some_ne_none w) page hdr hpage' hparse
    rw [if_neg (not_not.mpr (by rw [hsame, hheader, hs.committedHeader]))]
    exact hmoved
  | none =>
    have hmode := hs.wal_none.mp hwal
    rw [hs.diskChangeCounter hwal]
    cases hc : c.diskChangeCounter with
    | none => exact hs
    | some current =>
      dsimp only
      rw [if_pos (by rw [base.counter hmode current hc, hheader, hs.committedHeader])]
      exact hs

theorem acquireWriteIntent_restorable : Maintains (Restorable c) acquireWriteIntent :=
  acquireWriteIntent_maintains (maintains_restorable_of_relocked fun _ => ensureShared_relocked)
    (maintains_restorable_of_relocked fun _ => lock_relocked _)
    (fun _ hs => hs.congr rfl rfl rfl rfl rfl rfl) (refreshForeignState_restorable base)
    fun _ _ _ => endTxn_restorable.1

end Locks

end GraphiteSql
