import GraphiteSql.Pager.Atomicity

/-! Commits whose commit-time truncation shrinks the main file. The journal is built from the
staged pages, and the truncation unstages the pages it drops.
-/

namespace GraphiteSql

open Lib Ptrmap List Nat UInt32
open Std (TreeMap TreeSet)

theorem Reopens.unique {d : Disk} {db db' : Bytes} (h : Reopens d db) (h' : Reopens d db')
    : db = db' := by
  obtain ⟨o, hrun, rfl⟩ := h
  obtain ⟨o', hrun', rfl⟩ := h'
  rw [hrun] at hrun'
  cases hrun'
  rfl

-- The pages that a commit drops

/-- The pager without its transaction. -/
def PagerState.committedView (s : PagerState) : PagerState :=
  s.restage s.wp.committedHeader ∅ s.wp.diskPages

/-- Page `n` was on the freelist before the transaction. -/
def PagerState.CommittedFree (s : PagerState) (n : UInt32) : Prop :=
  ∃ free, s.committedView.freelistPtrmap ∅ = .ok free ∧ n ∈ free

def PagerState.committedPage (s : PagerState) (n : UInt32) : Option Bytes :=
  slice s.vfs.disk.db ((n.toNat - 1) * s.wp.pageSize) s.wp.pageSize

/-- `n` is a page of the file that the commit of `p` cuts off. -/
def Dropped (s p : PagerState) (n : UInt32) : Prop :=
  p.wp.pageCount < n ∧ n ≤ s.wp.diskPages

section Dropped

variable {s p : PagerState} {originals : List (UInt32 × Bytes)} (hs : RollbackReady s)
  (hp : Prepared s p) (horig : p.originals = .ok originals)

def truncationOps (p : PagerState) (originals : List (UInt32 × Bytes)) : List FileOp :=
  fillOps p originals ++ publishOps originals ++ pageOps p.wp.pageSize p.wp.overlay.toList
    ++ [.truncate .db (p.wp.pageCount.toNat * p.wp.pageSize)]

theorem commitOps_eq
    : commitOps p originals = truncationOps p originals ++ (.sync .db :: clearOps) := by
  simp [commitOps, truncationOps, flushOps]

/-- The main file right after its truncation, and after the whole commit. -/
theorem run_truncationOps_length (d : Disk)
    : (d.run (truncationOps p originals)).db.length = p.wp.pageCount.toNat * p.wp.pageSize := by
  rw [truncationOps, Disk.run_append]
  exact resize_length

theorem run_commitOps_length (d : Disk)
    : (d.run (commitOps p originals)).db.length = p.wp.pageCount.toNat * p.wp.pageSize := by
  rw [commitOps_eq, Disk.run_append]
  exact run_truncationOps_length d

include hs hp horig

theorem run_truncationOps_journal
    : (s.vfs.disk.run (truncationOps p originals)).journal = (p.journalImage originals).hot := by
  have hsplit : truncationOps p originals
      = (fillOps p originals ++ [.writeAllAt .journal (u32ToBytes (.ofNat originals.length)) 8])
        ++ (.sync .journal :: pageOps p.wp.pageSize p.wp.overlay.toList)
        ++ [.truncate .db (p.wp.pageCount.toNat * p.wp.pageSize)] := by
    simp [truncationOps, publishOps]
  rw [hsplit, Disk.run_append, Disk.run_append, run_fill_count hs hp horig]
  show (Disk.run _ (pageOps _ _)).journal = _
  rw [run_pageOps]
  rfl

theorem reopens_truncated (hpos : 1 ≤ p.wp.pageCount.toNat)
    : Reopens (s.vfs.disk.run (truncationOps p originals))
      ((s.vfs.disk.run (truncationOps p originals)).run (p.journalImage originals).undoOps).db := by
  refine JournalImage.reopens_hot (journalImage_valid hs hp horig)
    (journalImage_nonempty hs hp horig) (run_truncationOps_journal hs hp horig) ?_
  rw [run_truncationOps_length, hp.pageSize]
  exact ne_of_gt (Nat.mul_pos hpos hs.pageSize_pos)

/-- A shrinking commit is crash-atomic only when it cuts off nothing but zeros. -/
theorem blankTail_of_crashAtomic (hpos : 1 ≤ p.wp.pageCount.toNat)
    (hshrink : p.wp.pageCount < s.wp.diskPages)
    (hatomic : CrashAtomic s.vfs.disk (commitOps p originals)) : BlankTail s p originals := by
  have hfound := reopens_truncated hs hp horig hpos
  have hrestored : ((s.vfs.disk.run (truncationOps p originals)).run
      (p.journalImage originals).undoOps).db = s.vfs.disk.db := by
    rcases hatomic (truncationOps p originals).length with hold | hnew
    · rw [commitOps_eq, take_left] at hold
      exact hfound.unique hold
    -- Playing the journal back restores the old length, so the new file is not found.
    rw [commitOps_eq, take_left, ← commitOps_eq] at hnew
    have hlen := congrArg length (hfound.unique hnew)
    rw [JournalImage.run_undoOps_db, resize_length, run_commitOps_length,
      journalImage_size hs hp, hp.pageSize] at hlen
    have hlt := lt_iff_toNat_lt.mp hshrink
    exact absurd (eq_of_mul_eq_mul_right hs.pageSize_pos hlen) (by omega)
  have hundo := (JournalImage.undo_restores_iff (journalImage_valid hs hp horig)
    (journalImage_saves hs hp horig)).mp hrestored
  intro i hi hi' hout
  rw [← hundo i hi' hout]
  exact getD_eq_default _ _ (by rw [run_truncationOps_length]; exact hi)

omit horig in
theorem covers_journalImage_iff {n : UInt32} (hn : n ≠ 0) {i : Nat}
    : (p.journalImage originals).Covers n i ↔ n.toNat = i / s.wp.pageSize + 1 := by
  have hsize : (p.journalImage originals).pageSize.toNat = s.wp.pageSize := by
    rw [journalImage_pageSize hs hp, hp.pageSize]
  rw [JournalImage.Covers, hsize]
  exact coversPage_iff hn hs.pageSize_pos

/-- A dropped page that is not staged reads as zeros when the tail does. -/
theorem committedPage_of_blankTail (htail : BlankTail s p originals) {n : UInt32}
    (hn : Dropped s p n) (hstaged : n ∉ p.wp.overlay)
    : s.committedPage n = some (zeroPage s.wp.pageSize) := by
  have hlow := lt_iff_toNat_lt.mp hn.1
  have hhigh := le_iff_toNat_le.mp hn.2
  have hpage : (n.toNat - 1) * s.wp.pageSize + s.wp.pageSize = n.toNat * s.wp.pageSize := by
    rw [← succ_mul]
    congr 1
    omega
  have hfits : (n.toNat - 1) * s.wp.pageSize + s.wp.pageSize ≤ s.vfs.disk.db.length := by
    rw [hpage, hs.file]
    exact mul_le_mul_right _ hhigh
  refine slice_of_getD (zeroPage_length _) hfits 0 fun j hj => ?_
  have hstart : p.wp.pageCount.toNat * p.wp.pageSize ≤ (n.toNat - 1) * s.wp.pageSize + j := by
    rw [hp.pageSize]
    exact le_add_right_of_le (mul_le_mul_right _ (by omega))
  have hnumber : n.toNat = ((n.toNat - 1) * s.wp.pageSize + j) / s.wp.pageSize + 1 := by
    rw [Nat.add_comm _ j, add_mul_div_right _ _ (by omega), div_eq_of_lt hj]
    omega
  have hout : ∀ page ∈ originals,
      ¬ (p.journalImage originals).Covers page.1 ((n.toNat - 1) * s.wp.pageSize + j) := by
    intro page hmem hcover
    obtain ⟨hpos, hover, -⟩ := originals_saved horig hmem
    have hsame := (covers_journalImage_iff hs hp hpos).mp hcover
    rw [← hnumber] at hsame
    exact hstaged (UInt32.toNat_inj.mp hsame ▸ hover)
  rw [htail _ hstart (by rw [journalImage_size hs hp, ← hs.file]; omega) hout, zeroPage,
    getD_replicate _ hj]

omit horig in
/-- The tail is blank when every dropped page is. -/
theorem blankTail_of_blank
    (h : ∀ n, Dropped s p n → s.committedPage n = some (zeroPage s.wp.pageSize))
    : BlankTail s p originals := by
  intro i hi hi' hout
  have hsize := hs.pageSize_pos
  rw [journalImage_size hs hp] at hi'
  have hlt : i / s.wp.pageSize < s.wp.diskPages.toNat := (div_lt_iff_lt_mul hsize).mpr hi'
  have hcount := s.wp.diskPages.toNat_lt
  let n := UInt32.ofNat (i / s.wp.pageSize + 1)
  have hn : n.toNat = i / s.wp.pageSize + 1 := by
    rw [toNat_ofNat', mod_eq_of_lt (by omega)]
  have hpos : n ≠ 0 := fun h0 => by
    rw [h0] at hn
    exact absurd hn.symm (succ_ne_zero _)
  have hdropped : Dropped s p n := by
    rw [hp.pageSize] at hi
    have hle := (le_div_iff_mul_le hsize).mpr hi
    rw [Dropped, lt_iff_toNat_lt, le_iff_toNat_le]
    omega
  have hread := slice_getD (h n hdropped) (mod_lt i hsize) 0
  rw [hn, Nat.add_sub_cancel, Nat.mul_comm, div_add_mod, zeroPage,
    getD_replicate _ (mod_lt i hsize)] at hread
  exact hread.symm

end Dropped

/-- What crash atomicity asks of the commit that flushes `p` and ends in `s'`: its operations
are crash-atomic, and the journal saves every page it drops that was not free before.
-/
structure ShrinksAtomically (s p s' : PagerState) : Prop where
  atomic : ∃ ops, s'.vfs.trace = s.vfs.trace ++ ops ∧ CrashAtomic s.vfs.disk ops
  journaled : ∃ originals, p.originals = .ok originals
    ∧ ∀ n, Dropped s p n → ¬ s.CommittedFree n
      → ∃ bytes, (n, bytes) ∈ originals ∧ s.committedPage n = some bytes

section Shrinking

variable {s p s' : PagerState}

theorem commit_prepared (hs : RollbackReady s) (hdirty : ¬ s.wp.overlay.isEmpty)
    (hprep : prepareCommit s = .ok () p) (hcommit : commit s = .ok () s')
    : ∃ originals, Prepared s p ∧ p.originals = .ok originals
      ∧ s'.vfs.trace = s.vfs.trace ++ commitOps p originals := by
  have hrun : commit s = commitJournal s := by
    unfold commit
    rw [estate_get_bind, if_neg hdirty, if_neg (by rw [hs.rollbackMode]; exact Bool.false_ne_true)]
  rw [hrun] at hcommit
  obtain ⟨p', originals, hprep', hp, horig, hs', -⟩ :=
    (commitJournal_runs hs.rollbackMode hs.journal hdirty hs.paged).ok hcommit
  rw [hprep] at hprep'
  cases hprep'
  exact ⟨originals, hp, horig, (hp.committed_files hs').2⟩

/-- A shrinking commit is crash-atomic exactly when every page it drops was free before the
transaction and is blank in the committed file. Nothing is staged past the page count before, and no
page of the rebuilt pointer map lies past the new one.
-/
theorem commit_shrink_atomic_iff (hs : RollbackReady s) (hdirty : ¬ s.wp.overlay.isEmpty)
    (hcount : 1 ≤ s.wp.pageCount.toNat) (hwithin : ∀ n ∈ s.wp.overlay, n ≤ s.wp.pageCount)
    (hprep : prepareCommit s = .ok () p)
    (hmap : ∀ n ∈ p.wp.overlay, isPtrmapPage p.usableSize n = true → n ≤ p.wp.pageCount)
    (hshrink : p.wp.pageCount < s.wp.diskPages) (hcommit : commit s = .ok () s')
    : ShrinksAtomically s p s'
      ↔ ∀ n, Dropped s p n
        → s.CommittedFree n ∧ s.committedPage n = some (zeroPage s.wp.pageSize) := by
  obtain ⟨originals, hp, horig, htrace⟩ := commit_prepared hs hdirty hprep hcommit
  have hpos : 1 ≤ p.wp.pageCount.toNat := hp.changed.positive hcount
  have hunstaged : ∀ n, Dropped s p n → n ∉ p.wp.overlay := fun n hn hstaged =>
    UInt32.not_lt.mpr ((hp.within hcount (fun n hn => .inl (hwithin n hn)) n hstaged).elim id
      (hmap n hstaged)) hn.1
  constructor
  · rintro ⟨⟨ops, hops, hatomic⟩, originals', horig', hjournaled⟩ n hn
    rw [horig] at horig'
    cases horig'
    cases append_cancel_left (htrace.symm.trans hops)
    have htail := blankTail_of_crashAtomic hs hp horig hpos hshrink hatomic
    refine ⟨?_, committedPage_of_blankTail hs hp horig htail hn (hunstaged n hn)⟩
    by_contra hfree
    obtain ⟨bytes, hmem, -⟩ := hjournaled n hn hfree
    exact hunstaged n hn (originals_saved horig hmem).2.1
  · intro h
    have htail : BlankTail s p originals :=
      blankTail_of_blank hs hp fun n hn => (h n hn).2
    refine ⟨⟨_, htrace, commitOps_crashAtomic hs hp horig hpos htail⟩, originals, horig, ?_⟩
    exact fun n hn hfree => absurd (h n hn).1 hfree

end Shrinking

-- A live page is lost

/-- A table-leaf page of 512 bytes with one cell, behind the bytes `before`. -/
def oneCellLeaf (before cell : Bytes) : Bytes :=
  before ++ [0x0d, 0, 0, 0, 1] ++ u16ToBytes (.ofNat (512 - cell.length)) ++ [0]
    ++ u16ToBytes (.ofNat (512 - cell.length))
    ++ zeroPage (512 - before.length - 10 - cell.length) ++ cell

/-- The header of a database in FULL auto-vacuum mode, whose page 4 is free. -/
def vacuumHeader : DatabaseHeader :=
  { newHeader 512 .full with
    largestRootPage := 3
    freelistTrunk := 4
    freelistCount := 1
    sizeInPages := 5 }

/-- Page 1: the schema lists one table, with root page 3. -/
def vacuumPage1 : Bytes :=
  let row := encodeRecord [.text [116], .text [116], .text [116], .integer 3, .text [116]]
  oneCellLeaf vacuumHeader.toBytes ([.ofNat row.length, 1] ++ row)

/-- Page 3: one row of 480 bytes, the last 441 of them on page 5. -/
def spilledLeaf : Bytes :=
  oneCellLeaf [] (Varint.encode 480 ++ [1] ++ List.replicate 39 7 ++ u32ToBytes 5)

/-- Page 5: the overflow page of that row. -/
def spilledTail : Bytes :=
  u32ToBytes 0 ++ List.replicate 441 7 ++ zeroPage 67

/-- A transaction that rewrites page 1 of a database with a free page below a live one. -/
def shrinkingPager : PagerState where
  vfs := {
    disk := {
      db := vacuumPage1 ++ zeroPage 512 ++ spilledLeaf ++ zeroPage 512 ++ spilledTail
      journal := []
      wal := [] }
    trace := []
    locks := .default
    index := .new }
  wp := { WritePager.fresh vacuumHeader 5 5 true false none with
    overlay := (∅ : Overlay).insert 1 vacuumPage1 }

theorem shrinkingPager_ready : RollbackReady shrinkingPager where
  rollbackMode := rfl
  journal := rfl
  minimum := by decide
  maximum := by decide
  powerOfTwo := by decide
  committed := by decide
  file := by decide +kernel
  paged n b h := by
    have hget : ((∅ : Overlay).insert 1 vacuumPage1)[n]? = some b := h
    rw [TreeMap.getElem?_insert] at hget
    split at hget
    · cases hget
      decide +kernel
    · simp at hget
  quiet := reopens_empty_journal rfl

theorem shrinkingPager_run
    : (match prepareCommit shrinkingPager, commit shrinkingPager,
          shrinkingPager.committedView.freelistPtrmap ∅ with
      | .ok _ p, .ok _ _, .ok free =>
          p.wp.pageCount == 4 && p.wp.overlay.toList.all (·.1 ≤ 4) && !free.contains 5
      | _, _, _ => false) = true := by
  decide +kernel

theorem shrinkingPager_page5
    : shrinkingPager.committedPage 5 ≠ some (zeroPage shrinkingPager.wp.pageSize) := by
  decide +kernel

/-- What the run shows, about a state named `s`. -/
theorem shrinkingPager_facts {s : PagerState} (hs : s = shrinkingPager)
    : ∃ p s', prepareCommit s = .ok () p ∧ commit s = .ok () s' ∧ p.wp.pageCount = 4
      ∧ (∀ n ∈ p.wp.overlay, n ≤ 4) ∧ ¬ s.CommittedFree 5 := by
  have hrun := shrinkingPager_run
  rw [← hs] at hrun
  cases hprep : prepareCommit s with
  | error e p => simp [hprep] at hrun
  | ok u p =>
    cases hcommit : commit s with
    | error e s' => simp [hprep, hcommit] at hrun
    | ok u' s' =>
      cases hfree : s.committedView.freelistPtrmap ∅ with
      | error e => simp [hprep, hcommit, hfree] at hrun
      | ok free =>
        simp only [hprep, hcommit, hfree, Bool.and_eq_true, beq_iff_eq,
          Bool.not_eq_true'] at hrun
        obtain ⟨⟨hcount, hstaged⟩, hnot⟩ := hrun
        refine ⟨p, s', rfl, rfl, hcount, fun n hn => ?_, ?_⟩
        · obtain ⟨b, hb⟩ := Option.isSome_iff_exists.mp (TreeMap.mem_iff_isSome_getElem?.mp hn)
          have hmem := TreeMap.mem_toList_iff_getElem?_eq_some.mpr hb
          exact of_decide_eq_true (all_eq_true.mp hstaged _ hmem)
        rintro ⟨free', hfree', hmem⟩
        rw [hfree] at hfree'
        cases hfree'
        rw [TreeMap.mem_iff_contains, hnot] at hmem
        exact Bool.false_ne_true hmem

/-- The commit of a FULL auto-vacuum database moves the live page 5 down and drops it without
saving it. It is not crash-atomic.
-/
theorem commit_shrink_loses_page
    : ∃ s p s', s = shrinkingPager ∧ RollbackReady s ∧ s.autoVacuum = .full
      ∧ prepareCommit s = .ok () p ∧ commit s = .ok () s' ∧ Dropped s p 5 ∧ ¬ s.CommittedFree 5
      ∧ (¬ ∃ originals bytes, p.originals = .ok originals ∧ (5, bytes) ∈ originals)
      ∧ ¬ ∃ ops, s'.vfs.trace = s.vfs.trace ++ ops ∧ CrashAtomic s.vfs.disk ops := by
  obtain ⟨s, hs⟩ : ∃ s, s = shrinkingPager := ⟨_, rfl⟩
  obtain ⟨p, s', hprep, hcommit, hcount, hwithin, hfree⟩ := shrinkingPager_facts hs
  have hstaged : (5 : UInt32) ∉ p.wp.overlay := fun h => absurd (hwithin 5 h) (by decide)
  have hready : RollbackReady s := hs ▸ shrinkingPager_ready
  have hdirty : ¬ s.wp.overlay.isEmpty := by
    rw [hs]
    decide
  have hpages : s.wp.diskPages = 5 := by
    rw [hs]
    rfl
  have hdropped : Dropped s p 5 := by
    rw [Dropped, hcount, hpages]
    decide
  obtain ⟨originals, hp, horig, htrace⟩ := commit_prepared hready hdirty hprep hcommit
  refine ⟨s, p, s', hs, hready, ?_, hprep, hcommit, hdropped, hfree, ?_, ?_⟩
  · rw [hs]
    decide
  · rintro ⟨originals', bytes, horig', hmem⟩
    exact hstaged (originals_saved horig' hmem).2.1
  rintro ⟨ops, hops, hatomic⟩
  cases append_cancel_left (htrace.symm.trans hops)
  have htail := blankTail_of_crashAtomic hready hp horig (by rw [hcount]; decide)
    (by rw [hcount, hpages]; decide) hatomic
  have hblank := committedPage_of_blankTail hready hp horig htail hdropped hstaged
  rw [hs] at hblank
  exact shrinkingPager_page5 hblank

theorem commit_shrink_atomic_iff_sample
    : ∃ s p s', s = shrinkingPager ∧ p.wp.pageCount < s.wp.diskPages
      ∧ (ShrinksAtomically s p s'
          ↔ ∀ n, Dropped s p n
            → s.CommittedFree n ∧ s.committedPage n = some (zeroPage s.wp.pageSize)) := by
  obtain ⟨s, hs⟩ : ∃ s, s = shrinkingPager := ⟨_, rfl⟩
  obtain ⟨p, s', hprep, hcommit, hcount, hwithin, -⟩ := shrinkingPager_facts hs
  have hready : RollbackReady s := hs ▸ shrinkingPager_ready
  have hdirty : ¬ s.wp.overlay.isEmpty := by
    rw [hs]
    decide
  have hpos : 1 ≤ s.wp.pageCount.toNat := by
    rw [hs]
    decide
  have hshrink : p.wp.pageCount < s.wp.diskPages := by
    rw [hcount, hs]
    decide
  have hstart : ∀ n ∈ s.wp.overlay, n ≤ s.wp.pageCount := by
    rw [hs]
    intro n hn
    rcases TreeMap.mem_insert.mp hn with heq | hn
    · cases Std.LawfulEqCmp.eq_of_compare heq
      decide
    · exact absurd hn TreeMap.not_mem_emptyc
  exact ⟨s, p, s', hs, hshrink, commit_shrink_atomic_iff hready hdirty hpos hstart hprep
    (fun n hn _ => hcount ▸ hwithin n hn) hshrink hcommit⟩

end GraphiteSql
