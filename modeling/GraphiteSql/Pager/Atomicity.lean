import GraphiteSql.Pager.Crash
import GraphiteSql.Pager.Open

/-! A commit in rollback-journal mode is atomic with respect to crashes. -/

namespace GraphiteSql

open Lib List Nat UInt32
open Std (TreeMap)

variable {page : UInt32 × Bytes} {s p : PagerState} {originals : List (UInt32 × Bytes)}

theorem original_ok {n : UInt32} (h : p.original n = .ok page)
    : n ≠ 0 ∧ page.1 = n
      ∧ slice p.vfs.disk.db ((n.toNat - 1) * p.wp.pageSize) p.wp.pageSize = some page.2 := by
  obtain ⟨off, hoff, hrest⟩ := except_bind_eq_ok.mp h
  obtain ⟨buf, hbuf, hpage⟩ := except_bind_eq_ok.mp hrest
  unfold pageOffset at hoff
  split_ifs at hoff with hn
  cases hoff
  cases hpage
  exact ⟨hn, rfl, readExactAt_ok.mp hbuf⟩

section

variable (h : p.originals = .ok originals)

include h

/-- Every saved page is the committed image of a staged page. -/
theorem originals_saved (hpage : page ∈ originals)
    : page.1 ≠ 0 ∧ page.1 ∈ p.wp.overlay
      ∧ slice p.vfs.disk.db ((page.1.toNat - 1) * p.wp.pageSize) p.wp.pageSize = some page.2 := by
  obtain ⟨n, hn, hread⟩ := forall₂_right (except_mapM_eq_ok.mp h) hpage
  obtain ⟨hpos, hnum, hslice⟩ := original_ok hread
  subst hnum
  exact ⟨hpos, TreeMap.mem_keys.mp (mem_filter.mp hn).1, hslice⟩

/-- Every staged page that exists in the main file is saved. -/
theorem originals_complete {n : UInt32} (hn : n ∈ p.wp.overlay)
    (hle : n ≤ p.wp.diskPages) : ∃ page ∈ originals, page.1 = n := by
  have hkey : n ∈ p.wp.overlay.keys.filter (· ≤ p.wp.diskPages) := by
    rw [mem_filter]
    exact ⟨TreeMap.mem_keys.mpr hn, by simpa using hle⟩
  obtain ⟨page, hpage, hread⟩ := forall₂_left (except_mapM_eq_ok.mp h) hkey
  exact ⟨page, hpage, (original_ok hread).2.1⟩

/-- There are no more originals than pages in the main file. -/
theorem originals_length
    : originals.length ≤ p.wp.diskPages.toNat := by
  let keys := p.wp.overlay.keys.filter (· ≤ p.wp.diskPages)
  have hlen : keys.length = originals.length := (except_mapM_eq_ok.mp h).length_eq
  have hnodup : (keys.map UInt32.toNat).Nodup :=
    List.Pairwise.map _ (fun _ _ hne heq => hne (UInt32.toNat_inj.mp heq))
      (List.Pairwise.filter _ TreeMap.nodup_keys)
  have hsub : keys.map UInt32.toNat ⊆ range' 1 p.wp.diskPages.toNat := by
    intro i hi
    obtain ⟨n, hn, rfl⟩ := mem_map.mp hi
    obtain ⟨page, -, hread⟩ := forall₂_left (except_mapM_eq_ok.mp h) hn
    have hpos : n ≠ 0 := (original_ok hread).1
    have hle : n ≤ p.wp.diskPages := by simpa using (mem_filter.mp hn).2
    rw [le_iff_toNat_le] at hle
    have hnat : n.toNat ≠ 0 := fun h0 => hpos (UInt32.toNat_inj.mp h0)
    rw [mem_range'_1]
    omega
  have hcard := hnodup.length_le_of_subset hsub
  simp only [length_map, length_range'] at hcard
  omega

end

def PagerState.journalImage (p : PagerState) (originals : List (UInt32 × Bytes))
    : JournalImage where
  nonce := p.nonce
  diskPages := p.wp.diskPages
  pageSize := .ofNat p.wp.pageSize
  originals := originals

/-- A pager in rollback-journal mode with a journal file, whose committed file has at least one
page, all of them whole, and no hot journal next to it.
-/
structure RollbackReady (s : PagerState) : Prop where
  rollbackMode : s.wp.wal = none
  journal : s.wp.journal = true
  minimum : 512 ≤ s.wp.pageSize
  maximum : s.wp.pageSize ≤ 65536
  powerOfTwo : isPowerOfTwo s.wp.pageSize = true
  committed : 1 ≤ s.wp.diskPages.toNat
  file : s.vfs.disk.db.length = s.wp.diskPages.toNat * s.wp.pageSize
  paged : ∀ (n : UInt32) (b : Bytes), s.wp.overlay[n]? = some b → b.length = s.wp.pageSize
  quiet : Reopens s.vfs.disk s.vfs.disk.db

/-- The committed file is all zeros past the new page count, in the pages that the journal does
not save.
-/
def BlankTail (s p : PagerState) (originals : List (UInt32 × Bytes)) : Prop :=
  ∀ i, p.wp.pageCount.toNat * p.wp.pageSize ≤ i → i < (p.journalImage originals).size
    → (∀ page ∈ originals, ¬ (p.journalImage originals).Covers page.1 i)
    → s.vfs.disk.db.getD i 0 = 0

/-- Whatever prefix of `ops` is applied to `d`, opening the database again finds the main file
as it was before them or as they leave it.
-/
def CrashAtomic (d : Disk) (ops : List FileOp) : Prop :=
  ∀ k, Reopens (d.run (ops.take k)) d.db ∨ Reopens (d.run (ops.take k)) (d.run ops).db

/-- The file operations of a commit from `s` to `s'`: they are crash-atomic, and once those
that clear the journal have begun the new file is found. With staged pages they journal the original
pages, flush the prepared ones and clear the journal.
-/
def CommitsAtomically (s s' : PagerState) : Prop :=
  ∃ ops, s'.vfs.trace = s.vfs.trace ++ ops ∧ s'.vfs.disk = s.vfs.disk.run ops
    ∧ CrashAtomic s.vfs.disk ops
    ∧ (¬ s.wp.overlay.isEmpty → ∃ p originals, prepareCommit s = .ok () p
        ∧ p.originals = .ok originals ∧ ops = commitOps p originals
        ∧ ∀ k, ops.length < k + clearOps.length →
          Reopens (s.vfs.disk.run (ops.take k)) s'.vfs.disk.db)

theorem reopens_after_clear (d : Disk) (body : List FileOp) {k : Nat} (hk : body.length < k)
    : Reopens (d.run ((body ++ clearOps).take k)) (d.run (body ++ clearOps)).db := by
  obtain ⟨j, rfl⟩ : ∃ j, k = body.length + (j + 1) := ⟨k - body.length - 1, by omega⟩
  rw [take_length_add_append, Disk.run_append, Disk.run_append]
  have hdb : ∀ d' : Disk, (d'.run (clearOps.take (j + 1))).db = d'.db
      ∧ (d'.run (clearOps.take (j + 1))).journal = [] := by
    intro d'
    cases j with
    | zero => exact ⟨rfl, resize_zero⟩
    | succ j => exact ⟨by simp [clearOps]; rfl, by simp [clearOps]; exact resize_zero⟩
  have hreopen := reopens_empty_journal (hdb (d.run body)).2
  rw [(hdb (d.run body)).1] at hreopen
  exact hreopen

theorem RollbackReady.pageSize_pos (h : RollbackReady s) : 0 < s.wp.pageSize :=
  Nat.lt_of_lt_of_le (by decide) h.minimum

section Image

variable (hs : RollbackReady s) (hp : Prepared s p)

include hs hp

theorem journalImage_pageSize
    : (p.journalImage originals).pageSize.toNat = p.wp.pageSize := by
  have hmax := hs.maximum
  show (UInt32.ofNat p.wp.pageSize).toNat = _
  rw [hp.pageSize, toNat_ofNat', mod_eq_of_lt (by omega)]

theorem journalImage_size
    : (p.journalImage originals).size = s.wp.diskPages.toNat * s.wp.pageSize := by
  rw [JournalImage.size, journalImage_pageSize hs hp, hp.pageSize, ← hp.diskPages]
  rfl

theorem fillOps_journalImage
    : fillOps p originals = (p.journalImage originals).fillOps := by
  rw [JournalImage.fillOps, journalImage_pageSize hs hp]
  rfl

theorem blankTail_of_grow (hgrow : s.wp.diskPages ≤ p.wp.pageCount)
    : BlankTail s p originals := by
  intro i hi hi'
  have hmul := mul_le_mul_right s.wp.pageSize (le_iff_toNat_le.mp hgrow)
  rw [journalImage_size hs hp] at hi'
  rw [hp.pageSize] at hi
  omega

variable (horig : p.originals = .ok originals)

include horig

theorem journalImage_valid
    : (p.journalImage originals).Valid where
  minimum := by
    rw [journalImage_pageSize hs hp, hp.pageSize]
    exact hs.minimum
  powerOfTwo := by
    rw [journalImage_pageSize hs hp, hp.pageSize]
    exact hs.powerOfTwo
  paged page hpage := by
    rw [journalImage_pageSize hs hp]
    exact slice_length (originals_saved horig hpage).2.2
  positive page hpage := (originals_saved horig hpage).1
  count := lt_of_le_of_lt (originals_length horig) p.wp.diskPages.toNat_lt

theorem journalImage_saves
    : (p.journalImage originals).Saves s.vfs.disk.db where
  length := by rw [journalImage_size hs hp, hs.file]
  original page hpage := by
    rw [journalImage_pageSize hs hp, ← hp.files.1]
    exact (originals_saved horig hpage).2.2

theorem journalImage_nonempty
    : (p.journalImage originals).originals ≠ [] := by
  have hone : (1 : UInt32) ≤ p.wp.diskPages := by
    rw [hp.diskPages]
    exact hs.committed
  obtain ⟨page, hpage, -⟩ := originals_complete horig hp.page1 hone
  exact ne_nil_of_mem hpage

theorem run_fill_count
    : s.vfs.disk.run (fillOps p originals
        ++ [.writeAllAt .journal (u32ToBytes (.ofNat originals.length)) 8])
      = { s.vfs.disk with journal := (p.journalImage originals).hot } := by
  rw [Disk.run_append, fillOps_journalImage hs hp,
    JournalImage.run_fillOps (journalImage_valid hs hp horig)]
  exact congrArg (fun j => { s.vfs.disk with journal := j }) (JournalImage.writeAt_count _ _)

variable (hpos : 1 ≤ p.wp.pageCount.toNat) (htail : BlankTail s p originals)

include hpos htail

/-- The flush can be undone when it cuts off nothing but zeros. -/
theorem flushOps_undoable
    : ∀ op ∈ flushOps p.wp, (p.journalImage originals).UndoableOp s.vfs.disk.db op := by
  intro op hop
  rcases mem_append.mp hop with hop | hop
  · obtain ⟨⟨n, bytes⟩, hpage, rfl⟩ := mem_map.mp hop
    have hget := TreeMap.mem_toList_iff_getElem?_eq_some.mp hpage
    have hmem : n ∈ p.wp.overlay := TreeMap.mem_iff_isSome_getElem?.mpr (by rw [hget]; rfl)
    refine ⟨n, by rw [journalImage_pageSize hs hp], ?_, ?_⟩
    · rw [journalImage_pageSize hs hp, hp.pageSize]
      exact hp.paged n bytes hget
    · by_cases hle : n ≤ p.wp.diskPages
      · exact .inl (originals_complete horig hmem hle)
      · exact .inr (UInt32.not_le.mp hle)
  simp only [mem_cons, not_mem_nil, or_false] at hop
  rcases hop with rfl | rfl
  · refine ⟨Nat.mul_pos hpos ?_, htail⟩
    rw [hp.pageSize]
    exact hs.pageSize_pos
  · trivial

/-- Until the journal is cleared, the committed file is found. -/
theorem reopens_before_clear (k : Nat)
    : Reopens
      (s.vfs.disk.run ((fillOps p originals ++ publishOps originals ++ flushOps p.wp).take k))
      s.vfs.disk.db := by
  have hfile : 0 < s.vfs.disk.db.length := by
    rw [hs.file]
    exact Nat.mul_pos hs.committed hs.pageSize_pos
  let count : FileOp := .writeAllAt .journal (u32ToBytes (.ofNat originals.length)) 8
  have hsplit : fillOps p originals ++ publishOps originals ++ flushOps p.wp
      = (fillOps p originals ++ [count]) ++ (.sync .journal :: flushOps p.wp) := by
    simp [publishOps, count]
  by_cases hk : k ≤ (fillOps p originals).length
  · rw [append_assoc, take_append_of_le_length hk, fillOps_journalImage hs hp]
    exact JournalImage.reopens_during_fill hs.quiet (ne_of_gt hfile) k
  obtain ⟨j, rfl⟩ : ∃ j, k = (fillOps p originals ++ [count]).length + j :=
    Nat.exists_eq_add_of_le (by rw [length_append, length_singleton]; omega)
  rw [hsplit, take_length_add_append, Disk.run_append, run_fill_count hs hp horig]
  refine JournalImage.reopens_during_flush
    (d := { s.vfs.disk with journal := (p.journalImage originals).hot })
    (journalImage_valid hs hp horig)
    (journalImage_saves hs hp horig) (journalImage_nonempty hs hp horig) hfile rfl
    (JournalImage.Undoable.refl _ _) ?_ j
  intro op hop
  rcases mem_cons.mp hop with rfl | hop
  · trivial
  · exact flushOps_undoable hs hp horig hpos htail op hop

theorem commitOps_crashAtomic
    : CrashAtomic s.vfs.disk (commitOps p originals) := by
  let body := fillOps p originals ++ publishOps originals ++ flushOps p.wp
  intro k
  show Reopens (s.vfs.disk.run ((body ++ clearOps).take k)) _ ∨ _
  by_cases hk : k ≤ body.length
  · left
    rw [take_append_of_le_length hk]
    exact reopens_before_clear hs hp horig hpos htail k
  · right
    exact reopens_after_clear s.vfs.disk body (not_le.mp hk)

end Image

/-- A commit that does not shrink the main file is atomic with respect to crashes. One that
fails has performed no file operation.
-/
theorem commit_crash_atomic {s : PagerState} (hs : RollbackReady s)
    (hcount : s.wp.diskPages ≤ s.wp.pageCount)
    (hvacuum : s.autoVacuum = .full → ∀ p, prepareCommit s = .ok () p
      → s.wp.diskPages ≤ p.wp.pageCount)
    : Runs commit s (fun _ s' => CommitsAtomically s s') (fun _ s' => SameFiles s s') := by
  unfold commit
  rw [runs_get_bind]
  by_cases hempty : s.wp.overlay.isEmpty = true
  · rw [if_pos hempty]
    have hrel := releaseLocks_relocked hs.rollbackMode s (Relocked.refl s)
    refine hrel.mono (fun _ s' hs' => ?_) (fun _ _ h => h.sameFiles)
    refine ⟨[], by rw [append_nil, hs'.trace], hs'.disk, fun k => ?_, absurd hempty⟩
    rw [take_nil]
    exact .inl hs.quiet
  rw [if_neg hempty, if_neg (by rw [hs.rollbackMode]; exact Bool.false_ne_true)]
  refine (commitJournal_runs hs.rollbackMode hs.journal hempty hs.paged).mono
    (fun _ s' hs' => ?_) (fun _ _ h => h.sameFiles)
  obtain ⟨p, originals, hprep, hp, horig, hs', -⟩ := hs'
  obtain ⟨hdisk, htrace⟩ := hp.committed_files hs'
  have hgrow : s.wp.diskPages ≤ p.wp.pageCount := by
    by_cases hmode : s.autoVacuum = .full
    · exact hvacuum hmode p hprep
    · rw [((prepareCommit_runs hs.rollbackMode hempty hs.paged).ok hprep).2 hmode]
      exact hcount
  have hpos : 1 ≤ p.wp.pageCount.toNat :=
    le_trans hs.committed (le_iff_toNat_le.mp hgrow)
  have hatomic : CrashAtomic s.vfs.disk (commitOps p originals) :=
    commitOps_crashAtomic hs hp horig hpos (blankTail_of_grow hs hp hgrow)
  refine ⟨commitOps p originals, htrace, hdisk, hatomic,
    fun _ => ⟨p, originals, hprep, horig, rfl, fun k hk => ?_⟩⟩
  rw [hdisk]
  rw [commitOps, length_append] at hk
  exact reopens_after_clear s.vfs.disk _ (by omega)

/-- A database of one page, with a second page staged. -/
def samplePager : PagerState where
  vfs := {
    disk := { db := (newHeader 512 .none).toBytes ++ zeroPage 412, journal := [], wal := [] }
    trace := []
    locks := .default
    index := .new }
  wp := { WritePager.fresh (newHeader 512 .none) 1 2 true false none with
    overlay := (∅ : Overlay).insert 2 (zeroPage 512) }

theorem samplePager_ready : RollbackReady samplePager where
  rollbackMode := rfl
  journal := rfl
  minimum := by decide
  maximum := by decide
  powerOfTwo := by decide
  committed := by decide
  file := by
    simp only [samplePager, length_append, DatabaseHeader.toBytes_length, zeroPage_length]
    decide
  paged n b h := by
    have hget : ((∅ : Overlay).insert 2 (zeroPage 512))[n]? = some b := h
    rw [TreeMap.getElem?_insert] at hget
    split at hget
    · cases hget
      exact zeroPage_length 512
    · simp at hget
  quiet := reopens_empty_journal rfl

theorem commit_crash_atomic_sample
    : ∃ s, s = samplePager ∧ ¬ s.wp.overlay.isEmpty
      ∧ Runs commit s (fun _ s' => CommitsAtomically s s') (fun _ s' => SameFiles s s') := by
  obtain ⟨s, hs⟩ : ∃ s, s = samplePager := ⟨_, rfl⟩
  have hready : RollbackReady s := hs ▸ samplePager_ready
  have hcount : s.wp.diskPages ≤ s.wp.pageCount := by
    rw [hs]
    decide
  have hmode : s.autoVacuum ≠ .full := by
    rw [hs]
    decide
  refine ⟨s, hs, ?_, commit_crash_atomic hready hcount fun h => absurd h hmode⟩
  rw [hs]
  decide

end GraphiteSql
