import GraphiteSql.Pager.LockRules

/-! The file operations of a rollback-journal commit, as one list in the order in which they are
performed.
-/

namespace GraphiteSql

open Lib List PagerState
open Std (TreeMap)

variable {s p : PagerState} {originals pages : List (UInt32 × Bytes)} {page : UInt32 × Bytes}

def PagerState.after (s : PagerState) (ops : List FileOp) : PagerState :=
  { s with vfs := { s.vfs with disk := s.vfs.disk.run ops, trace := s.vfs.trace ++ ops } }

@[simp]
theorem PagerState.after_nil (s : PagerState) : s.after [] = s := by
  simp [after]

theorem PagerState.after_after (s : PagerState) (ops ops' : List FileOp)
    : (s.after ops).after ops' = s.after (ops ++ ops') := by
  simp [after, Disk.run_append]

@[simp]
theorem PagerState.after_wp (s : PagerState) (ops : List FileOp) : (s.after ops).wp = s.wp := rfl

theorem perform_ok (op : FileOp) (s : PagerState) : perform op s = .ok () (s.after [op]) := (rfl)

/-- Performing one operation and going on. -/
theorem perform_bind {α : Type} (op : FileOp) (f : Unit → PagerM α) (s : PagerState)
    : (perform op >>= f) s = f () (s.after [op]) :=
  estate_bind_ok (perform_ok op s)

def recordOps (nonce : UInt32) (pageSize : Nat) : (off : Nat) → List (UInt32 × Bytes) → List FileOp
  | _, [] => []
  | off, (n, bytes) :: rest =>
      [.writeAllAt .journal (u32ToBytes n) off,
        .writeAllAt .journal bytes (off + 4),
        .writeAllAt .journal (u32ToBytes (journalPageChecksum nonce bytes)) (off + 4 + pageSize)]
      ++ recordOps nonce pageSize (off + 4 + pageSize + 4) rest

def fillOps (s : PagerState) (originals : List (UInt32 × Bytes)) : List FileOp :=
  [.truncate .journal 0, .writeAllAt .journal s.journalHeader 0]
    ++ recordOps s.nonce s.wp.pageSize journalSector originals ++ [.sync .journal]

def publishOps (originals : List (UInt32 × Bytes)) : List FileOp :=
  [.writeAllAt .journal (u32ToBytes (.ofNat originals.length)) 8, .sync .journal]

def pageOps (pageSize : Nat) (pages : List (UInt32 × Bytes)) : List FileOp :=
  pages.map fun page => .writeAllAt .db page.2 ((page.1.toNat - 1) * pageSize)

def flushOps (wp : WritePager) : List FileOp :=
  pageOps wp.pageSize wp.overlay.toList
    ++ [.truncate .db (wp.pageCount.toNat * wp.pageSize), .sync .db]

def clearOps : List FileOp :=
  [.truncate .journal 0, .sync .journal]

-- The pages of the main file

def CoversPage (pageSize : Nat) (n : UInt32) (i : Nat) : Prop :=
  (n.toNat - 1) * pageSize ≤ i ∧ i < (n.toNat - 1) * pageSize + pageSize

def writePagesTo (pageSize : Nat) (pages : List (UInt32 × Bytes)) (db : Bytes) : Bytes :=
  pages.foldl (fun db page => writeAt db ((page.1.toNat - 1) * pageSize) page.2 0) db

theorem run_pageOps (pageSize : Nat) (pages : List (UInt32 × Bytes)) (d : Disk)
    : d.run (pageOps pageSize pages) = { d with db := writePagesTo pageSize pages d.db } := by
  induction pages generalizing d with
  | nil => rfl
  | cons head tail ih => exact ih _

section Pages

variable {pageSize : Nat} {n : UInt32} {i : Nat}

/-- The page that covers a position is determined by it. -/
theorem coversPage_iff (hn : n ≠ 0) (hsize : 0 < pageSize)
    : CoversPage pageSize n i ↔ n.toNat = i / pageSize + 1 := by
  have hpos : n.toNat ≠ 0 := fun h => hn (UInt32.toNat_inj.mp h)
  have hdiv : n.toNat - 1 = i / pageSize ↔ n.toNat = i / pageSize + 1 := by omega
  rw [← hdiv, CoversPage, eq_comm, Nat.div_eq_iff hsize]
  omega

theorem CoversPage.split (h : CoversPage pageSize n i)
    : ∃ j < pageSize, i = (n.toNat - 1) * pageSize + j := by
  obtain ⟨j, rfl⟩ := Nat.exists_eq_add_of_le h.1
  exact ⟨j, Nat.add_lt_add_iff_left.mp h.2, rfl⟩

theorem CoversPage.outside (hlen : page.2.length = pageSize) (h : ¬ CoversPage pageSize page.1 i)
    : i < (page.1.toNat - 1) * pageSize
      ∨ (page.1.toNat - 1) * pageSize + page.2.length ≤ i := by
  unfold CoversPage at h
  omega

/-- Writing pages leaves a position alone that none of them covers. -/
theorem getD_writePagesTo_outside (hpaged : ∀ page ∈ pages, page.2.length = pageSize) {db : Bytes}
    (hout : ∀ page ∈ pages, ¬ CoversPage pageSize page.1 i)
    : (writePagesTo pageSize pages db).getD i 0 = db.getD i 0 := by
  induction pages generalizing db with
  | nil => rfl
  | cons head tail ih =>
    have hlen : head.2.length = pageSize := hpaged head mem_cons_self
    have hhead : ¬ CoversPage pageSize head.1 i := hout head mem_cons_self
    have hrest : (writePagesTo pageSize (head :: tail) db).getD i 0
        = (writeAt db ((head.1.toNat - 1) * pageSize) head.2 0).getD i 0 :=
      ih (fun page hp => hpaged page (mem_cons_of_mem _ hp))
        (fun page hp => hout page (mem_cons_of_mem _ hp))
    exact hrest.trans (getD_writeAt_outside (CoversPage.outside hlen hhead))

/-- A page that was written reads back, when the pages are distinct. -/
theorem getD_writePagesTo_page (hsize : 0 < pageSize)
    (hpaged : ∀ page ∈ pages, page.2.length = pageSize) (hpos : ∀ page ∈ pages, page.1 ≠ 0)
    (hdistinct : pages.Pairwise fun a b => a.1 ≠ b.1)
    (hpage : page ∈ pages) (hi : i < pageSize) {db : Bytes}
    : (writePagesTo pageSize pages db).getD ((page.1.toNat - 1) * pageSize + i) 0
      = page.2.getD i 0 := by
  induction pages generalizing db with
  | nil => cases hpage
  | cons head tail ih =>
    have htail := pairwise_cons.mp hdistinct
    have hpaged' := fun page hp => hpaged page (mem_cons_of_mem head hp)
    have hpos' := fun page hp => hpos page (mem_cons_of_mem head hp)
    rcases mem_cons.mp hpage with rfl | hmem
    · have hcover : CoversPage pageSize page.1 ((page.1.toNat - 1) * pageSize + i) :=
        ⟨Nat.le_add_right _ _, Nat.add_lt_add_left hi _⟩
      have hnum := (coversPage_iff (hpos page mem_cons_self) hsize).mp hcover
      refine (getD_writePagesTo_outside hpaged' fun other hother hcov => ?_).trans
        (getD_writeAt_inside (by rw [hpaged page mem_cons_self]; exact hi))
      have hother' := (coversPage_iff (hpos' other hother) hsize).mp hcov
      exact htail.1 other hother (UInt32.toNat_inj.mp (hnum.trans hother'.symm))
    · exact ih hpaged' hpos' htail.2 hmem

end Pages

theorem writeRecords_ok (nonce : UInt32) (records : List (UInt32 × Bytes)) (off : Nat)
    (s : PagerState)
    : writeRecords nonce off records s
      = .ok () (s.after (recordOps nonce s.wp.pageSize off records)) := by
  induction records generalizing off s with
  | nil => simp [writeRecords, recordOps]
  | cons head tail ih =>
    simp only [writeRecords, estate_get_bind, perform_bind, after_after]
    rw [ih]
    simp [after_after, recordOps]

theorem writePages_ok (h : ∀ page ∈ pages, page.1 ≠ 0) (s : PagerState)
    : writePages pages s = .ok () (s.after (pageOps s.wp.pageSize pages)) := by
  induction pages generalizing s with
  | nil => simp [writePages, pageOps]
  | cons head tail ih =>
    obtain ⟨n, bytes⟩ := head
    have hn : n ≠ 0 := h _ mem_cons_self
    simp only [writePages, estate_get_bind, pageOffset, if_neg hn]
    rw [estate_bind_ok (lift_ok _ _), perform_bind,
      ih (fun page hpage => h page (mem_cons_of_mem _ hpage))]
    simp [after_after, pageOps]

theorem writeJournal_run (s : PagerState)
    : writeJournal s =
      match s.originals with
      | .ok originals => .ok () (s.after (fillOps s originals ++ publishOps originals))
      | .error e => .error e s := by
  unfold writeJournal
  rw [estate_get_bind]
  cases horig : s.originals with
  | error e => exact estate_bind_error (lift_error e s)
  | ok originals =>
    rw [estate_bind_ok (lift_ok originals s)]
    simp only [perform_bind, after_after]
    rw [estate_bind_ok (writeRecords_ok _ _ _ _)]
    simp [perform_bind, perform_ok, after_after, fillOps, publishOps]

/-- A page number is staged at most once. -/
theorem overlay_distinct (overlay : Overlay) : overlay.toList.Pairwise fun a b => a.1 ≠ b.1 :=
  TreeMap.distinct_keys_toList.imp fun hne heq => hne (by rw [heq]; exact Std.ReflCmp.compare_self)

theorem ne_zero_of_mem_toList {overlay : Overlay} (h : (0 : UInt32) ∉ overlay)
    (hmem : page ∈ overlay.toList) : page.1 ≠ 0 := by
  obtain ⟨n, bytes⟩ := page
  rintro rfl
  have hget := TreeMap.mem_toList_iff_getElem?_eq_some.mp hmem
  exact h (TreeMap.mem_iff_isSome_getElem?.mpr (by rw [hget]; rfl))

theorem flushPages_ok (h : (0 : UInt32) ∉ s.wp.overlay)
    : flushPages s = .ok () (s.after (flushOps s.wp)) := by
  unfold flushPages
  rw [estate_get_bind]
  rw [estate_bind_ok (writePages_ok (fun _ => ne_zero_of_mem_toList h) s)]
  simp [perform_bind, perform_ok, after_after, flushOps]

theorem clearJournal_ok (h : s.wp.journal = true)
    : clearJournal s = .ok () (s.after clearOps) := by
  unfold clearJournal
  rw [estate_get_bind, if_pos h, perform_bind, perform_ok, after_after]
  rfl

-- The whole commit

def SameFiles (s s' : PagerState) : Prop :=
  s'.vfs.disk = s.vfs.disk ∧ s'.vfs.trace = s.vfs.trace

theorem Relocked.sameFiles {r : PagerState} (h : Relocked s r) : SameFiles s r :=
  ⟨h.disk, h.trace⟩

/-- `p` differs from `s` only by the locks it holds and by what it stages. -/
def Changed (s p : PagerState) : Prop :=
  ∃ r, Relocked s r ∧ Staged r p

section Fields

section

variable (h : Changed s p)

include h

theorem Changed.sameFiles : SameFiles s p := by
  obtain ⟨r, hr, hp⟩ := h
  unfold SameFiles
  rw [hp.vfs]
  exact hr.sameFiles

theorem Changed.pageSize : p.wp.pageSize = s.wp.pageSize := by
  obtain ⟨r, hr, hp⟩ := h
  exact hp.pageSize.trans hr.pageSize

theorem Changed.diskPages : p.wp.diskPages = s.wp.diskPages := by
  obtain ⟨r, hr, hp⟩ := h
  exact hp.diskPages.trans hr.diskPages

theorem Changed.journal : p.wp.journal = s.wp.journal := by
  obtain ⟨r, hr, hp⟩ := h
  exact hp.journal.trans hr.journal

theorem Changed.wal : p.wp.wal = s.wp.wal := by
  obtain ⟨r, hr, hp⟩ := h
  exact hp.wal.trans hr.wal

theorem Changed.committedHeader
    : p.wp.committedHeader = s.wp.committedHeader := by
  obtain ⟨r, hr, hp⟩ := h
  rw [hp.shape, hr]
  rfl

theorem Changed.layout : p.wp.header.layout = s.wp.header.layout := by
  obtain ⟨r, hr, hp⟩ := h
  rw [hp.layout, hr.header]

theorem Changed.positive (hs : 1 ≤ s.wp.pageCount.toNat)
    : 1 ≤ p.wp.pageCount.toNat := by
  obtain ⟨r, hr, hp⟩ := h
  exact hp.positive (by rw [hr.pageCount]; exact hs)

theorem Changed.paged {n : UInt32} {b : Bytes}
    (hb : p.wp.overlay[n]? = some b) : b.length = s.wp.pageSize := by
  obtain ⟨r, hr, hp⟩ := h
  rw [← hr.pageSize]
  exact hp.paged n b hb

end

end Fields

/-- `p` is ready to flush the transaction staged in `s`: the files are untouched, whole pages
are staged, none past the page count but pointer-map pages, and page 1 is one of them, stamped with
the header of the commit.
-/
structure Prepared (s p : PagerState) : Prop where
  changed : Changed s p
  within : 1 ≤ s.wp.pageCount.toNat → s.Within → p.Within
  stamped : ∃ old page1,
    p.wp.header.writeTo old = .ok page1 ∧ p.wp.overlay[(1 : UInt32)]? = some page1
  size : p.wp.header.sizeInPages = p.wp.pageCount

section Fields

section

variable (h : Prepared s p)

include h

theorem Prepared.files : SameFiles s p := h.changed.sameFiles

theorem Prepared.pageSize : p.wp.pageSize = s.wp.pageSize := h.changed.pageSize

theorem Prepared.diskPages : p.wp.diskPages = s.wp.diskPages :=
  h.changed.diskPages

theorem Prepared.journal : p.wp.journal = s.wp.journal := h.changed.journal

theorem Prepared.wal : p.wp.wal = s.wp.wal := h.changed.wal

theorem Prepared.paged (n : UInt32) (b : Bytes)
    (hb : p.wp.overlay[n]? = some b) : b.length = s.wp.pageSize :=
  h.changed.paged hb

theorem Prepared.page1 : (1 : UInt32) ∈ p.wp.overlay := by
  obtain ⟨-, page1, -, hpage1⟩ := h.stamped
  exact TreeMap.mem_iff_isSome_getElem?.mpr (by rw [hpage1]; rfl)

end

end Fields

theorem vacuumForCommit_pageCount (hmode : s.autoVacuum ≠ .full)
    : Runs vacuumForCommit s (fun _ s' => s'.wp.pageCount = s.wp.pageCount) (fun _ _ => True) := by
  have hskip : maybeAutovacuumTruncate s = .ok () s := by
    unfold maybeAutovacuumTruncate
    rw [if_pos hmode]
  unfold vacuumForCommit
  rw [runs_get_bind]
  split_ifs with hauto
  · refine .bind_ok hskip ?_
    exact (rebuildPtrmap_stages s).mono (fun _ _ h => h.1) fun _ _ _ => trivial
  · rfl

theorem Relocked.within {r : PagerState} (h : Relocked s r) (hs : s.Within) : r.Within := by
  intro n hn
  rw [h.overlay] at hn
  rw [h.pageCount, usableSize, h.header]
  exact hs n hn

theorem stampPage1_within {t : PagerState}
    : Runs stampPage1 t (fun _ p => 1 ≤ t.wp.pageCount.toNat → t.Within → p.Within)
      (fun _ _ => True) := by
  refine stampPage1_runs (fun _ p' _ _ hpos ht n hn => ?_) fun _ => trivial
  rcases TreeMap.mem_insert.mp hn with heq | hn
  · refine .inl (Std.LawfulEqCmp.eq_of_compare heq ▸ UInt32.le_iff_toNat_le.mpr hpos)
  · exact ht n hn

theorem prepareCommit_runs (hwal : s.wp.wal = none) (hdirty : ¬ s.wp.overlay.isEmpty)
    (hpaged : s.wp.overlay.Paged s.wp.pageSize)
    : Runs prepareCommit s
      (fun _ p => Prepared s p ∧ (s.autoVacuum ≠ .full → p.wp.pageCount = s.wp.pageCount))
      (fun _ => Changed s) := by
  have hrefl : ∀ {r}, Relocked s r → Staged r r := fun hr =>
    Staged.refl (by rw [hr.overlay, hr.pageSize]; exact hpaged)
  refine (acquireExclusive_relocked hwal hdirty (Relocked.refl s)).bind (fun _ r hr => ?_)
    (fun _ r hr => ⟨r, hr, hrefl hr⟩)
  obtain ⟨hr, hheld⟩ := hr
  have hstart : Staged r r := hrefl hr
  have hlog : r.LogPaged := fun h => absurd (hr.wal.trans hwal) h
  have hlocked : LockLevel.reserved ≤ r.wp.held := le_trans (by decide) hheld
  have hcount : Runs vacuumForCommit r
      (fun _ t => s.autoVacuum ≠ .full → t.wp.pageCount = s.wp.pageCount) (fun _ _ => True) := by
    by_cases hmode : s.autoVacuum = .full
    · exact (vacuumForCommit_runs hlocked hlog hstart).mono
        (fun _ _ _ h => absurd hmode h) (fun _ _ _ => trivial)
    have hmode' : r.autoVacuum ≠ .full := by
      unfold autoVacuum
      rw [hr.header]
      exact hmode
    refine (vacuumForCommit_pageCount hmode').mono (fun _ t ht _ => ?_) (fun _ _ _ => trivial)
    rw [ht, hr.pageCount]
  refine ((vacuumForCommit_runs hlocked hlog hstart).and hcount).bind
    (fun _ t ht => ?_) (fun _ t ht => ⟨r, hr, ht.1⟩)
  refine ((stampPage1_staged hlog ht.1.1).and (stampPage1_within (t := t))).mono
    (fun _ p hp => ?_) (fun _ p hp => ⟨r, hr, hp.1⟩)
  obtain ⟨⟨hp, hstamped, hsize⟩, hwithin⟩ := hp
  refine ⟨⟨⟨r, hr, hp.staged⟩, fun hpos hs => ?_, hstamped, hsize⟩,
    fun hmode => hp.pageCount.trans (ht.2 hmode)⟩
  rw [← hr.pageCount] at hpos
  exact hwithin (ht.1.1.positive hpos) (ht.1.2.2 hpos (hr.within hs))

def commitOps (p : PagerState) (originals : List (UInt32 × Bytes)) : List FileOp :=
  fillOps p originals ++ publishOps originals ++ flushOps p.wp ++ clearOps

theorem zero_not_staged (h : p.originals = .ok originals) : (0 : UInt32) ∉ p.wp.overlay := by
  intro hmem
  have hkey : (0 : UInt32) ∈ p.wp.overlay.keys.filter (· ≤ p.wp.diskPages) := by
    rw [mem_filter]
    exact ⟨TreeMap.mem_keys.mpr hmem, by simp⟩
  obtain ⟨page, -, hpage⟩ := forall₂_left (except_mapM_eq_ok.mp h) hkey
  cases hpage

def WritePager.flushed (wp : WritePager) (db : Bytes) : Bytes :=
  resize (writePagesTo wp.pageSize wp.overlay.toList db) (wp.pageCount.toNat * wp.pageSize) 0

theorem recordOps_file {op : FileOp} (nonce : UInt32) (pageSize : Nat)
    (records : List (UInt32 × Bytes)) (off : Nat) (hop : op ∈ recordOps nonce pageSize off records)
    : op.file = .journal := by
  induction records generalizing off with
  | nil => cases hop
  | cons head tail ih =>
    simp only [recordOps, mem_append, mem_cons, not_mem_nil, or_false] at hop
    rcases hop with (rfl | rfl | rfl) | hop
    · rfl
    · rfl
    · rfl
    · exact ih _ hop

/-- Outside its flush a commit only touches the journal. -/
theorem run_commitOps_db (p : PagerState) (originals : List (UInt32 × Bytes)) (d : Disk)
    : (d.run (commitOps p originals)).db = p.wp.flushed d.db := by
  have hfill : ∀ op ∈ fillOps p originals ++ publishOps originals, op.file ≠ .db := by
    intro op hop
    simp only [fillOps, publishOps, mem_append, mem_cons, not_mem_nil, or_false] at hop
    rcases hop with (((rfl | rfl) | hop) | rfl) | (rfl | rfl)
    · exact FileId.noConfusion
    · exact FileId.noConfusion
    · rw [recordOps_file _ _ _ _ hop]
      exact FileId.noConfusion
    · exact FileId.noConfusion
    · exact FileId.noConfusion
    · exact FileId.noConfusion
  have hkeep : ∀ d : Disk, (d.run (fillOps p originals ++ publishOps originals)).db = d.db :=
    Disk.run_read hfill
  have hclear : ∀ d : Disk, (d.run clearOps).db = d.db := fun _ => rfl
  have hflush : ∀ d : Disk, (d.run (flushOps p.wp)).db = p.wp.flushed d.db := by
    intro d
    rw [flushOps, Disk.run_append, run_pageOps]
    rfl
  unfold commitOps
  rw [Disk.run_append, hclear, Disk.run_append, hflush, hkeep]

/-- The pager `p` after all file operations of its commit, before it drops its locks. -/
def PagerState.committed (p : PagerState) (originals : List (UInt32 × Bytes)) : PagerState :=
  { vfs := (p.after (commitOps p originals)).vfs
    wp := { p.wp with
      diskPages := p.wp.pageCount
      committedHeader := p.wp.header
      overlay := ∅
      savepoints := [] } }

theorem Prepared.committed_files {s' : PagerState}
    (hp : Prepared s p) (hs' : Relocked (p.committed originals) s')
    : SameFiles (s.after (commitOps p originals)) s' := by
  simp only [SameFiles, hs'.disk, hs'.trace, PagerState.committed, PagerState.after, hp.files.1,
    hp.files.2, and_self]

/-- A commit fails before its first file operation, or performs all of them. -/
theorem commitJournal_runs (hwal : s.wp.wal = none) (hjournal : s.wp.journal = true)
    (hdirty : ¬ s.wp.overlay.isEmpty) (hpaged : s.wp.overlay.Paged s.wp.pageSize)
    : Runs commitJournal s
      (fun _ s' => ∃ p originals, prepareCommit s = .ok () p ∧ Prepared s p
        ∧ p.originals = .ok originals ∧ Relocked (p.committed originals) s'
        ∧ s'.wp.held = .unlocked)
      (fun _ => Changed s) := by
  unfold commitJournal
  rw [runs_bind]
  have hprep := prepareCommit_runs hwal hdirty hpaged
  cases hrun : prepareCommit s with
  | error e p => exact .of_error hrun (hprep.error hrun)
  | ok u p =>
    refine .of_ok hrun ?_
    have hp : Prepared s p := (hprep.ok hrun).1
    have hj : p.wp.journal = true := hp.journal.trans hjournal
    rw [runs_bind]
    cases hread : p.originals with
    | error e =>
      have hfail : journalOriginals p = .error e p := by
        rw [journalOriginals, estate_get_bind, if_pos hj, writeJournal_run, hread]
      exact .of_error hfail hp.changed
    | ok originals =>
      have hwrite : journalOriginals p
          = .ok () (p.after (fillOps p originals ++ publishOps originals)) := by
        rw [journalOriginals, estate_get_bind, if_pos hj, writeJournal_run, hread]
      refine .of_ok hwrite ?_
      rw [runs_bind]
      have hflush : (0 : UInt32) ∉ p.wp.overlay := zero_not_staged hread
      refine .of_ok (flushPages_ok hflush) ?_
      refine .bind_ok (clearJournal_ok hj) ?_
      simp only [after_wp, after_after]
      have hmode : (p.committed originals).wp.wal = none := hp.wal.trans hwal
      exact (releaseLocks_done hmode).mono
        (fun _ s' hs' => ⟨p, originals, rfl, hp, hread, hs'⟩) (fun _ _ => False.elim)

end GraphiteSql
