import GraphiteSql.Pager.CommitOps
import GraphiteSql.Pager.World

/-! Header updates of several connections in rollback-journal mode: which statements start from
the header that is on disk.
-/

namespace GraphiteSql

open Lib List PagerState WritePager LockLevel
open Std (TreeMap)

variable {s : PagerState} {h : DatabaseHeader}

-- The committed file

def diskHeader (db : Bytes) : Result DatabaseHeader := do
  DatabaseHeader.parse (← readExactAt db headerLen 0)

/-- `db` is a whole file under the header `h`. -/
structure FileUnder (h : DatabaseHeader) (db : Bytes) : Prop where
  header : diskHeader db = .ok h
  length : db.length = h.sizeInPages.toNat * h.pageSize.toNat
  positive : 1 ≤ h.sizeInPages.toNat

section File

variable {db : Bytes}

theorem FileUnder.parse (hfile : FileUnder h db)
    : ∃ head, readExactAt db headerLen 0 = .ok head ∧ DatabaseHeader.parse head = .ok h :=
  except_bind_eq_ok.mp hfile.header

theorem FileUnder.valid (hfile : FileUnder h db) : h.Valid := by
  obtain ⟨head, -, hparse⟩ := hfile.parse
  exact (DatabaseHeader.parse_ok hparse).1

theorem FileUnder.changeCounter (hfile : FileUnder h db)
    : (slice db 0 28).bind (fun hdr => be32 hdr 24) = some h.changeCounter := by
  obtain ⟨head, hread, hparse⟩ := hfile.parse
  have hslice := readExactAt_ok.mp hread
  have hcounter := be32_eq_some.mp (DatabaseHeader.parse_ok hparse).2
  have hcounter' : slice db 24 4 = some (u32ToBytes h.changeCounter) := by
    rw [slice_slice hslice (by decide)] at hcounter
    exact hcounter
  obtain ⟨hlen, -⟩ := slice_eq_some.mp hcounter'
  obtain ⟨hdr, hhdr⟩ : ∃ hdr, slice db 0 28 = some hdr := ⟨_, slice_eq_some.mpr ⟨by omega, rfl⟩⟩
  rw [hhdr, Option.bind_some, be32_eq_some, slice_slice hhdr (by decide)]
  exact hcounter'

/-- The flush leaves a whole database under the header of the commit. -/
theorem Prepared.fileUnder {p : PagerState} (hp : Prepared s p) (hvalid : p.wp.header.Valid)
    (hsize : p.wp.header.pageSize.toNat = s.wp.pageSize) (hpos : 1 ≤ p.wp.pageCount.toNat)
    (hzero : (0 : UInt32) ∉ p.wp.overlay) (db : Bytes)
    : FileUnder p.wp.header (p.wp.flushed db) := by
  have hmin : headerLen ≤ s.wp.pageSize := by
    have hmin := hvalid.minimum
    simp only [headerLen]
    omega
  have hlen : (p.wp.flushed db).length = p.wp.pageCount.toNat * s.wp.pageSize := by
    rw [flushed, resize_length, hp.pageSize]
  have hfit : s.wp.pageSize ≤ p.wp.pageCount.toNat * s.wp.pageSize := Nat.le_mul_of_pos_left _ hpos
  obtain ⟨old, page1, hwrite, hpage1⟩ := hp.stamped
  have hbytes : page1.take headerLen = p.wp.header.toBytes := by
    have holdlen : headerLen ≤ old.length := by
      rw [← writeTo_length hwrite, hp.paged 1 page1 hpage1]
      exact hmin
    rw [DatabaseHeader.writeTo_ok holdlen] at hwrite
    cases hwrite
    rw [← p.wp.header.toBytes_length, take_left]
  -- Page 1 is written once, so the file starts with it.
  have hread : ∀ i < s.wp.pageSize, (p.wp.flushed db).getD i 0 = page1.getD i 0 := by
    intro i hi
    rw [flushed, hp.pageSize, getD_resize (by omega)]
    have hpaged : ∀ page ∈ p.wp.overlay.toList, page.2.length = s.wp.pageSize := fun page hmem =>
      hp.paged page.1 page.2 (TreeMap.mem_toList_iff_getElem?_eq_some.mp hmem)
    have hpage : (writePagesTo s.wp.pageSize p.wp.overlay.toList db).getD
        (((1 : UInt32).toNat - 1) * s.wp.pageSize + i) 0 = page1.getD i 0 :=
      getD_writePagesTo_page (by omega) hpaged (fun _ => ne_zero_of_mem_toList hzero)
        (overlay_distinct _)
        (TreeMap.mem_toList_iff_getElem?_eq_some.mpr hpage1) hi
    simpa using hpage
  have hslice : slice (p.wp.flushed db) 0 headerLen = some p.wp.header.toBytes := by
    refine slice_of_getD p.wp.header.toBytes_length (by omega) 0 fun i hi => ?_
    rw [Nat.zero_add, hread i (by omega), ← hbytes, getD_eq_getElem?_getD,
      getD_eq_getElem?_getD, getElem?_take, if_pos hi]
  refine ⟨?_, by rw [hlen, hp.size, hsize], by rw [hp.size]; exact hpos⟩
  refine except_bind_eq_ok.mpr ⟨_, readExactAt_ok.mpr hslice, ?_⟩
  have hparse := DatabaseHeader.parse_toBytes_append hvalid []
  rwa [append_nil] at hparse

end File

/-- What a rollback-mode pager knows of the committed file. -/
structure Anchored (ps : Nat) (wp : WritePager) : Prop where
  rollbackMode : wp.wal = none
  journal : wp.journal = true
  pageSize : wp.pageSize = ps
  positive : 1 ≤ wp.diskPages.toNat
  valid : wp.committedHeader.Valid
  geometry : wp.committedHeader.pageSize.toNat = ps

/-- Nothing is staged. -/
structure Settled (ps : Nat) (wp : WritePager) : Prop extends Anchored ps wp where
  clean : wp.overlay.isEmpty
  header : wp.header = wp.committedHeader
  pages : wp.pageCount = wp.diskPages

/-- Nothing is staged and no lock is held. -/
structure Idle (ps : Nat) (wp : WritePager) : Prop extends Settled ps wp where
  unlocked : wp.held = .unlocked

section Connections

variable {ps : Nat} {t : PagerState}

theorem Anchored.congr {wp wp' : WritePager} (h : Anchored ps wp) (hwal : wp'.wal = wp.wal)
    (hjournal : wp'.journal = wp.journal) (hsize : wp'.pageSize = wp.pageSize)
    (hpages : wp'.diskPages = wp.diskPages) (hheader : wp'.committedHeader = wp.committedHeader)
    : Anchored ps wp' :=
  ⟨hwal.trans h.rollbackMode, hjournal.trans h.journal, hsize.trans h.pageSize, hpages ▸ h.positive,
    hheader ▸ h.valid, hheader ▸ h.geometry⟩

theorem Anchored.changed (hs : Anchored ps s.wp) (h : Changed s t) : Anchored ps t.wp :=
  hs.congr h.wal h.journal h.pageSize h.diskPages h.committedHeader

theorem Relocked.committedHeader (h : Relocked s t)
    : t.wp.committedHeader = s.wp.committedHeader := by
  rw [h]; rfl

theorem Anchored.relocked (hs : Anchored ps s.wp) (h : Relocked s t) : Anchored ps t.wp :=
  hs.congr h.wal h.journal h.pageSize h.diskPages h.committedHeader

theorem Settled.relocked (hs : Settled ps s.wp) (h : Relocked s t) : Settled ps t.wp where
  toAnchored := hs.toAnchored.relocked h
  clean := by rw [h.overlay]; exact hs.clean
  header := by rw [h.header, h.committedHeader]; exact hs.header
  pages := by rw [h.pageCount, h.diskPages]; exact hs.pages

theorem rollback_idle (hs : Anchored ps s.wp)
    : Runs rollback s (fun _ t => t.vfs.disk = s.vfs.disk ∧ Idle ps t.wp) (fun _ _ => False) := by
  unfold rollback
  rw [runs_bind, modifyWp, runs_modify, hs.rollbackMode]
  refine (releaseLocks_done (by rfl)).mono (fun _ t ht => ?_) (fun _ _ => id)
  refine ⟨ht.1.disk, Settled.relocked ?_ ht.1, ht.2⟩
  have hanchored : Anchored ps { s.wp with wal := none } := { hs with rollbackMode := rfl }
  exact ⟨{ hanchored with }, TreeMap.isEmpty_emptyc, rfl, rfl⟩

end Connections

/-- The pager has the header and the size that `h` records. -/
structure Synced (h : DatabaseHeader) (wp : WritePager) : Prop where
  header : wp.header = h
  pages : wp.diskPages = h.sizeInPages

section Begin

variable {t : PagerState}

theorem mainFilePageCount_fileUnder (hfile : FileUnder h s.vfs.disk.db)
    (hsize : s.wp.pageSize = h.pageSize.toNat) : s.mainFilePageCount = some h.sizeInPages := by
  have hpos : 0 < h.pageSize.toNat := Nat.lt_of_lt_of_le (by decide) hfile.valid.minimum
  unfold mainFilePageCount
  rw [hsize, hfile.length, Nat.mul_mod_left, Nat.mul_div_cancel _ hpos, if_neg (by omega)]
  simp

theorem Synced.relocked (hs : Synced h s.wp) (hrel : Relocked s t) : Synced h t.wp where
  header := by rw [hrel.header]; exact hs.header
  pages := by rw [hrel.diskPages]; exact hs.pages

/-- The refresh compares change counters; it adopts the header on disk when they differ. -/
theorem refreshForeignState_settled (hs : Settled h.pageSize.toNat s.wp)
    (hfile : FileUnder h s.vfs.disk.db)
    : Runs refreshForeignState s
      (fun _ t => t.vfs = s.vfs ∧ Settled h.pageSize.toNat t.wp ∧ t.wp.held = s.wp.held
        ∧ (Synced h s.wp ∨ h.changeCounter ≠ s.wp.header.changeCounter → Synced h t.wp))
      (fun _ _ => False) := by
  have hcounter : s.diskChangeCounter = some h.changeCounter := by
    have hpages : s.wp.diskPages ≠ 0 := by
      intro h0
      have hpos := hs.positive
      rw [h0] at hpos
      exact absurd hpos (by decide)
    rw [diskChangeCounter, if_neg hpages, hfile.changeCounter]
  unfold refreshForeignState
  rw [runs_get_bind, hs.clean, hs.header]
  simp only [Bool.not_true, ne_eq, not_true_eq_false, decide_false, Bool.or_self, hs.rollbackMode,
    hcounter, Bool.false_eq_true, if_false]
  split_ifs with hsame
  · refine ⟨rfl, hs, rfl, ?_⟩
    rintro (hsync | hdiff)
    · exact hsync
    · exact absurd hsame hdiff
  obtain ⟨head, hread, hparse⟩ := hfile.parse
  rw [runs_lift_bind]
  refine ⟨fun head' hread' => ?_, fun e he => by rw [hread] at he; cases he⟩
  rw [hread] at hread'
  cases hread'
  rw [runs_lift_bind]
  refine ⟨fun h' hparse' => ?_, fun e he => by rw [hparse] at he; cases he⟩
  rw [hparse] at hparse'
  cases hparse'
  rw [mainFilePageCount_fileUnder hfile hs.pageSize]
  refine ⟨rfl, ?_, rfl, fun _ => ⟨rfl, rfl⟩⟩
  exact {
    rollbackMode := hs.rollbackMode
    journal := hs.journal
    pageSize := hs.pageSize
    positive := hfile.positive
    valid := hfile.valid
    geometry := rfl
    clean := hs.clean
    header := rfl
    pages := rfl }

theorem ensureShared_idle (hs : s.wp.held = .unlocked)
    : Runs ensureShared s (fun _ r => Relocked s r ∧ r.wp.held = .shared)
      (fun _ => Relocked s) := by
  unfold ensureShared
  rw [runs_get_bind, hs, if_pos (by decide)]
  refine (lock_relocked _ s (Relocked.refl s)).seq fun _ r hr => ?_
  exact ⟨setHeld_relocked _ r hr, rfl⟩

/-- A write statement starts from the header on disk, if the connection was in step with it or
can see by the change counter that it was not.
-/
theorem beginWrite_idle (hs : Idle h.pageSize.toNat s.wp) (hfile : FileUnder h s.vfs.disk.db)
    : Runs beginWrite s
      (fun _ t => t.vfs.disk = s.vfs.disk ∧ Settled h.pageSize.toNat t.wp
        ∧ reserved ≤ t.wp.held
        ∧ (Synced h s.wp ∨ h.changeCounter ≠ s.wp.header.changeCounter → Synced h t.wp))
      (fun _ t => t.vfs.disk = s.vfs.disk ∧ Anchored h.pageSize.toNat t.wp) := by
  have hrel : ∀ r, Relocked s r → r.vfs.disk = s.vfs.disk ∧ Anchored h.pageSize.toNat r.wp :=
    fun r hr => ⟨hr.disk, hs.toAnchored.relocked hr⟩
  have hundo : Maintains (Relocked s)
      (if s.wp.held = .unlocked then releaseLocks else pure ()) := by
    rw [if_pos hs.unlocked]
    exact releaseLocks_relocked hs.rollbackMode
  refine (ensureShared_idle hs.unlocked).bind (fun _ r hr => ?_) (fun _ => hrel)
  unfold ensureReserved
  rw [runs_get_bind, if_pos (by rw [hr.2]; decide), runs_bind]
  refine (maintains_onError (lock_relocked _) hundo r hr.1).mono (fun _ q hq => ?_) (fun _ => hrel)
  have hlocked : Relocked s
      { q with wp := { q.wp with held := .reserved, readCacheToken := none } } := by
    rw [hq]
    rfl
  refine runs_onError ((refreshForeignState_settled (hs.toSettled.relocked hlocked) ?_).mono
    (fun _ t ht => ?_) (fun _ _ => id)) (fun _ _ => False.elim)
  · rw [hlocked.disk]
    exact hfile
  obtain ⟨hvfs, hsettled, hheld, hsync⟩ := ht
  refine ⟨by rw [hvfs]; exact hlocked.disk, hsettled, by rw [hheld], fun hcase => hsync ?_⟩
  rcases hcase with hsame | hdiff
  · exact .inl (hsame.relocked hlocked)
  · exact .inr (by rw [hlocked.header]; exact hdiff)

end Begin

-- Staging changes

/-- What is staged are whole pages under a valid header. -/
structure Pending (ps : Nat) (wp : WritePager) : Prop extends Anchored ps wp where
  paged : ∀ (n : UInt32) (b : Bytes), wp.overlay[n]? = some b → b.length = ps
  headerValid : wp.header.Valid
  headerSize : wp.header.pageSize.toNat = ps
  count : 1 ≤ wp.pageCount.toNat
  untouched : wp.overlay.isEmpty → Settled ps wp

section Change

variable {ps : Nat} {t : PagerState}

theorem pageOp_maintains (locked : reserved ≤ s.wp.held) (op : PageOp)
    : Maintains (Staged s) op.run := by
  cases op with
  | write number bytes => exact writePage_keeps (staged_invariant locked).rules number bytes
  | allocate => exact (allocatePage_maintains locked).bind fun _ => .pure _
  | free page => exact freePage_keeps (staged_invariant locked).rules page

def Dirty (s : PagerState) : Prop := ¬ s.wp.overlay.isEmpty

theorem dirty_insert (header : DatabaseHeader) (n : UInt32) (b : Bytes)
    (pageCount : UInt32) : Dirty (s.restage header (s.wp.overlay.insert n b) pageCount) := by
  simp [Dirty, restage]

theorem writePage_dirty (n : UInt32) (b : Bytes) : Ensures Dirty (writePage n b) := by
  refine .bind fun s => ?_
  split
  · exact .throw _
  · refine .bind fun _ => .modify fun t => ?_
    exact dirty_insert t.wp.header n b t.wp.pageCount

theorem countFreed_dirty (change : DatabaseHeader → DatabaseHeader) (hs : Dirty s)
    : Runs (countFreed change) s (fun _ => Dirty) (fun _ _ => True) := by
  unfold countFreed
  rw [runs_get_bind, runs_lift_bind]
  exact ⟨fun _ _ => hs, fun _ _ => trivial⟩

theorem freeAsTrunk_dirty (page trunk : UInt32) : Ensures Dirty (freeAsTrunk page trunk) := by
  refine .bind fun s => .bind fun nb => .bind fun nb => ?_
  exact (writePage_dirty page nb).bind_keeps fun _ t ht => countFreed_dirty _ ht

theorem freeAsLeaf_dirty (page trunk leafCount : UInt32) (tbytes : Bytes)
    : Ensures Dirty (freeAsLeaf page trunk leafCount tbytes) := by
  refine .bind fun tbytes => .bind fun tbytes => ?_
  refine (writePage_dirty trunk tbytes).bind_keeps fun _ t ht => ?_
  unfold scrub
  rw [runs_bind, runs_get_bind]
  dsimp only
  split
  · exact (writePage_dirty page _ t).mono (fun _ u hu => countFreed_dirty _ hu) (fun _ _ => id)
  · exact countFreed_dirty _ ht

theorem freePage_dirty (page : UInt32) : Ensures Dirty (freePage page) := by
  refine .bind fun _ => .bind fun s => ?_
  dsimp only
  split
  · exact freeAsTrunk_dirty page _
  refine .bind fun tbytes => .bind fun leafCount => ?_
  split
  · exact freeAsLeaf_dirty page _ leafCount tbytes
  · exact freeAsTrunk_dirty page _

theorem allocatePage_dirty : Ensures Dirty allocatePage := by
  have hextend : ∀ room, Ensures Dirty (extendFile room) := by
    intro room
    induction room with
    | zero => exact .throw _
    | succ room ih =>
      refine .bind fun s => ?_
      refine .bind_keeps (Ensures.modify fun t => dirty_insert _ _ _ _) fun _ t ht => ?_
      split
      · exact ih t
      · exact ht
  have hreuse : Ensures Dirty allocFromFreelist := by
    refine .bind fun s => .bind fun tbytes => .bind fun leafCount => ?_
    split
    · refine .bind fun leaf => .bind fun tbytes => .bind fun _ => ?_
      refine .bind fun t => .bind fun count => ?_
      exact .bind_keeps (Ensures.modify fun t => dirty_insert _ _ _ _) fun _ _ => id
    · refine .bind fun next => .bind fun t => .bind fun count => ?_
      exact .bind_keeps (Ensures.modify fun t => dirty_insert _ _ _ _) fun _ _ => id
  refine .bind fun _ => .bind fun s => ?_
  split
  · exact hreuse
  · exact hextend _

theorem pageOp_dirty (op : PageOp) : Ensures Dirty op.run := by
  cases op with
  | write number bytes => exact writePage_dirty number bytes
  | allocate => exact allocatePage_dirty.bind_keeps fun _ _ => id
  | free page => exact freePage_dirty page

theorem pageOps_dirty (ops : List PageOp) (s : PagerState)
    : Runs (ops.forM PageOp.run) s (fun _ t => t = s ∨ Dirty t) (fun _ _ => True) := by
  induction ops generalizing s with
  | nil => exact .inl rfl
  | cons op rest ih =>
    refine (pageOp_dirty op s).seq fun _ t ht => ?_
    refine (ih t).mono (fun _ u hu => ?_) (fun _ _ => id)
    rcases hu with rfl | hu
    · exact .inr ht
    · exact .inr hu

theorem Settled.pending (hs : Settled ps s.wp) : Pending ps s.wp where
  toAnchored := hs.toAnchored
  paged := fun n b hb => by
    rw [TreeMap.getElem?_of_isEmpty hs.clean] at hb
    cases hb
  headerValid := by rw [hs.header]; exact hs.valid
  headerSize := by rw [hs.header]; exact hs.geometry
  count := by rw [hs.pages]; exact hs.positive
  untouched := fun _ => hs

/-- The calls of a page-writing statement leave the committed state alone. -/
theorem pageOps_pending (hs : Settled ps s.wp) (locked : reserved ≤ s.wp.held)
    (ops : List PageOp)
    : Runs (ops.forM PageOp.run) s
      (fun _ t => t.vfs.disk = s.vfs.disk ∧ Pending ps t.wp)
      (fun _ t => t.vfs.disk = s.vfs.disk ∧ Anchored ps t.wp) := by
  have hpaged : s.wp.overlay.Paged s.wp.pageSize := by
    rw [hs.pageSize]
    exact hs.pending.paged
  have hmaintains : Maintains (Staged s) (ops.forM PageOp.run) :=
    Maintains.forM fun op _ => pageOp_maintains locked op
  have hchanged : ∀ t, Staged s t → Changed s t := fun t ht => ⟨s, Relocked.refl s, ht⟩
  refine ((hmaintains s (Staged.refl hpaged)).and (pageOps_dirty ops s)).mono
    (fun _ t ht => ?_) (fun _ t ht => ?_)
  · obtain ⟨hstaged, hdirty⟩ := ht
    have hlayout := hstaged.layout
    refine ⟨by rw [hstaged.vfs], ?_⟩
    exact {
      toAnchored := hs.toAnchored.changed (hchanged t hstaged)
      paged := by rw [← hs.pageSize]; exact hstaged.paged
      headerValid := hs.pending.headerValid.of_layout hlayout
      headerSize := by
        have hsize : t.wp.header.layout.pageSize = s.wp.header.layout.pageSize := by rw [hlayout]
        exact (congrArg UInt32.toNat hsize).trans hs.pending.headerSize
      count := hstaged.positive hs.pending.count
      untouched := by
        rcases hdirty with rfl | hdirty
        · exact fun _ => hs
        · exact fun hempty => absurd hempty hdirty }
  · exact ⟨by rw [ht.1.vfs], hs.toAnchored.changed (hchanged t ht.1)⟩

/-- A header-only change stages page 1 and takes no lock. -/
theorem headerMut_pending (hs : Settled h.pageSize.toNat s.wp)
    (hfile : FileUnder h s.vfs.disk.db) {change : DatabaseHeader → DatabaseHeader}
    (hvalid : ∀ h : DatabaseHeader, h.Valid → (change h).Valid)
    (hsize : ∀ h, (change h).pageSize = h.pageSize)
    : Runs (headerMut change) s
      (fun _ t => t.vfs.disk = s.vfs.disk ∧ Pending h.pageSize.toNat t.wp) (fun _ _ => False) := by
  obtain ⟨page, hread⟩ : ∃ page, s.readDisk 1 = .ok page := by
    have hfit : h.pageSize.toNat ≤ s.vfs.disk.db.length := by
      rw [hfile.length]
      exact Nat.le_mul_of_pos_left _ hfile.positive
    refine ⟨_, readExactAt_ok.mpr (slice_eq_some.mpr ⟨?_, rfl⟩)⟩
    rw [hs.pageSize]
    simpa using hfit
  have hpage : s.readPage 1 = .ok page := by
    have hrange : ¬ ((1 : UInt32) = 0 ∨ s.wp.diskPages < 1) := by
      rintro (h0 | hlt)
      · cases h0
      · have hpos := hs.positive
        exact absurd hlt (Nat.not_lt.mpr hpos)
    rw [PagerState.readPage, TreeMap.getElem?_of_isEmpty hs.clean, hs.rollbackMode]
    simp only [if_neg hrange, hread]
  have htouch : touchPage1 s
      = .ok () (s.restage s.wp.header (s.wp.overlay.insert 1 page) s.wp.pageCount) := by
    unfold touchPage1
    rw [estate_get_bind, TreeMap.contains_of_isEmpty hs.clean]
    simp only [hpage]
    rfl
  refine .bind_ok htouch ⟨rfl, ?_⟩
  have hpaged : page.length = h.pageSize.toNat := by
    rw [← hs.pageSize]
    exact readExactAt_length hread
  exact { hs with
    paged := fun n b hb => by
      simp only [restage, TreeMap.getElem?_insert] at hb
      split at hb
      · cases hb
        exact hpaged
      · exact hs.pending.paged n b hb
    headerValid := hvalid _ hs.pending.headerValid
    headerSize := (congrArg UInt32.toNat (hsize _)).trans hs.pending.headerSize
    count := hs.pending.count
    untouched := fun hempty => absurd hempty (dirty_insert s.wp.header 1 page s.wp.pageCount) }

end Change

end GraphiteSql
