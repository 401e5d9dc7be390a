import GraphiteSql.Pager.Rollback
import GraphiteSql.Pager.WalCommit

/-! Every commit that writes something leaves the pager at a commit point, in both journal modes. -/

namespace GraphiteSql

open Lib List PagerState WritePager LockLevel
open Std (TreeMap)

variable {pages : List (UInt32 × Bytes)} {p b : PagerState}

section Release

variable {x c : PagerState}

/-- What `AtCommit` depends on. -/
theorem AtCommit.restorable (h : AtCommit x) (hc : Restorable x c)
    (hheader : c.wp.header = x.wp.header) (hcount : c.wp.pageCount = x.wp.pageCount)
    (hover : c.wp.overlay = x.wp.overlay) : AtCommit c := by
  have hclean : c.wp.overlay.isEmpty = true := by
    rw [hover]
    exact h.clean
  have hindex : c.vfs.index.snapshot = x.vfs.index.snapshot := by
    rw [hc.index]
    rfl
  exact {
    header := by rw [hheader, hc.committedHeader, h.header]
    pages := by
      rw [hcount, h.pages]
      unfold committedPages
      cases hwal : c.wp.wal with
      | none => rw [hc.wal_none.mp hwal, hc.diskPages hwal]
      | some w =>
        obtain ⟨v, hv, -, hsize⟩ := hc.wal_some hwal
        rw [hv]
        exact hsize
    clean := hclean
    counter := fun hwal counter hcounter => by
      rw [hc.diskChangeCounter hwal] at hcounter
      rw [hc.committedHeader]
      exact h.counter (hc.wal_none.mp hwal) counter hcounter
    filePages := fun hwal n hn => by
      rw [hc.mainFilePageCount] at hn
      rw [hc.diskPages hwal]
      exact h.filePages (hc.wal_none.mp hwal) n hn
    newest := fun w hwal => by
      obtain ⟨v, hv, hsnap, -⟩ := hc.wal_some hwal
      rw [hindex, ← hsnap, h.newest v hv]
    size := fun w hwal => by
      obtain ⟨v, hv, -, hsize⟩ := hc.wal_some hwal
      rw [hc.index, ← hsize]
      exact h.size v hv
    page1 := fun hwal page hdr hread hparse => by
      rw [hc.readPage (TreeMap.getElem?_of_isEmpty h.clean) (TreeMap.getElem?_of_isEmpty hclean)]
        at hread
      rw [hc.committedHeader]
      exact h.page1 (fun hnone => hwal (hc.wal_none.mpr hnone)) page hdr hread hparse }

theorem releaseLocks_level (h : x.InStep ∨ x.wp.held ≠ .unlocked)
    : Ends releaseLocks x PagerState.InStep := by
  rcases h with hstep | hheld
  · exact endTxn_inStep.1 x hstep
  have hunpin : Maintains (fun t => t.wp.held = x.wp.held) unpin := by
    refine .get_bind fun t ht => ?_
    split <;> exact ht
  unfold releaseLocks
  rw [Ends, runs_bind, modifyWp, runs_modify, runs_bind]
  let x' : PagerState := { x with wp := { x.wp with readTxn := false } }
  obtain ⟨t, ht⟩ := unpin_succeeds x'
  have hkept : t.wp.held = x.wp.held := (hunpin x' rfl).ok ht
  refine .of_ok ht ?_
  rw [runs_get_bind, if_pos (by rw [hkept]; exact hheld)]
  exact dropLock_inStep t

theorem releaseLocks_commitPoint (h : AtCommit x) (hlevel : x.InStep ∨ x.wp.held ≠ .unlocked)
    : Runs releaseLocks x (fun _ => CommitPoint) (fun _ _ => False) := by
  have hend := ((releaseLocks_frame x x ⟨rfl, rfl, rfl, rfl⟩).and
    (endTxn_restorable.1 x (Restorable.refl x))).and
      ((releaseLocks_ended x).and (releaseLocks_level hlevel))
  refine hend.mono (fun _ c hc => ?_) (fun _ _ hc => hc.2.1)
  obtain ⟨⟨⟨hheader, hcount, hover, -⟩, hrest⟩, ⟨hpin, hheld⟩, hstep⟩ := hc
  exact {
    toAtCommit := h.restorable hrest hheader hcount hover
    unlocked := hheld
    level := hstep.trans hheld
    unpinned := hpin }

end Release

theorem writeTo_counter {h : DatabaseHeader} {old page : Bytes} (hw : h.writeTo old = .ok page)
    : headerLen ≤ page.length ∧ be32 page 24 = some h.changeCounter := by
  unfold DatabaseHeader.writeTo at hw
  dsimp only at hw
  split_ifs at hw with hlen
  cases hw
  refine ⟨by rw [length_append]; exact Nat.le_add_right _ _, ?_⟩
  exact beU32_ok.mp (h.be32_toBytes _ 8 24 h.changeCounter rfl rfl)

theorem getD_writePagesTo_low {ps i : Nat} (hi : i < ps)
    (hlow : ∀ page ∈ pages, 2 ≤ page.1.toNat) (db : Bytes)
    : (writePagesTo ps pages db).getD i 0 = db.getD i 0 := by
  induction pages generalizing db with
  | nil => rfl
  | cons head tail ih =>
    have hhead := hlow head mem_cons_self
    have hoff : ps ≤ (head.1.toNat - 1) * ps := Nat.le_mul_of_pos_left ps (by omega)
    have hstep : (writeAt db ((head.1.toNat - 1) * ps) head.2 0).getD i 0 = db.getD i 0 :=
      getD_writeAt_outside (Or.inl (by omega))
    exact (ih (fun page hmem => hlow page (mem_cons_of_mem _ hmem)) _).trans hstep

/-- The file starts with page 1 of the commit. -/
theorem getD_writePagesTo_first {ps i : Nat} (hi : i < ps)
    (hpos : ∀ page ∈ pages, page.1 ≠ 0) (hdistinct : pages.Pairwise fun a b => a.1 ≠ b.1)
    {page1 : Bytes} (hmem : (1, page1) ∈ pages) (hlen : i < page1.length) (db : Bytes)
    : (writePagesTo ps pages db).getD i 0 = page1.getD i 0 := by
  induction pages generalizing db with
  | nil => cases hmem
  | cons head tail ih =>
    obtain ⟨hhead, htail⟩ := pairwise_cons.mp hdistinct
    have hpos' := fun page hp => hpos page (mem_cons_of_mem head hp)
    rcases mem_cons.mp hmem with rfl | hmem
    · have hlow : ∀ page ∈ tail, 2 ≤ page.1.toNat := by
        intro page hp
        have hzero : page.1.toNat ≠ 0 := fun h => hpos' page hp (UInt32.toNat_inj.mp h)
        have hone : page.1.toNat ≠ 1 := fun h => hhead page hp (UInt32.toNat_inj.mp h).symm
        omega
      refine (getD_writePagesTo_low hi hlow _).trans ?_
      have hinside : (writeAt db 0 page1 0).getD (0 + i) 0 = page1.getD i 0 :=
        getD_writeAt_inside hlen
      simpa using hinside
    · exact ih hpos' htail hmem _

def PagerState.Stamped (p : PagerState) : Prop :=
  ∃ old page1, p.wp.header.writeTo old = .ok page1 ∧ p.wp.overlay[(1 : UInt32)]? = some page1

theorem stampPage1_stamped {inv : PagerState → Prop} {s : PagerState}
    (hinv : ∀ header overlay, inv (s.restage header overlay s.wp.pageCount))
    : Runs stampPage1 s (fun _ p => inv p ∧ p.Stamped) (fun _ _ => True) :=
  stampPage1_runs (fun p p' _ hp' => ⟨hinv _ _, p, p', hp', TreeMap.getElem?_insert_self⟩)
    (fun _ => trivial)

-- Rollback-journal mode

/-- The change counter in the file is the one of the header that was flushed. -/
theorem flushed_counter (hps : headerLen ≤ p.wp.pageSize) (stamped : p.Stamped)
    (hzero : (0 : UInt32) ∉ p.wp.overlay) (hcount : p.wp.pageCount ≠ 0) (db : Bytes)
    : be32 (p.wp.flushed db) 24 = some p.wp.header.changeCounter := by
  obtain ⟨old, page1, hw, hpage1⟩ := stamped
  obtain ⟨hlen, hcounter⟩ := writeTo_counter hw
  have hpos : p.wp.pageCount.toNat ≠ 0 := fun h => hcount (UInt32.toNat_inj.mp h)
  have hfit : p.wp.pageSize ≤ p.wp.pageCount.toNat * p.wp.pageSize :=
    Nat.le_mul_of_pos_left _ (by omega)
  have hheader : headerLen = 100 := rfl
  have hlength : (p.wp.flushed db).length = p.wp.pageCount.toNat * p.wp.pageSize :=
    resize_length
  refine be32_eq_some.mpr (slice_of_getD rfl (by omega) 0 fun i hi => ?_)
  rw [slice_getD (be32_eq_some.mp hcounter) hi 0, flushed, getD_resize (by omega)]
  exact getD_writePagesTo_first (by omega) (fun _ => ne_zero_of_mem_toList hzero)
    (overlay_distinct _) (TreeMap.mem_toList_iff_getElem?_eq_some.mpr hpage1) (by omega) db

theorem writePages_zero {s t : PagerState}
    (h : writePages pages s = .ok () t) : ∀ page ∈ pages, page.1 ≠ 0 := by
  induction pages generalizing s with
  | nil => exact nofun
  | cons head tail ih =>
    obtain ⟨n, bytes⟩ := head
    unfold writePages at h
    rw [estate_get_bind] at h
    by_cases hn : n = 0
    · rw [pageOffset, if_pos hn] at h
      cases h
    · rw [pageOffset, if_neg hn] at h
      exact forall_mem_cons.mpr ⟨hn, ih h⟩

/-- A flush that succeeds leaves the flushed file behind. -/
theorem flushPages_flushed (p : PagerState)
    : Runs flushPages p
      (fun _ q => q.wp = p.wp ∧ (0 : UInt32) ∉ p.wp.overlay
        ∧ q.vfs.disk.db = p.wp.flushed p.vfs.disk.db)
      (fun _ _ => True) := by
  cases hflush : flushPages p with
  | error e q => exact .of_error hflush trivial
  | ok u q =>
    have hzero : (0 : UInt32) ∉ p.wp.overlay := by
      unfold flushPages at hflush
      rw [estate_get_bind] at hflush
      obtain ⟨_, r, hwrite, -⟩ := estate_bind_eq_ok.mp hflush
      intro hmem
      obtain ⟨b, hb⟩ := Option.isSome_iff_exists.mp (TreeMap.mem_iff_isSome_getElem?.mp hmem)
      exact writePages_zero hwrite _ (TreeMap.mem_toList_iff_getElem?_eq_some.mpr hb) rfl
    refine .of_ok (flushPages_ok hzero) ⟨rfl, hzero, ?_⟩
    show (p.vfs.disk.run (flushOps p.wp)).db = _
    rw [flushOps, Disk.run_append, run_pageOps]
    rfl

theorem journalOriginals_wp (p : PagerState)
    : Runs journalOriginals p (fun _ q => q.wp = p.wp) (fun _ _ => True) := by
  unfold journalOriginals
  rw [runs_get_bind]
  split
  · unfold Runs
    rw [writeJournal_run]
    cases p.originals with
    | ok originals => rfl
    | error e => trivial
  · rfl

theorem clearJournal_wp (p : PagerState)
    : Runs clearJournal p (fun _ q => q.wp = p.wp ∧ q.vfs.disk.db = p.vfs.disk.db)
      (fun _ _ => False) := by
  unfold clearJournal
  rw [runs_get_bind]
  split
  · exact ⟨rfl, rfl⟩
  · exact ⟨rfl, rfl⟩

/-- `p` may write the journal of a transaction on `b`. -/
structure JournalReady (b p : PagerState) : Prop where
  wal : p.wp.wal = none
  pageSize : p.wp.pageSize = b.wp.pageSize
  held : LockLevel.exclusive ≤ p.wp.held

theorem prepareCommit_ready (hmode : b.wp.wal = none) (dirty : ¬ b.wp.overlay.isEmpty)
    : Runs prepareCommit b (fun _ p => JournalReady b p ∧ p.Stamped) (fun _ _ => True) := by
  refine (acquireExclusive_relocked hmode dirty (Relocked.refl b)).bind (fun _ r hr => ?_)
    (fun _ _ _ => trivial)
  have hstart : JournalReady b r := ⟨hr.1.wal.trans hmode, hr.1.pageSize, hr.2⟩
  have keeps : IgnoresStaging (JournalReady b) := {
    acquire := fun s hs => .of_ok (acquireWriteIntent_held (le_trans (by decide) hs.held)) hs
    restage := fun _ _ _ _ hs => { hs with } }
  refine (vacuumForCommit_ignored keeps r hstart).bind (fun _ s hs => ?_) (fun _ _ _ => trivial)
  exact stampPage1_stamped fun _ _ => { hs with }

/-- The pager between the flush of `p` and the release of its locks. -/
def PagerState.journalCommitted (p q : PagerState) : PagerState :=
  { q with wp := { p.wp with
      diskPages := p.wp.pageCount
      committedHeader := p.wp.header
      overlay := ∅
      savepoints := [] } }

theorem journalCommitted_atCommit {q : PagerState} (hps : headerLen ≤ b.wp.pageSize)
    (ready : JournalReady b p) (stamped : p.Stamped) (hzero : (0 : UInt32) ∉ p.wp.overlay)
    {db : Bytes} (hdb : q.vfs.disk.db = p.wp.flushed db) : AtCommit (p.journalCommitted q) := by
  have hsize : headerLen ≤ p.wp.pageSize := by
    rw [ready.pageSize]
    exact hps
  have hwal : (p.journalCommitted q).wp.wal = none := ready.wal
  exact {
    header := rfl
    pages := by
      unfold committedPages
      rw [hwal]
      rfl
    clean := TreeMap.isEmpty_emptyc
    counter := fun _ counter hcounter => by
      unfold diskChangeCounter at hcounter
      split_ifs at hcounter with hcount
      obtain ⟨hdr, hslice, hread⟩ := Option.bind_eq_some_iff.mp hcounter
      have hhead : slice q.vfs.disk.db 24 4 = some (u32ToBytes counter) := by
        have hfield := be32_eq_some.mp hread
        rw [slice_slice hslice (by decide)] at hfield
        exact hfield
      have hflush := flushed_counter hsize stamped hzero hcount db
      rw [← hdb, be32_eq_some.mpr hhead] at hflush
      exact Option.some.inj hflush
    filePages := fun _ n hn => by
      have hlen : q.vfs.disk.db.length = p.wp.pageCount.toNat * p.wp.pageSize := by
        rw [hdb]
        exact resize_length
      have hcount : (p.journalCommitted q).mainFilePageCount = some p.wp.pageCount :=
        mainFilePageCount_eq (Nat.lt_of_lt_of_le (by decide) hsize) hlen
      rw [hcount] at hn
      exact (Option.some.inj hn).symm
    newest := fun w h => by rw [hwal] at h; cases h
    size := fun w h => by rw [hwal] at h; cases h
    page1 := fun h => absurd hwal h }

theorem commitJournal_commitPoint (hmode : b.wp.wal = none)
    (hps : headerLen ≤ b.wp.pageSize) (dirty : ¬ b.wp.overlay.isEmpty)
    : Runs commitJournal b (fun _ => CommitPoint) (fun _ _ => True) := by
  refine (prepareCommit_ready hmode dirty).seq fun _ p hp => ?_
  obtain ⟨ready, stamped⟩ := hp
  refine (journalOriginals_wp p).seq fun _ p₁ hp₁ => ?_
  refine (flushPages_flushed p₁).seq fun _ p₂ hp₂ => ?_
  obtain ⟨hwp₂, hzero, hdb⟩ := hp₂
  rw [hp₁] at hwp₂ hzero hdb
  refine (clearJournal_wp p₂).bind (fun _ q hq => ?_) (fun _ _ => False.elim)
  rw [runs_bind, modifyWp, runs_modify]
  have hwp : q.wp = p.wp := hq.1.trans hwp₂
  have hpoint := journalCommitted_atCommit hps ready stamped hzero (hq.2.trans hdb)
  have hend := releaseLocks_commitPoint hpoint (Or.inr fun hheld => ?_)
  · rw [hwp]
    exact hend.mono (fun _ _ => id) (fun _ _ => False.elim)
  · have hlocked : exclusive ≤ unlocked := hheld ▸ ready.held
    exact absurd hlocked (by decide)

-- WAL mode

theorem inStep_ignoresStaging : IgnoresStaging PagerState.InStep where
  acquire := acquireWriteIntent_inStep
  restage := fun _ _ _ _ hs => hs

theorem prepareWal_ready (positive : 1 ≤ b.wp.pageCount.toNat) (hstep : b.InStep)
    : Runs prepareWal b (fun _ p => (1 ≤ p.wp.pageCount.toNat ∧ p.InStep) ∧ p.Stamped)
      (fun _ _ => True) := by
  refine ((vacuumForCommit_positive positive).and
    (vacuumForCommit_ignored inStep_ignoresStaging b hstep)).bind (fun _ s hs => ?_)
    (fun _ _ _ => trivial)
  exact stampPage1_stamped fun _ _ => hs

theorem appended_atCommit (w : WalRuntime) (positive : 1 ≤ p.wp.pageCount.toNat)
    (stamped : p.Stamped) : AtCommit (p.appended w) := by
  obtain ⟨old, page1, hw, hpage1⟩ := stamped
  have hmem : (1, page1) ∈ p.wp.overlay.toList := TreeMap.mem_toList_iff_getElem?_eq_some.mpr hpage1
  have happends := appendedIndex_appends p w (ne_nil_of_mem hmem)
  have htake : (p.appendedIndex w).log.take (p.appendedIndex w).mxFrame
      = (p.appendedIndex w).log := by
    rw [happends.mxFrame, ← happends.log]
    exact take_length
  have hcount : p.wp.pageCount ≠ 0 := fun h => by
    rw [h] at positive
    exact absurd positive (by decide)
  have hwal : (p.appended w).wp.wal ≠ none := nofun
  exact {
    header := rfl
    pages := rfl
    clean := TreeMap.isEmpty_emptyc
    counter := fun h => absurd h hwal
    filePages := fun h => absurd h hwal
    newest := fun w' h => by
      cases h
      rfl
    size := fun w' h => by
      cases h
      show (p.appendedIndex w).snapshotDbSize (p.appendedIndex w).mxFrame = some p.wp.pageCount
      rw [snapshotDbSize_eq, htake, happends.log]
      exact lastSize_commit hcount _ (ne_nil_of_mem hmem)
    page1 := fun _ page hdr hread hparse => by
      have hfind : (p.appendedIndex w).findFrame 1 (p.appendedIndex w).mxFrame = some page1 := by
        rw [findFrame_eq, htake, happends.log, newest_append,
          newest_commitFrames (overlay_distinct _) hmem]
        rfl
      have hpage : (p.appended w).readPage 1 = .ok page1 := by
        unfold PagerState.readPage
        rw [show (p.appended w).wp.overlay[(1 : UInt32)]? = none from
          TreeMap.getElem?_of_isEmpty TreeMap.isEmpty_emptyc]
        dsimp only [appended, WalIndex.snapshot]
        rw [hfind]
      rw [hpage] at hread
      cases hread
      have hcounter := (DatabaseHeader.parse_ok hparse).2
      rw [(writeTo_counter hw).2] at hcounter
      exact (Option.some.inj hcounter).symm }

theorem commitWal_commitPoint (positive : 1 ≤ b.wp.pageCount.toNat)
    (hstep : b.InStep) : Runs commitWal b (fun _ => CommitPoint) (fun _ _ => True) := by
  rw [commitWal_eq]
  refine (prepareWal_ready positive hstep).seq fun _ p hp => ?_
  obtain ⟨⟨hcount, hstep⟩, stamped⟩ := hp
  rw [runs_get_bind]
  cases p.wp.wal with
  | none => trivial
  | some w =>
    dsimp only
    split
    · trivial
    refine .bind_ok (appendFrames_ok w p) ?_
    exact (releaseLocks_commitPoint (appended_atCommit w hcount stamped) (Or.inl hstep)).mono
      (fun _ _ => id) (fun _ _ => False.elim)

end GraphiteSql
