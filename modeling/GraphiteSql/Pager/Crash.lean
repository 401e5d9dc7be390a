import GraphiteSql.Pager.JournalFile

/-! Crash atomicity of a rollback-journal commit: whatever prefix of its file operations was
applied, opening the database again finds the old or the new main file.
-/

namespace GraphiteSql

open Lib List Nat
open Std (TreeMap)

variable {d : Disk} {db₀ : Bytes} {pages : List (UInt32 × Bytes)}

def reopening (d : Disk) : Opening :=
  { vfs := { disk := d, trace := [], locks := .default, index := .new }, level := .unlocked }

/-- Opening the files `d` succeeds and leaves the main file `db`. -/
def Reopens (d : Disk) (db : Bytes) : Prop :=
  ∃ o, recoverHotJournal (reopening d) = .ok () o ∧ o.vfs.disk.db = db

/-- The handles while recovery looks at the journal, and while it plays it back. -/
def sharedlyOpened (d : Disk) : Opening :=
  { vfs := ⟨d, [], { LockState.default with shared := 1 }, .new⟩
    level := .shared }

def exclusivelyOpened (d : Disk) : Opening :=
  { vfs := {
      disk := d
      trace := []
      locks := { shared := 1, reserved := false, pending := true, exclusive := true }
      index := .new }
    level := .exclusive }

theorem lock_reopening (d : Disk)
    : Opening.lock .shared (reopening d) = .ok () (sharedlyOpened d) :=
  (rfl)

theorem lock_sharedlyOpened (d : Disk)
    : Opening.lock .exclusive (sharedlyOpened d) = .ok () (exclusivelyOpened d) := (rfl)

theorem reopens_empty_journal (h : d.journal = []) : Reopens d d.db := by
  refine ⟨reopening d, ?_, rfl⟩
  unfold recoverHotJournal
  rw [estate_get_bind, if_pos (by rw [reopening, h]; rfl)]
  rfl

/-- A journal that starts with a non-zero byte, next to a non-empty main file, is given to
`recover`.
-/
theorem reopens_of_recover {b : UInt8} {rest : Bytes} {o : Opening}
    (hjournal : d.journal = b :: rest) (hb : b ≠ 0) (hdb : d.db.length ≠ 0)
    (hrecover : recover (exclusivelyOpened d) = .ok () o) : Reopens d o.vfs.disk.db := by
  have hread : readExactAt d.journal 1 0 = .ok [b] := by
    rw [readExactAt_ok, slice_eq_some, hjournal]
    exact ⟨by simp, rfl⟩
  have hfirst : [b] ≠ [(0 : UInt8)] := fun h => hb (cons.inj h).1
  have hlocked : recoverHotJournalLocked (sharedlyOpened d) = .ok () o := by
    have hdisk : (sharedlyOpened d).vfs.disk = d := rfl
    have hidle : ¬ (sharedlyOpened d).vfs.locks.hasWriteIntent = true := Bool.false_ne_true
    unfold recoverHotJournalLocked
    rw [estate_get_bind, if_neg hidle, hdisk, if_neg hdb, hread, lift_ok_bind, if_neg hfirst,
      estate_bind_ok (lock_sharedlyOpened d), hrecover]
  have hsize : ¬ (reopening d).vfs.disk.journal.length = 0 := by
    rw [reopening, hjournal]
    simp
  let unlocked := o.vfs.unlock o.level .unlocked
  refine ⟨{ vfs := unlocked.1, level := unlocked.2 }, ?_, rfl⟩
  rw [recoverHotJournal, estate_get_bind, if_neg hsize, estate_bind_ok (lock_reopening d),
    thenAlways, hlocked]
  rfl

namespace JournalImage

variable {img : JournalImage}

theorem header_cons (img : JournalImage) (nrec : UInt32)
    : ∃ rest, img.header nrec = 0xd9 :: rest :=
  ⟨_, rfl⟩

theorem reopens_uncounted {rest : Bytes} (hjournal : d.journal = img.header 0 ++ rest)
    (hdb : d.db.length ≠ 0) : Reopens d d.db := by
  obtain ⟨tail, htail⟩ := header_cons img 0
  rw [htail, cons_append] at hjournal
  refine reopens_of_recover hjournal (by decide) hdb (o := exclusivelyOpened d) ?_
  rw [← cons_append, ← htail] at hjournal
  exact recover_uncounted hjournal

theorem reopens_hot (h : img.Valid) (hne : img.originals ≠ [])
    (hjournal : d.journal = img.hot) (hdb : d.db.length ≠ 0)
    : Reopens d (d.run img.undoOps).db := by
  obtain ⟨tail, htail⟩ := header_cons img img.count
  have hcons := hjournal
  exact reopens_of_recover hcons (by decide) hdb
    (o := (exclusivelyOpened d).after img.undoOps) (recover_hot h hne hjournal)

/-- A file operation that touches nothing but the journal, behind its header sector. -/
def BehindHeader : FileOp → Prop
  | .writeAllAt .journal _ off => journalSector ≤ off
  | .sync _ => True
  | _ => False

theorem behindHeader_recordOps (nonce : UInt32) (pageSize off : Nat)
    (pages : List (UInt32 × Bytes)) (hoff : journalSector ≤ off)
    : ∀ op ∈ recordOps nonce pageSize off pages, BehindHeader op := by
  induction pages generalizing off with
  | nil =>
    intro op hop
    cases hop
  | cons head tail ih =>
    intro op hop
    rw [recordOps, mem_append] at hop
    rcases hop with hop | hop
    · simp only [mem_cons, not_mem_nil, or_false] at hop
      rcases hop with rfl | rfl | rfl
      · exact hoff
      · exact le_add_right_of_le hoff
      · exact le_add_right_of_le (le_add_right_of_le hoff)
    · exact ih _ (by omega) op hop

theorem BehindHeader.apply {nrec : UInt32} {op : FileOp} (hop : BehindHeader op)
    (hd : d.db = db₀ ∧ ∃ rest, d.journal = img.header nrec ++ rest)
    : (d.apply op).db = db₀ ∧ ∃ rest, (d.apply op).journal = img.header nrec ++ rest := by
  obtain ⟨hdb, rest, hjournal⟩ := hd
  match op, hop with
  | .sync _, _ => exact ⟨hdb, rest, hjournal⟩
  | .writeAllAt .journal buf off, hoff =>
    refine ⟨hdb, writeAt rest (off - journalSector) buf 0, ?_⟩
    have hsplit : off = (img.header nrec).length + (off - journalSector) := by
      have hle : journalSector ≤ off := hoff
      rw [header_length]
      omega
    show writeAt d.journal off buf 0 = _
    rw [hjournal, ← writeAt_append_left, ← hsplit]

theorem recordOps_eq_pieceOps (nonce : UInt32) {pageSize : Nat}
    (hpaged : ∀ page ∈ pages, page.2.length = pageSize) (off : Nat)
    : recordOps nonce pageSize off pages
      = pieceOps .journal off (pages.flatMap (recordPieces nonce)) := by
  induction pages generalizing off with
  | nil => rfl
  | cons head tail ih =>
    have hlen : head.2.length = pageSize := hpaged head mem_cons_self
    rw [recordOps, ih (fun page hp => hpaged page (mem_cons_of_mem _ hp)), ← hlen]
    rfl

def fillOps (img : JournalImage) : List FileOp :=
  [.truncate .journal 0, .writeAllAt .journal (img.header 0) 0]
    ++ (recordOps img.nonce img.pageSize.toNat journalSector img.originals ++ [.sync .journal])

/-- Before the record count is published the old file is found. -/
theorem reopens_during_fill (hquiet : Reopens d d.db) (hdb : d.db.length ≠ 0) (k : Nat)
    : Reopens (d.run (img.fillOps.take k)) d.db := by
  match k with
  | 0 => exact hquiet
  | 1 => exact reopens_empty_journal resize_zero
  | k + 2 =>
    let start := d.run [.truncate .journal 0, .writeAllAt .journal (img.header 0) 0]
    have hstart : start.journal = img.header 0 ++ [] := by
      show writeAt (resize d.journal 0 0) 0 (img.header 0) 0 = _
      rw [resize_zero, append_nil]
      exact writeAt_end
    have hops : ∀ op ∈ recordOps img.nonce img.pageSize.toNat journalSector img.originals
        ++ [FileOp.sync .journal], BehindHeader op := by
      intro op hop
      rcases mem_append.mp hop with hop | hop
      · exact behindHeader_recordOps _ _ _ _ (Nat.le_refl _) op hop
      · rw [mem_singleton.mp hop]
        trivial
    obtain ⟨hsame, rest, hjournal⟩ := Disk.run_take_keeps
      (fun d' => d'.db = d.db ∧ ∃ rest, d'.journal = img.header 0 ++ rest)
      (fun op hop d' hd' => BehindHeader.apply (hops op hop) hd')
      (show start.db = d.db ∧ _ from ⟨rfl, [], hstart⟩) k
    have hreopen := reopens_uncounted hjournal (by rw [hsame]; exact hdb)
    rw [hsame] at hreopen
    exact hreopen

/-- The filled journal: a header that counts no records, and the records. -/
theorem run_fillOps (h : img.Valid)
    : d.run img.fillOps = { d with journal := img.header 0 ++ img.records } := by
  have hstart : d.run [.truncate .journal 0, .writeAllAt .journal (img.header 0) 0]
      = { d with journal := img.header 0 } := by
    show ({ d with journal := writeAt (resize d.journal 0 0) 0 (img.header 0) 0 } : Disk) = _
    rw [resize_zero]
    exact congrArg (fun j => { d with journal := j }) writeAt_end
  have hlen : journalSector = (img.header 0).length := (header_length img 0).symm
  rw [fillOps, Disk.run_append, hstart, Disk.run_append, recordOps_eq_pieceOps _ h.paged,
    Disk.run_pieceOps _ _ _ _ (le_of_eq hlen)]
  show ({ d with journal := writeAt (img.header 0) journalSector img.records 0 } : Disk) = _
  rw [hlen, writeAt_end]

theorem writeAt_count (img : JournalImage) (rest : Bytes)
    : writeAt (img.header 0 ++ rest) 8 (u32ToBytes img.count) 0 = img.header img.count ++ rest := by
  have hsplit : ∀ nrec, img.header nrec ++ rest = journalMagic ++ (u32ToBytes nrec
      ++ ((journalHeaderFields nrec img.nonce img.diskPages img.pageSize).drop 2).flatten
        ++ rest) :=
    fun nrec => by simp [header, journalHeaderFields]
  have hoff : 8 = journalMagic.length + 0 := rfl
  rw [hsplit 0, hoff, writeAt_append_left, append_assoc,
    writeAt_zero (by simp only [u32ToBytes_length])]
  rfl

abbrev Covers (img : JournalImage) (n : UInt32) (i : Nat) : Prop :=
  CoversPage img.pageSize.toNat n i

def size (img : JournalImage) : Nat :=
  img.diskPages.toNat * img.pageSize.toNat

/-- The records of `img` are pages of `db₀`, the file before the transaction. -/
structure Saves (img : JournalImage) (db₀ : Bytes) : Prop where
  length : db₀.length = img.size
  original : ∀ page ∈ img.originals,
    slice db₀ ((page.1.toNat - 1) * img.pageSize.toNat) img.pageSize.toNat = some page.2

/-- `db`, read as zeros past its end, differs from the committed file only in pages that the
journal saves, and past the end of the committed file.
-/
def Undoable (img : JournalImage) (db₀ db : Bytes) : Prop :=
  ∀ i < img.size, (∀ page ∈ img.originals, ¬ img.Covers page.1 i) → db.getD i 0 = db₀.getD i 0

theorem original_getD (hs : img.Saves db₀) {page : UInt32 × Bytes}
    (hpage : page ∈ img.originals) {i : Nat} (hi : i < img.pageSize.toNat)
    : page.2.getD i 0 = db₀.getD ((page.1.toNat - 1) * img.pageSize.toNat + i) 0 :=
  slice_getD (hs.original page hpage) hi 0

/-- Playing originals back restores a position that was intact, or that one of them covers. -/
theorem getD_writePagesTo (h : img.Valid) (hs : img.Saves db₀)
    (hsub : ∀ page ∈ pages, page ∈ img.originals) {db : Bytes}
    {i : Nat} (hcase : db.getD i 0 = db₀.getD i 0 ∨ ∃ page ∈ pages, img.Covers page.1 i)
    : (writePagesTo img.pageSize.toNat pages db).getD i 0 = db₀.getD i 0 := by
  induction pages generalizing db with
  | nil =>
    rcases hcase with hsame | ⟨page, hpage, -⟩
    · exact hsame
    · cases hpage
  | cons head tail ih =>
    have hhead : head ∈ img.originals := hsub head mem_cons_self
    have hlen : head.2.length = img.pageSize.toNat := h.paged head hhead
    refine ih (fun page hp => hsub page (mem_cons_of_mem _ hp)) ?_
    by_cases hcover : img.Covers head.1 i
    · left
      obtain ⟨j, hj, rfl⟩ := hcover.split
      rw [getD_writeAt_inside (by omega), original_getD hs hhead hj]
    rw [getD_writeAt_outside (CoversPage.outside hlen hcover)]
    rcases hcase with hsame | ⟨page, hpage, hcov⟩
    · exact .inl hsame
    · rcases mem_cons.mp hpage with rfl | hpage
      · exact absurd hcov hcover
      · exact .inr ⟨page, hpage, hcov⟩

theorem run_undoOps_db (img : JournalImage) (d : Disk)
    : (d.run img.undoOps).db
      = resize (writePagesTo img.pageSize.toNat img.originals d.db) img.size 0 := by
  rw [undoOps, Disk.run_append, run_pageOps]
  rfl

/-- Playing the journal back restores the committed file exactly when what it does not save is
intact.
-/
theorem undo_restores_iff (h : img.Valid) (hs : img.Saves db₀)
    : (d.run img.undoOps).db = db₀ ↔ img.Undoable db₀ d.db := by
  rw [run_undoOps_db]
  constructor
  · intro hrestored i hi hout
    rw [← hrestored, getD_resize hi, getD_writePagesTo_outside h.paged hout]
  intro hu
  refine eq_of_getD 0 (by rw [resize_length, hs.length]) fun i hi => ?_
  rw [resize_length] at hi
  rw [getD_resize hi]
  refine getD_writePagesTo h hs (fun _ hp => hp) ?_
  by_cases hcov : ∃ page ∈ img.originals, img.Covers page.1 i
  · exact .inr hcov
  · push Not at hcov
    exact .inl (hu i hi hcov)

/-- A file operation on the main file that the journal can undo: it writes a page that the
journal saves or that is past the committed file, or it cuts off nothing but zeros that the
journal does not save.
-/
def UndoableOp (img : JournalImage) (db₀ : Bytes) : FileOp → Prop
  | .writeAllAt .db buf off =>
      ∃ n : UInt32, off = (n.toNat - 1) * img.pageSize.toNat ∧ buf.length = img.pageSize.toNat
        ∧ ((∃ page ∈ img.originals, page.1 = n) ∨ img.diskPages < n)
  | .truncate .db len =>
      0 < len ∧ ∀ i, len ≤ i → i < img.size → (∀ page ∈ img.originals, ¬ img.Covers page.1 i)
        → db₀.getD i 0 = 0
  | .sync _ => True
  | _ => False

theorem Undoable.apply {op : FileOp} (hop : img.UndoableOp db₀ op) (hd : 0 < d.db.length)
    (hu : img.Undoable db₀ d.db)
    : 0 < (d.apply op).db.length ∧ img.Undoable db₀ (d.apply op).db
      ∧ (d.apply op).journal = d.journal := by
  match op, hop with
  | .sync _, _ => exact ⟨hd, hu, rfl⟩
  | .truncate .db len, ⟨hlen, hzero⟩ =>
    refine ⟨lt_of_lt_of_eq hlen resize_length.symm, fun i hi hout => ?_, rfl⟩
    show (resize d.db len 0).getD i 0 = db₀.getD i 0
    by_cases hcut : i < len
    · rw [getD_resize hcut]
      exact hu i hi hout
    · rw [getD_resize_past (Nat.le_of_not_lt hcut), hzero i (Nat.le_of_not_lt hcut) hi hout]
  | .writeAllAt .db buf off, ⟨n, hoff, hbuf, hn⟩ =>
    refine ⟨?_, fun i hi hcov => ?_, rfl⟩
    · show 0 < (writeAt d.db off buf 0).length
      rw [writeAt_length]
      omega
    -- The written page is saved in the journal, or lies past the committed file.
    have hout : i < off ∨ off + buf.length ≤ i := by
      rcases hn with ⟨page, hpage, rfl⟩ | hn
      · have hnot := hcov page hpage
        unfold Covers CoversPage at hnot
        omega
      left
      rw [UInt32.lt_iff_toNat_lt] at hn
      have hmul : img.diskPages.toNat * img.pageSize.toNat
          ≤ (n.toNat - 1) * img.pageSize.toNat := mul_le_mul_right _ (by omega)
      have hi' : i < img.diskPages.toNat * img.pageSize.toNat := hi
      omega
    show (writeAt d.db off buf 0).getD i 0 = db₀.getD i 0
    rw [getD_writeAt_outside hout]
    exact hu i hi hcov

theorem Undoable.refl (img : JournalImage) (db₀ : Bytes) : img.Undoable db₀ db₀ :=
  fun _ _ _ => rfl

theorem reopens_during_flush (h : img.Valid) (hs : img.Saves db₀)
    (hne : img.originals ≠ []) (hpos : 0 < d.db.length) (hjournal : d.journal = img.hot)
    (hu : img.Undoable db₀ d.db) {ops : List FileOp} (hops : ∀ op ∈ ops, img.UndoableOp db₀ op)
    (k : Nat) : Reopens (d.run (ops.take k)) db₀ := by
  obtain ⟨hlong, hstill, hundo⟩ := Disk.run_take_keeps
    (fun d => 0 < d.db.length ∧ d.journal = img.hot ∧ img.Undoable db₀ d.db)
    (fun op hop d hd => by
      obtain ⟨hlong, hundo, hsame⟩ := Undoable.apply (hops op hop) hd.1 hd.2.2
      exact ⟨hlong, hsame.trans hd.2.1, hundo⟩)
    ⟨hpos, hjournal, hu⟩ k
  have hreopen := reopens_hot h hne hstill (ne_of_gt hlong)
  rwa [(undo_restores_iff h hs).mpr hundo] at hreopen

end JournalImage

end GraphiteSql
