import GraphiteSql.Pager.CommitOps

/-! What a journal holds, and that recovery plays it back. -/

namespace GraphiteSql

open Lib List Nat

/-- The handle after these file operations. -/
def Opening.after (o : Opening) (ops : List FileOp) : Opening :=
  { o with vfs := { o.vfs with disk := o.vfs.disk.run ops, trace := o.vfs.trace ++ ops } }

theorem Opening.after_nil (o : Opening) : o.after [] = o := by
  simp [after]

theorem Opening.after_after (o : Opening) (ops ops' : List FileOp)
    : (o.after ops).after ops' = o.after (ops ++ ops') := by
  simp [after, Disk.run_append]

theorem Opening.perform_ok (op : FileOp) (o : Opening)
    : Opening.perform op o = .ok () (o.after [op]) := (rfl)

/-- What one run of `recover` restores: pages, and the length of the main file. -/
structure Playback where
  pageSize : Nat
  pages : List (UInt32 × Bytes)
  origPages : UInt32
  paged : ∀ page ∈ pages, page.2.length = pageSize

namespace Playback

/-- Behind the pages: the length is restored, and the journal emptied. -/
def endOps (play : Playback) : List FileOp :=
  [.truncate .db (play.origPages.toNat * play.pageSize), .sync .db, .truncate .journal 0,
    .sync .journal]

def ops (play : Playback) : List FileOp :=
  if play.pages = [] then [] else pageOps play.pageSize play.pages ++ play.endOps

theorem run_ops_wal (play : Playback) (d : Disk) : (d.run play.ops).wal = d.wal := by
  rw [ops]
  split_ifs
  · rfl
  · rw [Disk.run_append, run_pageOps]
    rfl

end Playback

section Contents

variable (journal : Bytes)

/-- The record at `off`: a page number and the page, with the right checksum behind it. -/
def recordAt (pageSize : Nat) (nonce : UInt32) (off : Nat) : Option (UInt32 × Bytes) := do
  let n ← be32 (← slice journal off 4) 0
  let page ← slice journal (off + 4) pageSize
  let cksum ← be32 (← slice journal (off + 4 + pageSize) 4) 0
  if n = 0 ∨ cksum ≠ journalPageChecksum nonce page then none else some (n, page)

/-- At most `want` records from `off` on, up to the first torn one. -/
def recordsAt (pageSize : Nat) (nonce : UInt32) : (want off : Nat) → List (UInt32 × Bytes)
  | 0, _ => []
  | want + 1, off =>
      match recordAt journal pageSize nonce off with
      | none => []
      | some page => page :: recordsAt pageSize nonce want (off + (4 + pageSize + 4))

/-- The record count and the nonce of the segment at `segOff`. -/
def segmentAt (segOff : Nat) : Option (UInt32 × UInt32) := do
  let sh ← slice journal segOff journalHdrFields
  if sh.take 8 ≠ journalMagic then none else
  return (← be32 sh 8, ← be32 sh 12)

/-- The records of the segments from `segOff` on. A segment follows on one whose records are all
there.
-/
def pagesFrom (sector pageSize : Nat) : (bound segOff : Nat) → List (UInt32 × Bytes)
  | 0, _ => []
  | bound + 1, segOff =>
      match segmentAt journal segOff with
      | none => []
      | some (nrec, nonce) =>
          let recsStart := segOff + sector
          if journal.length < recsStart then [] else
          let recLen := 4 + pageSize + 4
          let want := min nrec.toNat ((journal.length - recsStart) / recLen)
          let pages := recordsAt journal pageSize nonce want recsStart
          let next := (recsStart + pages.length * recLen + sector - 1) / sector * sector
          if pages.length < want ∨ next ≤ segOff then pages
          else pages ++ pagesFrom sector pageSize bound next

/-- The original page count, sector size and page size of a hot journal. -/
def geometry : Option (UInt32 × UInt32 × UInt32) := do
  if journal.length < journalSector then none else
  let hdr ← slice journal 0 journalHdrFields
  let origPages ← be32 hdr 16
  let sector ← be32 hdr 20
  let pageSize ← be32 hdr 24
  if hdr.take 8 ≠ journalMagic ∨ pageSize < 512 ∨ !isPowerOfTwo pageSize.toNat ∨ sector = 0
      ∨ be32 hdr 8 = some 0 then none
  else some (origPages, sector, pageSize)

variable {journal} {pageSize : Nat}

theorem recordAt_paged {nonce : UInt32} {off : Nat} {page : UInt32 × Bytes}
    (h : recordAt journal pageSize nonce off = some page) : page.2.length = pageSize := by
  simp only [recordAt, Option.bind_eq_bind, Option.bind_eq_some_iff,
    Option.ite_none_left_eq_some, Option.some.injEq] at h
  obtain ⟨-, -, -, -, buf, hbuf, -, -, -, -, -, rfl⟩ := h
  exact slice_length hbuf

theorem recordsAt_paged {nonce : UInt32} {want off : Nat}
    : ∀ page ∈ recordsAt journal pageSize nonce want off, page.2.length = pageSize := by
  induction want generalizing off with
  | zero => nofun
  | succ want ih =>
    rw [recordsAt]
    split
    · nofun
    next page hpage => exact forall_mem_cons.mpr ⟨recordAt_paged hpage, ih⟩

theorem pagesFrom_paged {sector bound segOff : Nat}
    : ∀ page ∈ pagesFrom journal sector pageSize bound segOff, page.2.length = pageSize := by
  induction bound generalizing segOff with
  | zero => nofun
  | succ bound ih =>
    rw [pagesFrom]
    split
    · nofun
    dsimp only
    split_ifs
    · nofun
    · exact recordsAt_paged
    · exact forall_mem_append.mpr ⟨recordsAt_paged, ih⟩

end Contents

/-- What recovery from a journal restores: the records of all its segments. -/
def playback (journal : Bytes) : Playback :=
  match geometry journal with
  | none => ⟨0, [], 0, nofun⟩
  | some (origPages, sector, pageSize) =>
      ⟨pageSize.toNat, pagesFrom journal sector.toNat pageSize.toNat (journal.length + 1) 0,
        origPages, pagesFrom_paged⟩

theorem playback_ops {journal : Bytes} {origPages sector pageSize : UInt32}
    {pages : List (UInt32 × Bytes)}
    (hgeometry : geometry journal = some (origPages, sector, pageSize))
    (hpages : pagesFrom journal sector.toNat pageSize.toNat (journal.length + 1) 0 = pages)
    (hne : pages ≠ [])
    : (playback journal).ops = pageOps pageSize.toNat pages
      ++ [.truncate .db (origPages.toNat * pageSize.toNat), .sync .db,
        .truncate .journal 0, .sync .journal] := by
  subst hpages
  rw [playback, hgeometry]
  exact if_neg hne

/-- On every handle with this journal, the call writes these pages and returns `result`. -/
def Plays {α : Type} (journal : Bytes) (pageSize : Nat) (call : OpenM α)
    (pages : List (UInt32 × Bytes)) (result : α) : Prop :=
  ∀ o : Opening, o.vfs.disk.journal = journal →
    call o = .ok result (o.after (pageOps pageSize pages))

section Rules

variable {α β : Type} {journal : Bytes} {pageSize : Nat} {call : OpenM α}
  {pages : List (UInt32 × Bytes)} {result : α}

theorem Plays.stop (h : ∀ o : Opening, o.vfs.disk.journal = journal → call o = .ok result o)
    : Plays journal pageSize call [] result :=
  fun o hjournal => (h o hjournal).trans (congrArg _ (Opening.after_nil o).symm)

theorem Plays.congr (call' : OpenM α)
    (h : ∀ o : Opening, o.vfs.disk.journal = journal → call o = call' o)
    (hplay : Plays journal pageSize call' pages result)
    : Plays journal pageSize call pages result :=
  fun o hjournal => (h o hjournal).trans (hplay o hjournal)

/-- Pages that are played back leave the journal alone, so that the rest plays back from it, too. -/
theorem Plays.bind {next : α → OpenM β} {rest : List (UInt32 × Bytes)} {result' : β}
    (h : Plays journal pageSize call pages result)
    (hnext : Plays journal pageSize (next result) rest result')
    : Plays journal pageSize (call >>= next) (pages ++ rest) result' := by
  intro o hjournal
  rw [estate_bind_ok (h o hjournal),
    hnext _ ((congrArg Disk.journal (run_pageOps _ _ _)).trans hjournal), Opening.after_after,
    pageOps, pageOps, pageOps, map_append]

theorem Plays.bind_pure {next : α → OpenM β} {result' : β}
    (h : Plays journal pageSize call pages result) (hnext : next result = pure result')
    : Plays journal pageSize (call >>= next) pages result' :=
  append_nil pages ▸ h.bind (.stop fun _ _ => by rw [hnext]; rfl)

theorem Plays.write {n : UInt32} {buf : Bytes} (h : Plays journal pageSize call pages result)
    : Plays journal pageSize (do
        Opening.perform (.writeAllAt .db buf ((n.toNat - 1) * pageSize))
        call) ((n, buf) :: pages) result := by
  intro o hjournal
  have hthen := h (o.after [.writeAllAt .db buf ((n.toNat - 1) * pageSize)]) hjournal
  rw [Opening.after_after] at hthen
  exact (estate_bind_ok (Opening.perform_ok _ _)).trans hthen

end Rules

section Reads

variable {journal : Bytes} {off : Nat}

theorem readExactAt_fits {len : Nat} (h : off + len ≤ journal.length)
    : ∃ buf, slice journal off len = some buf ∧ readExactAt journal len off = .ok buf
      ∧ buf.length = len := by
  obtain ⟨buf, hbuf⟩ := slice_isSome h
  exact ⟨buf, hbuf, readExactAt_ok.mpr hbuf, slice_length hbuf⟩

theorem beU32_fits {buf : Bytes} (h : off + 4 ≤ buf.length)
    : ∃ v, be32 buf off = some v ∧ beU32 buf off = .ok v := by
  obtain ⟨v, hv⟩ := be32_isSome h
  exact ⟨v, hv, beU32_ok.mpr hv⟩

/-- The records of a segment are played back. -/
theorem replayRecords_plays (pageSize : Nat) (nonce : UInt32) (want : Nat)
    (h : off + want * (4 + pageSize + 4) ≤ journal.length)
    : Plays journal pageSize (replayRecords pageSize nonce want off)
      (recordsAt journal pageSize nonce want off)
      (recordsAt journal pageSize nonce want off).length := by
  induction want generalizing off with
  | zero => exact Plays.stop fun o _ => rfl
  | succ want ih =>
    rw [succ_mul] at h
    obtain ⟨nb, hslice1, hread1, hnb⟩ :=
      readExactAt_fits (show off + 4 ≤ journal.length by omega)
    obtain ⟨n, hn, hn'⟩ := beU32_fits (show 0 + 4 ≤ nb.length by omega)
    obtain ⟨buf, hslice2, hread2, hbuf⟩ :=
      readExactAt_fits (show off + 4 + pageSize ≤ journal.length by omega)
    obtain ⟨cb, hslice3, hread3, hcb⟩ :=
      readExactAt_fits (show off + 4 + pageSize + 4 ≤ journal.length by omega)
    obtain ⟨cksum, hcksum, hcksum'⟩ := beU32_fits (show 0 + 4 ≤ cb.length by omega)
    have hrecord : recordAt journal pageSize nonce off
        = if n = 0 ∨ cksum ≠ journalPageChecksum nonce buf then none else some (n, buf) := by
      simp only [recordAt, hslice1, hslice2, hslice3, hn, hcksum, Option.bind_eq_bind,
        Option.bind_some]
    refine .congr (if n = 0 ∨ cksum ≠ journalPageChecksum nonce buf then return 0 else do
        Opening.perform (.writeAllAt .db buf ((n.toNat - 1) * pageSize))
        return (← replayRecords pageSize nonce want (off + (4 + pageSize + 4))) + 1)
      (fun o hjournal => ?_) ?_
    · simp only [replayRecords, estate_get_bind, hjournal, hread1, hread2, hread3, hn', hcksum',
        lift_ok_bind]
    rw [recordsAt, hrecord]
    split
    · exact .stop fun _ _ => rfl
    · exact .write ((ih (by omega)).bind_pure rfl)

/-- So are those of all segments. -/
theorem replaySegments_plays (journal : Bytes) (sector pageSize bound segOff : Nat)
    : Plays journal pageSize (replaySegments journal.length sector pageSize bound segOff)
      (pagesFrom journal sector pageSize bound segOff)
      (decide (0 < (pagesFrom journal sector pageSize bound segOff).length)) := by
  induction bound generalizing segOff with
  | zero => exact Plays.stop fun o _ => rfl
  | succ bound ih =>
    rw [replaySegments, pagesFrom]
    split
    next hend =>
      rw [segmentAt, slice_none.mpr hend]
      exact Plays.stop fun _ _ => rfl
    next hend =>
    obtain ⟨sh, hslice, hread, hsh⟩ := readExactAt_fits (not_lt.mp hend)
    obtain ⟨nrec, hnrec, hnrec'⟩ := beU32_fits (show 8 + 4 ≤ sh.length by rw [hsh]; decide)
    obtain ⟨nonce, hnonce, hnonce'⟩ := beU32_fits (show 12 + 4 ≤ sh.length by rw [hsh]; decide)
    refine .congr (if sh.take 8 ≠ journalMagic then return false
        else if journal.length < segOff + sector then return false
        else do
          let want := min nrec.toNat ((journal.length - (segOff + sector)) / (4 + pageSize + 4))
          let played ← replayRecords pageSize nonce want (segOff + sector)
          if played < want then return 0 < played else
          let next := (segOff + sector + played * (4 + pageSize + 4) + sector - 1) / sector * sector
          if next ≤ segOff then return 0 < played else
          return (← replaySegments journal.length sector pageSize bound next) || 0 < played)
      (fun o hjournal => ?_) ?_
    · simp only [estate_get_bind, hjournal, hread, hnrec', hnonce', lift_ok_bind]
    simp only [segmentAt, hslice, hnrec, hnonce, Option.bind_eq_bind, Option.bind_some,
      Option.pure_def]
    split
    · exact .stop fun _ _ => rfl
    dsimp only
    split
    · exact .stop fun _ _ => rfl
    have hfits : segOff + sector + min nrec.toNat ((journal.length - (segOff + sector))
        / (4 + pageSize + 4)) * (4 + pageSize + 4) ≤ journal.length := by
      have hle := (mul_le_mul_right (4 + pageSize + 4) (min_le_right nrec.toNat
        ((journal.length - (segOff + sector)) / (4 + pageSize + 4)))).trans (div_mul_le_self _ _)
      omega
    have hrecords := replayRecords_plays pageSize nonce _ hfits
    -- the walk goes on only behind a segment that was played back whole
    split
    next hlast =>
      refine hrecords.bind_pure ?_
      rcases hlast with htorn | hnext
      · rw [if_pos htorn]
      · rw [if_pos hnext, ite_self]
    next hmore =>
      obtain ⟨htorn, hnext⟩ := not_or.mp hmore
      refine hrecords.bind ?_
      rw [if_neg htorn, if_neg hnext]
      refine (ih _).bind_pure (congrArg pure ?_)
      rw [← Bool.decide_or, length_append]
      exact decide_eq_decide.mpr (by omega)

end Reads

/-- The end of a recovery whose walk over the segments was this one. -/
theorem recover_after {o : Opening} (play : Playback) {walk : OpenM Bool}
    (hwalk : walk o
      = .ok (decide (0 < play.pages.length)) (o.after (pageOps play.pageSize play.pages)))
    : (do
        if ← walk then
          Opening.perform (.truncate .db (play.origPages.toNat * play.pageSize))
          Opening.perform (.sync .db)
          Opening.perform (.truncate .journal 0)
          Opening.perform (.sync .journal) : OpenM Unit) o = .ok () (o.after play.ops) := by
  rw [estate_bind_ok hwalk, Playback.ops]
  by_cases hne : play.pages = []
  · rw [hne]
    rfl
  rw [if_neg hne, if_pos (decide_eq_true (length_pos_iff.mpr hne)),
    estate_bind_ok (Opening.perform_ok _ _), estate_bind_ok (Opening.perform_ok _ _),
    estate_bind_ok (Opening.perform_ok _ _), Opening.perform_ok]
  simp only [Opening.after_after, append_assoc, cons_append, nil_append, Playback.endOps]

/-- A journal too short for a header is left alone. -/
theorem recover_short {o : Opening} (h : o.vfs.disk.journal.length < journalSector)
    : recover o = .ok () o := by
  rw [recover, estate_get_bind, if_pos h]
  rfl

/-- Recovery performs the operations of the journal's playback. -/
theorem recover_plays (o : Opening)
    : recover o = .ok () (o.after (playback o.vfs.disk.journal).ops) := by
  obtain ⟨journal, hjournal⟩ : ∃ journal, o.vfs.disk.journal = journal := ⟨_, rfl⟩
  rw [hjournal]
  by_cases hsize : journal.length < journalSector
  · rw [recover_short (hjournal ▸ hsize), playback, geometry, if_pos hsize]
    exact congrArg _ (Opening.after_nil o).symm
  have hfits : 0 + journalHdrFields ≤ journal.length := by
    simp only [journalSector, journalHdrFields] at hsize ⊢
    omega
  obtain ⟨hdr, hslice, hread, hlen⟩ := readExactAt_fits hfits
  have hfield : ∀ off, off + 4 ≤ journalHdrFields →
      ∃ v, be32 hdr off = some v ∧ beU32 hdr off = .ok v := fun off h => beU32_fits (hlen ▸ h)
  obtain ⟨count, hcount, hcount'⟩ := hfield 8 (by decide)
  obtain ⟨origPages, horig, horig'⟩ := hfield 16 (by decide)
  obtain ⟨sector, hsector, hsector'⟩ := hfield 20 (by decide)
  obtain ⟨pageSize, hpageSize, hpageSize'⟩ := hfield 24 (by decide)
  have hwalk := recover_after ⟨pageSize.toNat,
    pagesFrom journal sector.toNat pageSize.toNat (journal.length + 1) 0, origPages,
    pagesFrom_paged⟩ (replaySegments_plays journal _ _ _ 0 o hjournal)
  have hnothing : o = o.after (Playback.ops ⟨0, [], 0, nofun⟩) := (Opening.after_nil o).symm
  rw [recover, estate_get_bind, hjournal, if_neg hsize, playback, geometry, if_neg hsize]
  simp only [hread, horig', hsector', hpageSize', hcount', lift_ok_bind, hslice, horig, hsector,
    hpageSize, hcount, Option.bind_eq_bind, Option.bind_some, Option.some.injEq]
  by_cases hmagic : hdr.take 8 ≠ journalMagic
  · rw [if_pos hmagic, if_pos (.inl hmagic)]
    exact congrArg _ hnothing
  by_cases hgeometry : (pageSize < 512 || !isPowerOfTwo pageSize.toNat || sector == 0) = true
  · rw [if_neg hmagic, if_pos hgeometry, if_pos (by
      simp only [Bool.or_eq_true, decide_eq_true_eq, beq_iff_eq] at hgeometry
      tauto)]
    exact congrArg _ hnothing
  by_cases hhot : count = 0
  · rw [if_neg hmagic, if_neg hgeometry, if_pos hhot, if_pos (by tauto)]
    exact congrArg _ hnothing
  rw [if_neg hmagic, if_neg hgeometry, if_neg hhot, if_neg (by
    simp only [Bool.or_eq_true, decide_eq_true_eq, beq_iff_eq] at hgeometry
    tauto)]
  exact hwalk

end GraphiteSql
