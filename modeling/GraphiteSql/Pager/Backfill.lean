import GraphiteSql.Pager.WalView

/-! Checkpoints: copying frames into the main file keeps the committed database, and what a
pinned reader sees.
-/

namespace GraphiteSql

open Lib List Nat PagerState
open Std (TreeMap)

variable {n : UInt32} {frames : List IndexFrame} {b : Bytes} {pages : List (UInt32 × Bytes)}

-- Which pages are copied

def lastPosition (n : UInt32) : List IndexFrame → Option Nat
  | [] => none
  | f :: rest =>
      match lastPosition n rest with
      | some j => some (j + 1)
      | none => if f.pageNo = n then some 0 else none

theorem newest_cons (f : IndexFrame) (rest : List IndexFrame) (n : UInt32)
    : newest (f :: rest) n = (newest rest n).or (if f.pageNo = n then some f.data else none) := by
  by_cases hf : f.pageNo = n <;> simp [newest, lastFrame, hf]

theorem lastPosition_none
    : lastPosition n frames = none ↔ newest frames n = none := by
  induction frames with
  | nil => simp [lastPosition, newest, lastFrame]
  | cons f rest ih =>
    rw [newest_cons, lastPosition]
    cases hpos : lastPosition n rest with
    | some j =>
      have hsome : newest rest n ≠ none := fun h => by
        rw [ih.mpr h] at hpos
        cases hpos
      obtain ⟨b, hb⟩ := Option.ne_none_iff_exists'.mp hsome
      simp [hb]
    | none =>
      rw [ih.mp hpos]
      by_cases hf : f.pageNo = n <;> simp [hf]

/-- The last frame of a page holds its newest image, and no frame of it follows. -/
theorem lastPosition_some {j : Nat} (h : lastPosition n frames = some j)
    : ∃ f, frames[j]? = some f ∧ f.pageNo = n ∧ newest frames n = some f.data
      ∧ newest (frames.drop (j + 1)) n = none := by
  induction frames generalizing j with
  | nil => cases h
  | cons f rest ih =>
    rw [lastPosition] at h
    cases hpos : lastPosition n rest with
    | some i =>
      rw [hpos] at h
      cases h
      obtain ⟨g, hget, hpage, hnew, hafter⟩ := ih hpos
      refine ⟨g, hget, hpage, ?_, hafter⟩
      rw [newest_cons, hnew]
      rfl
    | none =>
      rw [hpos] at h
      split_ifs at h with hf
      cases h
      refine ⟨f, rfl, hf, ?_, lastPosition_none.mp hpos⟩
      rw [newest_cons, lastPosition_none.mp hpos, if_pos hf]
      rfl

/-- The fold of a checkpoint finds the last position of every page. -/
theorem newestFrames_get (frames : List IndexFrame) (start : Nat) (n : UInt32)
    : (WalIndex.newestFrames frames start)[n]? = (lastPosition n frames).map (start + ·) := by
  have hfold : ∀ (frames : List IndexFrame) (start : Nat) (acc : TreeMap UInt32 Nat),
      ((frames.zipIdx start).foldl (fun newest p => newest.insert p.1.pageNo p.2) acc)[n]?
        = ((lastPosition n frames).map (start + ·)).or acc[n]? := by
    intro frames
    induction frames with
    | nil => intro start acc; rfl
    | cons f rest ih =>
      intro start acc
      rw [zipIdx_cons, foldl_cons, ih, lastPosition, TreeMap.getElem?_insert]
      cases lastPosition n rest with
      | some j => simp [Nat.add_assoc, Nat.add_comm 1]
      | none =>
        by_cases hf : f.pageNo = n
        · simp [hf]
        · have hcmp : compare f.pageNo n ≠ .eq := fun h => hf (Std.LawfulEqCmp.eq_of_compare h)
          simp [hf, hcmp]
  exact (hfold frames start ∅).trans (by simp)

section Pages

variable {ix : WalIndex} {k : Nat}

section

variable (hmx : ix.mxFrame = ix.log.length)

include hmx

/-- What a checkpoint up to frame `k` copies: the newest image of a page, when its frame is past
the backfill mark and not beyond `k`.
-/
theorem mem_backfillPages
    : (n, b) ∈ ix.backfillPages k
      ↔ ∃ j, lastPosition n (ix.log.drop ix.nBackfill) = some j ∧ ix.nBackfill + j + 1 ≤ k
          ∧ newest (ix.log.drop ix.nBackfill) n = some b := by
  unfold WalIndex.backfillPages
  dsimp only
  rw [hmx, min_self, take_length]
  split
  · rename_i hle
    rw [drop_eq_nil_of_le hle]
    simp [lastPosition]
  simp only [mem_filterMap, mem_filter, decide_eq_true_eq, Prod.exists,
    TreeMap.mem_toList_iff_getElem?_eq_some, newestFrames_get, Option.map_eq_some_iff]
  constructor
  · rintro ⟨m, i, ⟨⟨j, hj, rfl⟩, hle⟩, f, hget, hpair⟩
    cases hpair
    obtain ⟨g, hg, -, hnew, -⟩ := lastPosition_some hj
    rw [getElem?_drop, hget] at hg
    cases hg
    exact ⟨j, hj, hle, hnew⟩
  rintro ⟨j, hj, hle, hnew⟩
  obtain ⟨g, hg, -, hnew', -⟩ := lastPosition_some hj
  rw [getElem?_drop] at hg
  rw [hnew'] at hnew
  cases hnew
  exact ⟨n, _, ⟨⟨j, hj, rfl⟩, hle⟩, g, hg, rfl⟩

theorem backfillPages_seen (h : (n, b) ∈ ix.backfillPages k)
    {m : Nat} (hm : k ≤ m) : newest (ix.log.take m) n ≠ none := by
  obtain ⟨j, hj, hle, -⟩ := (mem_backfillPages hmx).mp h
  obtain ⟨f, hget, hpage, -⟩ := lastPosition_some hj
  rw [getElem?_drop] at hget
  intro hnone
  refine newest_eq_none.mp hnone f (mem_of_getElem? (i := ix.nBackfill + j) ?_) hpage
  rw [getElem?_take_of_lt (by omega)]
  exact hget

theorem mem_backfillPages_of_newest
    (hnew : newest (ix.log.drop ix.nBackfill) n = some b) (hafter : newest (ix.log.drop k) n = none)
    : (n, b) ∈ ix.backfillPages k := by
  refine (mem_backfillPages hmx).mpr ?_
  cases hj : lastPosition n (ix.log.drop ix.nBackfill) with
  | none =>
    rw [lastPosition_none.mp hj] at hnew
    cases hnew
  | some j =>
    obtain ⟨f, hget, hpage, -⟩ := lastPosition_some hj
    refine ⟨j, rfl, ?_, hnew⟩
    by_contra hlt
    rw [getElem?_drop] at hget
    refine newest_eq_none.mp hafter f (mem_of_getElem? (i := ix.nBackfill + j - k) ?_) hpage
    rw [getElem?_drop, Nat.add_sub_cancel' (by omega)]
    exact hget

end

theorem backfillPages_distinct (ix : WalIndex) (k : Nat)
    : (ix.backfillPages k).Pairwise fun a b => a.1 ≠ b.1 := by
  unfold WalIndex.backfillPages
  dsimp only
  split
  · exact List.Pairwise.nil
  refine List.Pairwise.filterMap _ ?_ (List.Pairwise.filter _ TreeMap.distinct_keys_toList)
  rintro ⟨m, i⟩ ⟨m', i'⟩ hne a ha b hb heq
  obtain ⟨f, -, rfl⟩ := Option.map_eq_some_iff.mp ha
  obtain ⟨g, -, rfl⟩ := Option.map_eq_some_iff.mp hb
  have hkeys : m = m' := heq
  exact hne (by rw [hkeys]; exact Std.ReflCmp.compare_self)

end Pages

section MainFile

variable {ps : Nat} {file : Bytes}

/-- A page of the main file, byte by byte. -/
theorem mainPage_eq_some
    : mainPage ps file n = some b
      ↔ b.length = ps ∧ (n.toNat - 1) * ps + ps ≤ file.length
        ∧ ∀ i < ps, file.getD ((n.toNat - 1) * ps + i) 0 = b.getD i 0 := by
  constructor
  · intro h
    exact ⟨slice_length h, (slice_eq_some.mp h).1, fun i hi => (slice_getD h hi 0).symm⟩
  · rintro ⟨hlen, hfit, hread⟩
    exact slice_of_getD hlen hfit 0 hread

theorem writePagesTo_length (ps : Nat) (pages : List (UInt32 × Bytes)) (file : Bytes)
    : file.length ≤ (writePagesTo ps pages file).length
      ∧ ∀ page ∈ pages,
        (page.1.toNat - 1) * ps + page.2.length ≤ (writePagesTo ps pages file).length := by
  induction pages generalizing file with
  | nil => exact ⟨Nat.le_refl _, fun _ h => by cases h⟩
  | cons head tail ih =>
    obtain ⟨hkeeps, htail⟩ := ih (writeAt file ((head.1.toNat - 1) * ps) head.2 0)
    rw [writeAt_length] at hkeeps
    refine ⟨le_trans (le_max_left _ _) hkeeps, fun page hmem => ?_⟩
    rcases mem_cons.mp hmem with rfl | hmem
    · exact le_trans (le_max_right _ _) hkeeps
    · exact htail page hmem

variable (hpos : 0 < ps) (hpaged : ∀ page ∈ pages, page.2.length = ps)
  (hzero : ∀ page ∈ pages, page.1 ≠ 0)

include hpos hpaged hzero

theorem mainPage_written (hdistinct : pages.Pairwise fun a b => a.1 ≠ b.1) (hmem : (n, b) ∈ pages)
    : mainPage ps (writePagesTo ps pages file) n = some b := by
  have hlen : b.length = ps := hpaged (n, b) hmem
  refine mainPage_eq_some.mpr ⟨hlen, ?_, fun i hi => ?_⟩
  · have hreach := (writePagesTo_length ps pages file).2 (n, b) hmem
    rwa [hlen] at hreach
  · exact getD_writePagesTo_page hpos hpaged hzero hdistinct hmem hi

theorem mainPage_kept (hn : n ≠ 0) (hout : ∀ page ∈ pages, page.1 ≠ n)
    (h : mainPage ps file n = some b) : mainPage ps (writePagesTo ps pages file) n = some b := by
  obtain ⟨hlen, hfit, hread⟩ := mainPage_eq_some.mp h
  refine mainPage_eq_some.mpr ⟨hlen, le_trans hfit (writePagesTo_length ps pages file).1, ?_⟩
  intro i hi
  refine (getD_writePagesTo_outside hpaged fun page hmem hcover => ?_).trans (hread i hi)
  have hself : CoversPage ps n ((n.toNat - 1) * ps + i) :=
    ⟨le_add_right _ _, Nat.add_lt_add_left hi _⟩
  have hnum := (coversPage_iff hn hpos).mp hself
  have hother := (coversPage_iff (hzero page hmem) hpos).mp hcover
  exact hout page hmem (UInt32.toNat_inj.mp (hother.trans hnum.symm))

end MainFile

theorem mainPage_resize {ps : Nat} {file : Bytes} {size : UInt32} (hn : n ≠ 0)
    (hle : n ≤ size) (h : mainPage ps file n = some b)
    : mainPage ps (resize file (size.toNat * ps) 0) n = some b := by
  obtain ⟨hlen, hfit, hread⟩ := mainPage_eq_some.mp h
  have hnum : n.toNat ≠ 0 := fun h0 => hn (UInt32.toNat_inj.mp h0)
  have hreach : (n.toNat - 1) * ps + ps ≤ size.toNat * ps := by
    have hmul := mul_le_mul_right ps (UInt32.le_iff_toNat_le.mp hle)
    have hsucc := succ_mul (n.toNat - 1) ps
    rw [succ_eq_add_one, Nat.sub_add_cancel (one_le_iff_ne_zero.mpr hnum)] at hsucc
    omega
  refine mainPage_eq_some.mpr ⟨hlen, by rw [resize_length]; exact hreach, fun i hi => ?_⟩
  rw [getD_resize (by omega)]
  exact hread i hi

-- Copying into the main file

def inRange (dbSize : UInt32) (pages : List (UInt32 × Bytes)) : List (UInt32 × Bytes) :=
  pages.filter fun page => ¬ (page.1 = 0 ∨ dbSize < page.1)

theorem mem_inRange {dbSize : UInt32}
    : (n, b) ∈ inRange dbSize pages ↔ (n, b) ∈ pages ∧ n ≠ 0 ∧ n ≤ dbSize := by
  simp [inRange, UInt32.not_lt]

theorem copyPages_ok (dbSize : UInt32) (pages : List (UInt32 × Bytes)) (s : PagerState)
    : copyPages dbSize pages s
      = .ok () (s.after (pageOps s.wp.pageSize (inRange dbSize pages))) := by
  induction pages generalizing s with
  | nil => simp [copyPages, inRange, pageOps]
  | cons head tail ih =>
    obtain ⟨n, data⟩ := head
    unfold copyPages
    by_cases hskip : n = 0 ∨ dbSize < n
    · have hrest : inRange dbSize ((n, data) :: tail) = inRange dbSize tail :=
        filter_cons_of_neg fun h => of_decide_eq_true h hskip
      rw [if_pos hskip, ih, hrest]
    have hrest : inRange dbSize ((n, data) :: tail) = (n, data) :: inRange dbSize tail :=
      filter_cons_of_pos (decide_eq_true hskip)
    rw [if_neg hskip, estate_get_bind, perform_bind, ih, hrest, after_after]
    rfl

def Vfs.backfilledFile (ps : Nat) (v : Vfs) (k : Nat) : Bytes :=
  let file := writePagesTo ps (inRange v.index.fullDbSize (v.index.backfillPages k)) v.disk.db
  if k = v.index.mxFrame then resize file (v.index.fullDbSize.toNat * ps) 0 else file

section Copy

variable {ps : Nat} {db : Db} {v : Vfs} {k : Nat}

section

variable (h : Tracks ps db v)

include h

theorem Tracks.backfill_paged
    : ∀ page ∈ inRange v.index.fullDbSize (v.index.backfillPages k), page.2.length = ps := by
  rintro ⟨m, data⟩ hmem
  obtain ⟨-, -, -, hnew⟩ := (mem_backfillPages h.mxFrame).mp (mem_inRange.mp hmem).1
  obtain ⟨f, hf, -, rfl⟩ := newest_mem hnew
  exact h.paged f (mem_of_mem_drop hf)

theorem Tracks.copied (hmem : (n, b) ∈ v.index.backfillPages k) (hn : n ≠ 0)
    (hle : n ≤ v.index.fullDbSize) : mainPage ps (v.backfilledFile ps k) n = some b := by
  have hdistinct := (backfillPages_distinct v.index k).filter
    fun page => ¬ (page.1 = 0 ∨ v.index.fullDbSize < page.1)
  have hwritten : mainPage ps
      (writePagesTo ps (inRange v.index.fullDbSize (v.index.backfillPages k)) v.disk.db) n
        = some b :=
    mainPage_written h.pageSize_pos h.backfill_paged (fun page hp => (mem_inRange.mp hp).2.1)
      hdistinct (mem_inRange.mpr ⟨hmem, hn, hle⟩)
  unfold Vfs.backfilledFile
  split
  · exact mainPage_resize hn hle hwritten
  · exact hwritten

theorem Tracks.notCopied (hn : n ≠ 0)
    (hout : ∀ data, (n, data) ∉ v.index.backfillPages k)
    (hle : k = v.index.mxFrame → n ≤ v.index.fullDbSize) (hmain : mainPage ps v.disk.db n = some b)
    : mainPage ps (v.backfilledFile ps k) n = some b := by
  have hkept : mainPage ps
      (writePagesTo ps (inRange v.index.fullDbSize (v.index.backfillPages k)) v.disk.db) n
        = some b := by
    refine mainPage_kept h.pageSize_pos h.backfill_paged (fun page hp => (mem_inRange.mp hp).2.1)
      hn ?_ hmain
    rintro ⟨m, data⟩ hmem rfl
    exact hout data (mem_inRange.mp hmem).1
  unfold Vfs.backfilledFile
  split
  · exact mainPage_resize hn (hle (by assumption)) hkept
  · exact hkept

/-- Copying frames leaves the committed database alone. -/
theorem Tracks.backfillTo {v' : Vfs} (hlt : v.index.nBackfill < k)
    (hk : k ≤ v.index.mxFrame) (hdb : v'.disk.db = v.backfilledFile ps k)
    (hix : v'.index = { v.index with nBackfill := k }) : Tracks ps db v' := by
  have hne : v.index.log ≠ [] := by
    intro hnil
    rw [h.mxFrame, hnil] at hk
    simp only [length_nil] at hk
    omega
  have hfull : v.index.fullDbSize = db.size := by rw [fullDbSize_eq, h.sized hne]; rfl
  exact {
    pageSize_pos := h.pageSize_pos
    mxFrame := by rw [hix]; exact h.mxFrame
    backfill := by
      rw [hix]
      exact le_trans hk (le_of_eq h.mxFrame)
    paged := by rw [hix]; exact h.paged
    sized := by rw [hix]; exact h.sized
    positive := h.positive
    range := h.range
    inLog := by rw [hix]; exact h.inLog
    inMain := by
      intro n b hpage hafter
      rw [hix] at hafter
      rw [hdb]
      obtain ⟨hn, hle, -⟩ := h.range n b hpage
      rw [← hfull] at hle
      cases hnew : newest (v.index.log.drop v.index.nBackfill) n with
      | some data =>
        have hdata : data = b := by
          refine h.inLog n b data hpage ?_
          rw [← take_append_drop v.index.nBackfill v.index.log, newest_append, hnew]
          rfl
        subst hdata
        exact h.copied (mem_backfillPages_of_newest h.mxFrame hnew hafter) hn hle
      | none =>
        refine h.notCopied hn (fun data hmem => ?_) (fun _ => hle) (h.inMain n b hpage hnew)
        obtain ⟨-, -, -, hsome⟩ := (mem_backfillPages h.mxFrame).mp hmem
        rw [hnew] at hsome
        cases hsome
    settled := by
      rw [hix, hdb]
      intro hdone
      have hall : k = v.index.mxFrame := hdone.trans h.mxFrame.symm
      unfold Vfs.backfilledFile
      rw [if_pos hall, resize_length, hfull] }

end

end Copy

theorem mxSafe_le (ix : WalIndex) : ix.mxSafe ≤ ix.mxFrame := by
  unfold WalIndex.mxSafe
  split
  · split <;> omega
  · exact Nat.le_refl _

theorem mxSafe_le_reader {ix : WalIndex} {m : Nat} (hm : m ∈ ix.readers) : ix.mxSafe ≤ m := by
  unfold WalIndex.mxSafe WalIndex.minReaderMark
  cases hmin : ix.readers.min? with
  | none =>
    rw [min?_eq_none_iff.mp hmin] at hm
    cases hm
  | some least =>
    have hle : least ≤ m := (min?_eq_some_iff.mp hmin).2 m hm
    dsimp only
    split <;> omega

def PagerState.backfilled (s : PagerState) (k : Nat) : PagerState where
  vfs :=
    { disk := { s.vfs.disk with db := s.vfs.backfilledFile s.wp.pageSize k }
      trace := s.vfs.trace ++ pageOps s.wp.pageSize
          (inRange s.vfs.index.fullDbSize (s.vfs.index.backfillPages k))
        ++ if k = s.vfs.index.mxFrame then
            [.truncate .db (s.vfs.index.fullDbSize.toNat * s.wp.pageSize), .sync .db]
          else []
      locks := s.vfs.locks
      index := { s.vfs.index with nBackfill := k } }
  wp := { s.wp with
    diskPages := if k = s.vfs.index.mxFrame then s.vfs.index.fullDbSize else s.wp.diskPages }

theorem backfill_ok (s : PagerState)
    : backfill s = .ok () (if s.vfs.index.nBackfill < s.vfs.index.mxFrame
        ∧ s.vfs.index.nBackfill < s.vfs.index.mxSafe then s.backfilled
          s.vfs.index.mxSafe else s) := by
  unfold backfill
  rw [estate_get_bind]
  by_cases hgo : s.vfs.index.nBackfill < s.vfs.index.mxFrame
      ∧ s.vfs.index.nBackfill < s.vfs.index.mxSafe
  · have hmark : s.vfs.index.setNBackfill s.vfs.index.mxSafe
        = { s.vfs.index with nBackfill := s.vfs.index.mxSafe } := if_pos hgo.2
    rw [if_pos hgo, if_pos hgo, estate_bind_ok (copyPages_ok _ _ s), PagerState.after, run_pageOps]
    unfold backfilled Vfs.backfilledFile
    rw [← hmark]
    by_cases hall : s.vfs.index.mxSafe = s.vfs.index.mxFrame
    · simp only [if_pos hall]
      unfold truncateMain
      simp only [bind_assoc, estate_get_bind, perform_bind]
      rw [after_after]
      rfl
    · simp only [if_neg hall, append_nil]
      rfl
  · rw [if_neg hgo, if_neg hgo]
    rfl

end GraphiteSql
