import GraphiteSql.Pager.WalLog

/-! The database that the log and the main file hold together: an abstract committed database,
and how the shared index and the main file represent it.
-/

namespace GraphiteSql

open Lib List PagerState
open Std (TreeMap)

variable {p : IndexFrame → Bool} {pages : List (UInt32 × Bytes)} {log : List IndexFrame}
  {n count : UInt32} {b : Bytes} {s : PagerState}

def lastFrame (p : IndexFrame → Bool) (log : List IndexFrame) : Option IndexFrame :=
  log.reverse.find? p

theorem lastFrame_append (p : IndexFrame → Bool) (xs ys : List IndexFrame)
    : lastFrame p (xs ++ ys) = (lastFrame p ys).or (lastFrame p xs) := by
  rw [lastFrame, reverse_append, find?_append]
  rfl

theorem lastFrame_eq_none
    : lastFrame p log = none ↔ ∀ f ∈ log, ¬ p f := by
  simp [lastFrame]

theorem lastFrame_mem {f : IndexFrame} (h : lastFrame p log = some f) : f ∈ log ∧ p f :=
  ⟨mem_reverse.mp (mem_of_find?_eq_some h), find?_some h⟩

def newest (log : List IndexFrame) (n : UInt32) : Option Bytes :=
  (lastFrame (·.pageNo == n) log).map IndexFrame.data

theorem newest_append (xs ys : List IndexFrame) (n : UInt32)
    : newest (xs ++ ys) n = (newest ys n).or (newest xs n) := by
  rw [newest, lastFrame_append, newest]
  cases lastFrame (·.pageNo == n) ys <;> rfl

theorem newest_eq_none
    : newest log n = none ↔ ∀ f ∈ log, f.pageNo ≠ n := by
  rw [newest, Option.map_eq_none_iff, lastFrame_eq_none]
  simp

theorem newest_mem (h : newest log n = some b)
    : ∃ f ∈ log, f.pageNo = n ∧ f.data = b := by
  obtain ⟨f, hf, rfl⟩ := Option.map_eq_some_iff.mp h
  obtain ⟨hmem, hp⟩ := lastFrame_mem hf
  exact ⟨f, hmem, by simpa using hp, rfl⟩

theorem newest_commitFrames (hdistinct : pages.Pairwise fun a b => a.1 ≠ b.1)
    (hmem : (n, b) ∈ pages) : newest (commitFrames count pages) n = some b := by
  induction pages with
  | nil => cases hmem
  | cons head tail ih =>
    obtain ⟨hhead, htail⟩ := pairwise_cons.mp hdistinct
    rw [commitFrames, ← singleton_append, newest_append]
    rcases mem_cons.mp hmem with rfl | hmem
    · have hnone : newest (commitFrames count tail) n = none := by
        refine newest_eq_none.mpr fun f hf hpage => ?_
        exact hhead _ (mem_commitFrames hf) hpage.symm
      rw [hnone]
      simp [newest, lastFrame]
    · rw [ih htail hmem]
      rfl

theorem findFrame_eq (ix : WalIndex) (n : UInt32) (mx : Nat)
    : ix.findFrame n mx = newest (ix.log.take mx) n := by
  rw [WalIndex.findFrame, newest, lastFrame, ← take_eq_take_min]

def lastSize (log : List IndexFrame) : Option UInt32 :=
  (lastFrame (·.commitDbSize != 0) log).map IndexFrame.commitDbSize

theorem lastSize_ne_zero {size : UInt32} (h : lastSize log = some size)
    : size ≠ 0 := by
  obtain ⟨f, hf, rfl⟩ := Option.map_eq_some_iff.mp h
  simpa using (lastFrame_mem hf).2

theorem snapshotDbSize_eq (ix : WalIndex) (mx : Nat)
    : ix.snapshotDbSize mx = lastSize (ix.log.take mx) := by
  rw [WalIndex.snapshotDbSize, lastSize, lastFrame, ← take_eq_take_min]

theorem fullDbSize_eq (ix : WalIndex) : ix.fullDbSize = (lastSize ix.log).getD 0 := rfl

theorem lastSize_commit (hcount : count ≠ 0) (log : List IndexFrame) (hpages : pages ≠ [])
    : lastSize (log ++ commitFrames count pages) = some count := by
  obtain ⟨init, last, hframes, hlast, -⟩ := commitFrames_last count hpages
  rw [hframes, ← append_assoc, lastSize, lastFrame_append]
  have hmark : lastFrame (·.commitDbSize != 0) [last] = some last := by
    simp [lastFrame, hlast, hcount]
  rw [hmark]
  exact congrArg some hlast

/-- A committed database: its size in pages, and the committed images of its pages. -/
structure Db where
  size : UInt32
  page : UInt32 → Option Bytes

/-- The database after a transaction: its pages replace the old ones, and pages past the new
size are gone.
-/
def Db.commit (db : Db) (pages : Overlay) (count : UInt32) : Db where
  size := count
  page n := if n = 0 ∨ count < n then none else pages[n]?.or (db.page n)

def mainPage (pageSize : Nat) (file : Bytes) (n : UInt32) : Option Bytes :=
  slice file ((n.toNat - 1) * pageSize) pageSize

/-- The index and the main file hold the database `db`: the newest frame of a page is its image,
and a page without a frame past the backfill mark is in the main file.
-/
structure Tracks (pageSize : Nat) (db : Db) (v : Vfs) : Prop where
  pageSize_pos : 0 < pageSize
  mxFrame : v.index.mxFrame = v.index.log.length
  backfill : v.index.nBackfill ≤ v.index.log.length
  paged : ∀ f ∈ v.index.log, f.data.length = pageSize
  sized : v.index.log ≠ [] → lastSize v.index.log = some db.size
  positive : 1 ≤ db.size.toNat
  range : ∀ n b, db.page n = some b → n ≠ 0 ∧ n ≤ db.size ∧ b.length = pageSize
  inLog : ∀ n b data, db.page n = some b → newest v.index.log n = some data → data = b
  inMain : ∀ n b, db.page n = some b → newest (v.index.log.drop v.index.nBackfill) n = none
    → mainPage pageSize v.disk.db n = some b
  settled : v.index.nBackfill = v.index.log.length → v.disk.db.length = db.size.toNat * pageSize

section Tracks

variable {ps : Nat} {db : Db} {v v' : Vfs}

/-- What the representation depends on. -/
theorem Tracks.congr (h : Tracks ps db v) (hdb : v'.disk.db = v.disk.db)
    (hlog : v'.index.log = v.index.log) (hmx : v'.index.mxFrame = v.index.mxFrame)
    (hback : v'.index.nBackfill = v.index.nBackfill) : Tracks ps db v' where
  pageSize_pos := h.pageSize_pos
  mxFrame := by rw [hmx, hlog]; exact h.mxFrame
  backfill := by rw [hback, hlog]; exact h.backfill
  paged := by rw [hlog]; exact h.paged
  sized := by rw [hlog]; exact h.sized
  positive := h.positive
  range := h.range
  inLog := by rw [hlog]; exact h.inLog
  inMain := by rw [hlog, hback, hdb]; exact h.inMain
  settled := by rw [hlog, hback, hdb]; exact h.settled

theorem Tracks.newest_or_main (h : Tracks ps db v) (hpage : db.page n = some b)
    : (newest v.index.log n).or (mainPage ps v.disk.db n) = some b := by
  cases hnew : newest v.index.log n with
  | some data => exact congrArg some (h.inLog n b data hpage hnew)
  | none =>
    refine h.inMain n b hpage (newest_eq_none.mpr fun f hf => ?_)
    exact newest_eq_none.mp hnew f (mem_of_mem_drop hf)

theorem mainFilePageCount_eq (hpos : 0 < s.wp.pageSize)
    (hlen : s.vfs.disk.db.length = count.toNat * s.wp.pageSize)
    : s.mainFilePageCount = some count := by
  unfold mainFilePageCount
  rw [hlen, Nat.mul_mod_left, Nat.mul_div_cancel _ hpos, if_neg (by omega)]
  simp

/-- A snapshot taken now sees the size of the committed database. -/
theorem Tracks.snapshotSize (h : Tracks ps db s.vfs) (hps : s.wp.pageSize = ps)
    : s.snapshotSize s.vfs.index.snapshot = db.size := by
  unfold PagerState.snapshotSize
  rw [snapshotDbSize_eq, WalIndex.snapshot, h.mxFrame, take_length]
  by_cases hlog : s.vfs.index.log = []
  · have hempty : s.vfs.index.nBackfill = s.vfs.index.log.length := by
      have := h.backfill
      rw [hlog] at this ⊢
      simpa using this
    have hmain : s.mainFilePageCount = some db.size :=
      mainFilePageCount_eq (by rw [hps]; exact h.pageSize_pos) (by rw [hps]; exact h.settled hempty)
    rw [hlog, hmain]
    rfl
  · rw [h.sized hlog]
    rfl

def PagerState.newestPage (s : PagerState) (n : UInt32) : Result Bytes :=
  match s.vfs.index.findFrame n s.vfs.index.mxFrame with
  | some bytes => .ok bytes
  | none =>
      if n = 0 ∨ s.snapshotSize s.vfs.index.snapshot < n then
        .error (.corrupt s!"page {n} out of range")
      else s.readDisk n

theorem readPage_newest {w : WalRuntime} (hwal : s.wp.wal = some w)
    (hmx : w.snapshot.mxFrame = s.vfs.index.mxFrame)
    (hsize : w.dbSize = s.snapshotSize s.vfs.index.snapshot)
    (hstaged : s.wp.overlay[n]? = none) : s.readPage n = s.newestPage n := by
  unfold PagerState.readPage PagerState.newestPage
  rw [hstaged, hwal]
  dsimp only
  rewrite [hmx, hsize]
  rfl

theorem Tracks.newestPage (h : Tracks ps db s.vfs) (hps : s.wp.pageSize = ps)
    (hpage : db.page n = some b) : s.newestPage n = .ok b := by
  obtain ⟨hzero, hrange, -⟩ := h.range n b hpage
  have hboth := h.newest_or_main hpage
  unfold PagerState.newestPage
  rw [findFrame_eq, h.mxFrame, take_length, h.snapshotSize hps]
  cases hnew : newest s.vfs.index.log n with
  | some data =>
    rw [hnew] at hboth
    cases hboth
    rfl
  | none =>
    rw [hnew] at hboth
    rw [if_neg (by simp only [not_or, UInt32.not_lt]; exact ⟨hzero, hrange⟩)]
    rw [readDisk, hps]
    exact readExactAt_ok.mpr hboth

theorem Tracks.readPage (h : Tracks ps db s.vfs) (hps : s.wp.pageSize = ps)
    {w : WalRuntime} (hwal : s.wp.wal = some w) (hmx : w.snapshot.mxFrame = s.vfs.index.mxFrame)
    (hsize : w.dbSize = db.size) (hpage : db.page n = some b)
    (hstaged : s.wp.overlay[n]? = none) : s.readPage n = .ok b := by
  rw [readPage_newest hwal hmx (hsize.trans (h.snapshotSize hps).symm) hstaged]
  exact h.newestPage hps hpage

theorem Tracks.restart (h : Tracks ps db v) (hdone : v.index.nBackfill = v.index.log.length)
    (hdb : v'.disk.db = v.disk.db) (hlog : v'.index.log = []) (hmx : v'.index.mxFrame = 0)
    (hback : v'.index.nBackfill = 0) : Tracks ps db v' where
  pageSize_pos := h.pageSize_pos
  mxFrame := by rw [hmx, hlog]; rfl
  backfill := by rw [hback]; exact Nat.zero_le _
  paged := by rw [hlog]; exact fun _ hf => by cases hf
  sized := by rw [hlog]; exact fun hne => absurd rfl hne
  positive := h.positive
  range := h.range
  inLog := by
    intro n b data _ hnew
    rw [hlog] at hnew
    cases hnew
  inMain := by
    intro n b hpage _
    rw [hdb]
    refine h.inMain n b hpage ?_
    rw [hdone, drop_length]
    rfl
  settled := by rw [hdb]; exact fun _ => h.settled hdone

/-- The log is restarted only when nothing in it is still needed. -/
theorem restartLog_cases (ix : WalIndex)
    : ix.restartLog = ix
      ∨ (ix.restartLog = ix.restartHdr ∧ ix.nBackfill = ix.mxFrame ∧ ix.readers = []) := by
  unfold WalIndex.restartLog
  split
  · rename_i hcond
    refine .inr ⟨rfl, hcond.2.1, ?_⟩
    have hmark := hcond.2.2
    rw [WalIndex.minReaderMark, min?_eq_none_iff] at hmark
    exact hmark
  · exact .inl rfl

theorem Tracks.restartLog (h : Tracks ps db v)
    : Tracks ps db { v with index := v.index.restartLog } := by
  rcases restartLog_cases v.index with hsame | ⟨hrestart, hdone, -⟩
  · rw [hsame]
    exact h
  · rw [hrestart]
    exact h.restart (by rw [hdone, h.mxFrame]) rfl rfl rfl rfl

/-- `ix'` is `ix` with `frames` appended and published. -/
structure AppendsTo (ix ix' : WalIndex) (frames : List IndexFrame) : Prop where
  log : ix'.log = ix.log ++ frames
  mxFrame : ix'.mxFrame = (ix.log ++ frames).length
  nBackfill : ix'.nBackfill = ix.nBackfill
  readers : ix'.readers = ix.readers
  generation : ix'.generation = ix.generation

/-- Appending the frames of a transaction moves the database on by that transaction. -/
theorem Tracks.append (h : Tracks ps db v) {pages : Overlay}
    (hcount : 1 ≤ count.toNat) (hsome : pages.toList ≠ [])
    (hpaged : ∀ (n : UInt32) (b : Bytes), pages[n]? = some b → b.length = ps)
    (hdb : v'.disk.db = v.disk.db)
    (hix : AppendsTo v.index v'.index (commitFrames count pages.toList))
    : Tracks ps (db.commit pages count) v' := by
  have hcount' : count ≠ 0 := fun h0 => by rw [h0] at hcount; exact absurd hcount (by decide)
  have hmem : ∀ f ∈ commitFrames count pages.toList, pages[f.pageNo]? = some f.data := fun f hf =>
    TreeMap.mem_toList_iff_getElem?_eq_some.mp (mem_commitFrames hf)
  have hstaged : ∀ {n : UInt32} {b : Bytes}, pages[n]? = some b
      → newest (commitFrames count pages.toList) n = some b := fun hb =>
    newest_commitFrames (overlay_distinct pages) (TreeMap.mem_toList_iff_getElem?_eq_some.mpr hb)
  have hunstaged : ∀ {n : UInt32}, pages[n]? = none
      → newest (commitFrames count pages.toList) n = none := by
    intro n hn
    refine newest_eq_none.mpr fun f hf hpage => ?_
    rw [← hpage, hmem f hf] at hn
    cases hn
  -- Where an image of the new database comes from.
  have hpage : ∀ {n : UInt32} {b : Bytes}, (db.commit pages count).page n = some b
      → n ≠ 0 ∧ n ≤ count ∧ (pages[n]? = some b ∨ (pages[n]? = none ∧ db.page n = some b)) := by
    intro n b hb
    simp only [Db.commit] at hb
    split_ifs at hb with hrange
    simp only [not_or, UInt32.not_lt] at hrange
    refine ⟨hrange.1, hrange.2, ?_⟩
    cases hn : pages[n]? with
    | some data =>
      rw [hn] at hb
      exact .inl hb
    | none =>
      rw [hn] at hb
      exact .inr ⟨rfl, hb⟩
  exact {
    pageSize_pos := h.pageSize_pos
    mxFrame := by rw [hix.mxFrame, hix.log]
    backfill := by
      rw [hix.nBackfill, hix.log, length_append]
      exact Nat.le_add_right_of_le h.backfill
    paged := by
      rw [hix.log]
      intro f hf
      rcases mem_append.mp hf with hf | hf
      · exact h.paged f hf
      · exact hpaged f.pageNo f.data (hmem f hf)
    sized := by
      rw [hix.log]
      exact fun _ => lastSize_commit hcount' _ hsome
    positive := hcount
    range := by
      intro n b hb
      obtain ⟨hzero, hrange, hcase⟩ := hpage hb
      refine ⟨hzero, hrange, ?_⟩
      rcases hcase with hb | ⟨-, hb⟩
      · exact hpaged n b hb
      · exact (h.range n b hb).2.2
    inLog := by
      intro n b data hb hnew
      rw [hix.log, newest_append] at hnew
      rcases (hpage hb).2.2 with hb | ⟨hn, hb⟩
      · rw [hstaged hb] at hnew
        exact (Option.some.inj hnew).symm
      · rw [hunstaged hn] at hnew
        exact h.inLog n b data hb hnew
    inMain := by
      intro n b hb hnew
      rw [hix.log, hix.nBackfill, drop_append_of_le_length h.backfill, newest_append] at hnew
      rcases (hpage hb).2.2 with hb | ⟨hn, hb⟩
      · rw [hstaged hb] at hnew
        cases hnew
      · rw [hunstaged hn] at hnew
        rw [hdb]
        exact h.inMain n b hb hnew
    settled := by
      rw [hix.log, hix.nBackfill, length_append, commitFrames_length]
      intro hdone
      have hlen := length_pos_iff.mpr hsome
      have hback := h.backfill
      omega }

end Tracks

end GraphiteSql
