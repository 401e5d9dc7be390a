import GraphiteSql.Pager.JournalFile

/-! Recovery from any journal, stopped at any file operation and started again. -/

namespace GraphiteSql

open Lib List Nat

/-- Writing pages decides a position one of them covers, whatever the file held. -/
theorem getD_writePagesTo_covered {pageSize i : Nat} {pages : List (UInt32 × Bytes)}
    (hpaged : ∀ page ∈ pages, page.2.length = pageSize)
    (hin : ∃ page ∈ pages, CoversPage pageSize page.1 i) (db db' : Bytes)
    : (writePagesTo pageSize pages db).getD i 0 = (writePagesTo pageSize pages db').getD i 0 := by
  induction pages generalizing db db' with
  | nil =>
    obtain ⟨page, hpage, -⟩ := hin
    cases hpage
  | cons head tail ih =>
    have hpaged' := fun page hp => hpaged page (mem_cons_of_mem head hp)
    by_cases htail : ∃ page ∈ tail, CoversPage pageSize page.1 i
    · exact ih hpaged' htail _ _
    -- the head is the last page written here
    · have hout : ∀ page ∈ tail, ¬ CoversPage pageSize page.1 i := fun page hp hcov =>
        htail ⟨page, hp, hcov⟩
      obtain ⟨page, hpage, hcov⟩ := hin
      obtain rfl : page = head :=
        (mem_cons.mp hpage).resolve_right fun hp => hout page hp hcov
      obtain ⟨j, hj, rfl⟩ := hcov.split
      have hwritten : ∀ db : Bytes, (writePagesTo pageSize (page :: tail) db).getD
          ((page.1.toNat - 1) * pageSize + j) 0 = page.2.getD j 0 := fun db =>
        (getD_writePagesTo_outside hpaged' hout).trans
          (getD_writeAt_inside (by rw [hpaged page mem_cons_self]; exact hj))
      rw [hwritten, hwritten]

namespace Playback

def restored (play : Playback) (db : Bytes) : Bytes :=
  resize (writePagesTo play.pageSize play.pages db) (play.origPages.toNat * play.pageSize) 0

variable {play : Playback}

/-- The restored file only depends on the positions no page covers. -/
theorem restored_eq {db db' : Bytes}
    (h : ∀ i < play.origPages.toNat * play.pageSize,
      (∀ page ∈ play.pages, ¬ CoversPage play.pageSize page.1 i) → db'.getD i 0 = db.getD i 0)
    : play.restored db' = play.restored db := by
  refine eq_of_getD 0 (resize_length.trans resize_length.symm) fun i hi => ?_
  rw [restored, resize_length] at hi
  rw [restored, restored, getD_resize hi, getD_resize hi]
  by_cases hin : ∃ page ∈ play.pages, CoversPage play.pageSize page.1 i
  · exact getD_writePagesTo_covered play.paged hin _ _
  have hout : ∀ page ∈ play.pages, ¬ CoversPage play.pageSize page.1 i := fun page hp hcov =>
    hin ⟨page, hp, hcov⟩
  rw [getD_writePagesTo_outside play.paged hout, getD_writePagesTo_outside play.paged hout]
  exact h i hi hout

theorem restored_take (db : Bytes) (k : Nat)
    : play.restored (writePagesTo play.pageSize (play.pages.take k) db) = play.restored db :=
  restored_eq fun _ _ hout => getD_writePagesTo_outside
    (fun page hp => play.paged page (mem_of_mem_take hp))
    (fun page hp => hout page (mem_of_mem_take hp))

theorem restored_pages (db : Bytes)
    : play.restored (writePagesTo play.pageSize play.pages db) = play.restored db := by
  have hfull : _ = play.restored db := restored_take db play.pages.length
  rwa [take_length] at hfull

theorem restored_restored (db : Bytes) : play.restored (play.restored db) = play.restored db :=
  restored_eq fun i hi hout => by
    rw [restored, getD_resize hi, getD_writePagesTo_outside play.paged hout]

theorem run_ops (hne : play.pages ≠ []) (d : Disk)
    : (d.run play.ops).db = play.restored d.db ∧ (d.run play.ops).journal = [] := by
  rw [ops, if_neg hne, Disk.run_append, run_pageOps]
  exact ⟨rfl, resize_zero⟩

/-- Where a run can stop behind the pages: before the journal is emptied, or with the file
restored.
-/
theorem run_endOps {d : Disk} {db : Bytes} (hdb : d.db = writePagesTo play.pageSize play.pages db)
    (j : Nat)
    : ((d.run (play.endOps.take j)).journal = d.journal
        ∧ play.restored (d.run (play.endOps.take j)).db = play.restored db)
      ∨ ((d.run (play.endOps.take j)).journal = []
        ∧ (d.run (play.endOps.take j)).db = play.restored db) := by
  have hend : resize d.db (play.origPages.toNat * play.pageSize) 0 = play.restored db := by
    rw [hdb, restored]
  have hagain := (congrArg play.restored hend).trans (restored_restored db)
  rcases j with _ | _ | _ | _ | j
  · exact .inl ⟨rfl, (congrArg play.restored hdb).trans (restored_pages db)⟩
  · exact .inl ⟨rfl, hagain⟩
  · exact .inl ⟨rfl, hagain⟩
  · exact .inr ⟨resize_zero, hend⟩
  · rw [take_of_length_le (show play.endOps.length ≤ j + 4 from le_add_left 4 j)]
    exact .inr ⟨resize_zero, hend⟩

/-- Where a run of the operations can stop: the journal is untouched and playing it back again
restores the same file, or the run is complete.
-/
theorem run_take (play : Playback) (d : Disk) (k : Nat)
    : ((d.run (play.ops.take k)).journal = d.journal
        ∧ play.restored (d.run (play.ops.take k)).db = play.restored d.db)
      ∨ ((d.run (play.ops.take k)).journal = [] ∧ play.pages ≠ []
        ∧ (d.run (play.ops.take k)).db = play.restored d.db) := by
  by_cases hne : play.pages = []
  · rw [ops, if_pos hne, take_nil]
    exact .inl ⟨rfl, rfl⟩
  rw [ops, if_neg hne, take_append, Disk.run_append]
  have hjournal := fun pages => congrArg Disk.journal (run_pageOps play.pageSize pages d)
  have hlen : (pageOps play.pageSize play.pages).length = play.pages.length := length_map _
  rcases lt_or_ge k play.pages.length with hk | hk
  -- stopped while the pages are written
  · have hrest : k - (pageOps play.pageSize play.pages).length = 0 := by omega
    have hcut : (pageOps play.pageSize play.pages).take k
        = pageOps play.pageSize (play.pages.take k) := map_take.symm
    rw [hrest, hcut]
    exact .inl ⟨hjournal _, (congrArg (play.restored ·.db) (run_pageOps _ _ d)).trans
      (restored_take d.db k)⟩
  rw [take_of_length_le (by omega)]
  exact (run_endOps (congrArg Disk.db (run_pageOps _ _ _)) _).imp
    (fun h => ⟨h.1.trans (hjournal _), h.2⟩) fun h => ⟨h.1, hne, h.2⟩

end Playback

/-- The bound on the walk is never what ends it. -/
theorem replaySegments_bound {jsize sector pageSize bound segOff : Nat} (extra : Nat)
    (h : jsize < segOff + bound)
    : replaySegments jsize sector pageSize (bound + extra) segOff
      = replaySegments jsize sector pageSize bound segOff := by
  induction bound generalizing segOff with
  | zero =>
    cases extra with
    | zero => rfl
    | succ extra =>
      exact if_pos (show jsize < segOff + journalHdrFields by omega)
  | succ bound ih =>
    rw [Nat.add_right_comm]
    refine ite_congr rfl (fun _ => rfl) fun _ => bind_congr fun o => bind_congr fun sh =>
      ite_congr rfl (fun _ => rfl) fun _ => bind_congr fun nrec => bind_congr fun nonce =>
      ite_congr rfl (fun _ => rfl) fun _ => bind_congr fun played =>
      ite_congr rfl (fun _ => rfl) fun _ => ite_congr rfl (fun _ => rfl) fun hnext => ?_
    rw [ih (by omega)]

/-- Recovery performs the operations of the journal's playback. It restores the file and empties
the journal exactly when the journal holds a record, and otherwise changes nothing. Stopped after
any number of file operations and started again, it ends with the files of one uninterrupted run.
The walk over the segments always ends by itself.
-/
theorem recover_restartable (o : Opening)
    : let play := playback o.vfs.disk.journal
      recover o = .ok () (o.after play.ops)
      ∧ (play.pages ≠ [] → (o.after play.ops).vfs.disk.journal = []
        ∧ (o.after play.ops).vfs.disk.db = play.restored o.vfs.disk.db)
      ∧ (play.pages = [] → o.after play.ops = o)
      ∧ (∀ k, ∃ o' : Opening, recover (o.after (play.ops.take k)) = .ok () o'
        ∧ o'.vfs.disk.db = (o.after play.ops).vfs.disk.db
        ∧ o'.vfs.disk.journal = (o.after play.ops).vfs.disk.journal)
      ∧ ∀ jsize sector pageSize extra,
          replaySegments jsize sector pageSize (jsize + 1 + extra) 0
            = replaySegments jsize sector pageSize (jsize + 1) 0 := by
  intro play
  refine ⟨recover_plays o, fun hne => (Playback.run_ops hne _).symm,
    fun hnil => by rw [Playback.ops, if_pos hnil, Opening.after_nil], fun k => ?_,
    fun jsize sector pageSize extra => replaySegments_bound extra (by omega)⟩
  rcases play.run_take o.vfs.disk k with ⟨hkept, hdb⟩ | ⟨hclear, hne, hdb⟩
  · have hagain : (o.after (play.ops.take k)).vfs.disk.journal = o.vfs.disk.journal := hkept
    refine ⟨_, hagain ▸ recover_plays (o.after (play.ops.take k)), ?_⟩
    by_cases hne : play.pages = []
    · simp [play, Playback.ops, hne, Opening.after]
    · obtain ⟨hdb1, hj1⟩ := Playback.run_ops hne o.vfs.disk
      obtain ⟨hdb2, hj2⟩ := Playback.run_ops hne (o.after (play.ops.take k)).vfs.disk
      exact ⟨hdb2.trans (hdb.trans hdb1.symm), hj2.trans hj1.symm⟩
  obtain ⟨hdb1, hj1⟩ := Playback.run_ops hne o.vfs.disk
  exact ⟨_, recover_short (show (o.after _).vfs.disk.journal.length < _ by
    rw [show (o.after (play.ops.take k)).vfs.disk.journal = [] from hclear]; decide),
    hdb.trans hdb1.symm, hclear.trans hj1.symm⟩

/-- A file of two pages next to a journal with one record, whose checksum is given. The file had
one page before the transaction.
-/
def crashed (cksum : UInt32) : Opening where
  vfs := ⟨⟨replicate 1024 1, (JournalImage.mk 0 1 512 []).header 1 ++ u32ToBytes 1
    ++ replicate 512 7 ++ u32ToBytes cksum, []⟩, [], .default, .new⟩
  level := .exclusive

/-- The record is whole. -/
def crashedWhole : Opening :=
  crashed (journalPageChecksum 0 (replicate 512 7))

/-- Recovery stopped after its first write and started again restores the page and the length,
and empties the journal.
-/
theorem recover_restartable_crashed
    : ∃ o' : Opening,
      recover (crashedWhole.after [.writeAllAt .db (replicate 512 7) 0]) = .ok () o'
      ∧ o'.vfs.disk.db = replicate 512 7 ∧ o'.vfs.disk.journal = [] := by
  have hpages : (playback crashedWhole.vfs.disk.journal).pages ≠ [] := by decide +kernel
  have hfirst : (playback crashedWhole.vfs.disk.journal).ops.take 1
      = [.writeAllAt .db (replicate 512 7) 0] := by decide +kernel
  have hpage : (playback crashedWhole.vfs.disk.journal).restored crashedWhole.vfs.disk.db
      = replicate 512 7 := by decide +kernel
  -- nothing below unfolds the files
  generalize crashedWhole = o at hpages hfirst hpage ⊢
  obtain ⟨-, hplayed, -, hagain, -⟩ := recover_restartable o
  obtain ⟨o', hrun, hdb, hjournal⟩ := hagain 1
  obtain ⟨hempty, hrestored⟩ := hplayed hpages
  exact ⟨o', hfirst ▸ hrun, hdb.trans (hrestored.trans hpage), hjournal.trans hempty⟩

/-- A run that plays nothing back neither restores the length of the file nor empties the journal,
which is hot.
-/
theorem recover_keeps_torn_journal
    : geometry (crashed 0).vfs.disk.journal = some (1, 512, 512)
      ∧ segmentAt (crashed 0).vfs.disk.journal 0 = some (1, 0)
      ∧ (match recover (crashed 0) with
        | .ok () o => (o.vfs.disk.db, o.vfs.disk.journal)
        | .error _ _ => ([], []))
        = ((crashed 0).vfs.disk.db, (crashed 0).vfs.disk.journal) := by
  decide +kernel

end GraphiteSql
