import GraphiteSql.Fts5.Doclists
import GraphiteSql.Fts5.Writer

/-! Streaming a doclist: the writer's steps between two terms, in bulk and in merge mode, append
the rowids and position lists to the stream of the term, wherever leaves are closed in between.
-/

namespace GraphiteSql.Fts5

open Lib List Varint

/-- What no step of the writer changes. -/
def SegWriter.config (w : SegWriter) : Nat × Fts5Detail × Bool :=
  (w.pgsz, w.detail, w.mergeMode)

/-- The writer is in the doclist of `key`, whose stream so far is `s`. The rowid written last is
`rowid`, unless the next one is absolute anyway.
-/
structure Streaming (config : Nat × Fts5Detail × Bool) (w : SegWriter)
    (keys : List (Bytes × Stream)) (key : Bytes) (s : Stream) (rowid : Int64) : Prop where
  config : w.config = config
  writes : Writes w (keys ++ [(key, s)])
  first : w.firstRowidInDoclist = decide (s.1 = [])
  prev : w.firstRowidInPage = false → s.1 ≠ [] → w.prevRowid = rowid

namespace Streaming

variable {config : Nat × Fts5Detail × Bool} {w : SegWriter} {keys : List (Bytes × Stream)}
  {key : Bytes} {s : Stream} {rowid : Int64} (h : Streaming config w keys key s rowid)

include h

theorem flush : Streaming config w.flush keys key s rowid where
  config := h.config
  writes := h.writes.flush
  first := h.first
  prev := nofun

theorem extend (hs : s.1 ≠ []) (bytes : Bytes)
    : Streaming config (w.extend bytes) keys key (s.data bytes) rowid where
  config := h.config
  writes := h.writes.extend hs bytes
  first := by
    have hnew : s.1 ++ bytes ≠ [] := fun hnil => hs (append_eq_nil_iff.mp hnil).1
    show w.firstRowidInDoclist = decide (s.1 ++ bytes = [])
    rw [h.first, decide_eq_false hs, decide_eq_false hnew]
  prev := fun hpage _ => h.prev hpage hs

omit h in
theorem data_ne_nil (hs : s.1 ≠ []) (bytes : Bytes) : (s.data bytes).1 ≠ [] := fun hnil =>
  hs (append_eq_nil_iff.mp hnil).1

theorem flushIfFull : Streaming config w.flushIfFull keys key s rowid := by
  rw [SegWriter.flushIfFull]
  split
  · exact h.flush
  · exact h

/-- The merge writer's loop copies the whole rest. A round that copies nothing closes a full
leaf, after which there is room.
-/
theorem mergeData {fuel : Nat} {a : Bytes} (hs : s.1 ≠ []) (ha : Varints a) (hpgsz : 4 < config.1)
    (hfuel : 2 * a.length + (if config.1 ≤ w.used then 1 else 0) < fuel)
    : ∃ w', SegWriter.mergeData fuel w a = .ok w'
      ∧ Streaming config w' keys key (s.data a) rowid := by
  induction fuel generalizing w s a with
  | zero => omega
  | succ fuel ih =>
    have hw : w.pgsz = config.1 := congrArg Prod.fst h.config
    rw [SegWriter.mergeData]
    split
    · rename_i hfull
      have hreach := Varints.reach ((w.pgsz : Int) - w.used) a.length
        (show Varints (a.drop 0) by rwa [drop_zero]) (Nat.zero_le _)
      obtain ⟨nC, hnC⟩ : ∃ nC, min (SegWriter.reach a (w.pgsz - w.used) a.length 0) a.length = nC :=
        ⟨_, rfl⟩
      rw [Nat.min_eq_left hreach.2.1] at hnC
      rw [hnC] at hreach
      have hused : ((w.extend (a.take nC)).flush).used = 4 := rfl
      obtain ⟨w', hok, hw'⟩ := @ih (w.extend (a.take nC)).flush (s.data (a.take nC))
        (h.extend hs _).flush (a.drop nC) (data_ne_nil hs _) hreach.2.2 (by
          rw [if_neg (by omega), length_drop]
          by_cases hroom : config.1 ≤ w.used
          · rw [if_pos hroom] at hfuel
            omega
          have hne : a ≠ [] := by
            intro hnil
            rw [hnil, length_nil] at hfull
            omega
          have hpos := Varints.reach_pos ha hne
            (show (0 : Int) < (w.pgsz : Int) - w.used by omega)
          omega)
      refine ⟨w', ?_, ?_⟩
      · dsimp only
        rw [Nat.min_eq_left (by omega), hnC]
        exact hok
      · rwa [Stream.data_data, take_append_drop] at hw'
    · exact ⟨_, rfl, h.extend hs a⟩

omit h in
theorem bulkCount {rest : Bytes} (hrest : Varints rest) (hne : rest ≠ [])
    : ∃ n, w.bulkCount rest = .ok n ∧ 0 < n ∧ n ≤ rest.length ∧ Varints (rest.drop n) := by
  rw [SegWriter.bulkCount]
  split
  · refine ⟨rest.length, rfl, length_pos_of_ne_nil hne, Nat.le_refl _, ?_⟩
    rw [drop_length]
    exact .nil
  · exact hrest.poslistPrefix hne _

/-- The bulk writer's loop copies the whole rest. -/
theorem bulkData {fuel : Nat} {rest : Bytes} (hs : s.1 ≠ []) (hrest : Varints rest)
    (hne : rest ≠ []) (hfuel : rest.length < fuel)
    : ∃ w', SegWriter.bulkData fuel w rest = .ok w'
      ∧ Streaming config w' keys key (s.data rest) rowid := by
  induction fuel generalizing w s rest with
  | zero => omega
  | succ fuel ih =>
    obtain ⟨n, hcount, hpos, hle, hdrop⟩ := bulkCount (w := w) hrest hne
    have hcopied := (h.extend hs (rest.take n)).flushIfFull
    rw [SegWriter.bulkData, hcount, except_ok_bind, if_neg (by omega)]
    split
    · rename_i hnil
      rw [take_of_length_le (drop_eq_nil_iff.mp hnil)] at hcopied ⊢
      exact ⟨_, rfl, hcopied⟩
    rename_i hmore
    obtain ⟨w', hok, hw'⟩ := ih hcopied (data_ne_nil hs _) hdrop hmore (by
      rw [length_drop]
      omega)
    rw [Stream.data_data, take_append_drop] at hw'
    exact ⟨w', hok, hw'⟩

theorem appendPoslistData {data : Bytes} (hs : s.1 ≠ []) (hdata : Varints data)
    (hne : w.mergeMode = false → data ≠ []) (hpgsz : 4 < config.1)
    : ∃ w', w.appendPoslistData data = .ok w'
      ∧ Streaming config w' keys key (s.data data) rowid := by
  rw [SegWriter.appendPoslistData]
  split
  · refine h.mergeData hs hdata hpgsz ?_
    split <;> omega
  rename_i hmode
  split
  · exact ⟨_, rfl, h.extend hs data⟩
  · exact h.bulkData hs hdata (hne (by simpa using hmode)) (Nat.lt_succ_self _)

theorem appendPoslist {pl : Bytes} (hs : s.1 ≠ []) (hpl : Varints pl)
    (hne : w.mergeMode = false → pl ≠ []) (hpgsz : 4 < config.1)
    : ∃ w', w.appendPoslist pl = .ok w' ∧ Streaming config w' keys key (s.data pl) rowid := by
  rw [SegWriter.appendPoslist]
  split
  · rename_i hmode
    dsimp only
    generalize hn : Option.getD (Option.map _ (decode pl)) pl.length = n
    have hdrop : Varints (pl.drop n) := by
      by_cases hnil : pl = []
      · rw [hnil, drop_nil]
        exact .nil
      · obtain ⟨v, k, hdecode, hrest⟩ := hpl.decode hnil
        rw [hdecode] at hn
        rwa [← hn]
    have hsize := h.extend hs (pl.take n)
    split
    · obtain ⟨w', hok, hw'⟩ := hsize.appendPoslistData (data_ne_nil hs _) hdrop
        (fun hbulk => absurd (hmode.symm.trans hbulk) (by decide)) hpgsz
      rw [Stream.data_data, take_append_drop] at hw'
      exact ⟨w', hok, hw'⟩
    · rename_i hall
      rw [take_of_length_le (by omega)] at hsize ⊢
      exact ⟨_, rfl, hsize⟩
  · exact h.appendPoslistData hs hpl hne hpgsz

theorem roomForRowid : Streaming config w.roomForRowid keys key s rowid := by
  rw [SegWriter.roomForRowid]
  split
  · exact h.flush
  · exact h

/-- A rowid is written absolute, or as its distance from the one before. -/
theorem appendRowid (r : Int64) (leaf : Nat)
    : ∃ absolute : Bool, (s.1 = [] → absolute = true)
      ∧ Streaming config (w.appendRowid r leaf) keys key
          (if absolute then s.resume (encodeI64 r)
            else s.data (encodeI64 (r - rowid))) r := by
  have hroom := h.roomForRowid
  obtain ⟨w₁, hw₁⟩ : ∃ w₁, w.roomForRowid = w₁ := ⟨_, rfl⟩
  rw [hw₁] at hroom
  have hne := encodeI64_ne_nil r
  rw [SegWriter.appendRowid, hw₁]
  cases hpage : w₁.firstRowidInPage with
  | true =>
    refine ⟨true, fun _ => rfl, ?_⟩
    have hfield : (w₁.markFirstRowid r leaf).rowidField r = encodeI64 r := by
      rw [SegWriter.rowidField, SegWriter.markFirstRowid, if_pos hpage, if_pos (.inr hpage)]
    have hmark : w₁.markFirstRowid r leaf = _ := if_pos hpage
    rw [hfield]
    refine ⟨?_, hroom.writes.mark ⟨hpage, hne, ?_⟩, ?_, fun _ _ => rfl⟩ <;> rw [hmark]
    · exact hroom.config
    · rfl
    exact (decide_eq_false fun hnil => hne (append_eq_nil_iff.mp hnil).2).symm
  | false =>
    have hmark : w₁.markFirstRowid r leaf = w₁ := if_neg (by simp [hpage])
    rw [hmark]
    by_cases hs : s.1 = []
    · refine ⟨true, fun _ => rfl, ?_⟩
      have hfield : w₁.rowidField r = encodeI64 r := by
        rw [SegWriter.rowidField, hroom.first, if_pos (.inl (decide_eq_true hs))]
      rw [hfield]
      refine ⟨hroom.config, ?_, ?_, fun _ _ => rfl⟩
      · exact (hroom.writes.extend_first hs hpage _).congr (by rw [SegWriter.draft, ← hpage]; rfl)
      · exact (decide_eq_false fun hnil => hne (append_eq_nil_iff.mp hnil).2).symm
    refine ⟨false, fun hnil => absurd hnil hs, ?_⟩
    have hfield : w₁.rowidField r = encodeI64 (r - rowid) := by
      rw [SegWriter.rowidField, hroom.first, hpage, hroom.prev hpage hs, if_neg (by simp [hs])]
    rw [hfield]
    refine ⟨hroom.config, ?_, ?_, fun _ _ => rfl⟩
    · exact (hroom.writes.extend hs _).congr (by rw [SegWriter.draft, ← hpage]; rfl)
    · exact (decide_eq_false (data_ne_nil hs _)).symm

end Streaming

end GraphiteSql.Fts5
