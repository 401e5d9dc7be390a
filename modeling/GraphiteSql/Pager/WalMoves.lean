import GraphiteSql.Pager.WalRuns

/-! How one call moves the committed database and the views of its readers. -/

namespace GraphiteSql

open Lib List PagerState WritePager
open Std (TreeMap)

variable {p : PagerState}

/-- Every page that a transaction adds to the database is one that it stages. -/
def PagerState.StagesGrowth (s : PagerState) : Prop :=
  ∀ k < s.wp.pageCount.toNat, (s.snapshotSize s.vfs.index.snapshot).toNat ≤ k
    → s.wp.overlay.contains (.ofNat (k + 1)) = true

instance (s : PagerState) : Decidable s.StagesGrowth :=
  inferInstanceAs (Decidable (∀ k < s.wp.pageCount.toNat, _))

theorem PagerState.StagesGrowth.covered {ps : Nat} {db : Db} {s : PagerState} (h : s.StagesGrowth)
    (tracks : Tracks ps db s.vfs) (hps : s.wp.pageSize = ps)
    : Covered db.size s.wp.pageCount.toNat s := by
  intro n hn hle
  have hpos : n.toNat ≠ 0 := by
    have hlt := UInt32.lt_iff_toNat_lt.mp hn
    omega
  have hstaged := h (n.toNat - 1) (by omega) (by
    rw [tracks.snapshotSize hps]
    have hlt := UInt32.lt_iff_toNat_lt.mp hn
    omega)
  rw [Nat.sub_add_cancel (Nat.one_le_iff_ne_zero.mpr hpos), UInt32.ofNat_toNat] at hstaged
  exact TreeMap.contains_iff_mem.mp hstaged

/-- A transaction that stages its growth leaves no hole. -/
theorem Db.Total.commit {db : Db} (total : db.Total)
    (hcovered : Covered db.size p.wp.pageCount.toNat p)
    : (db.commit p.wp.overlay p.wp.pageCount).Total := by
  intro n hzero hle
  have hrange : ¬ (n = 0 ∨ p.wp.pageCount < n) := by
    simp only [not_or, UInt32.not_lt]
    exact ⟨hzero, hle⟩
  simp only [Db.commit, if_neg hrange]
  cases hstaged : p.wp.overlay[n]? with
  | some b => exact ⟨b, rfl⟩
  | none =>
    have hold : n ≤ db.size := by
      by_contra hnew
      have hmem := hcovered n (UInt32.not_le.mp hnew) (UInt32.le_iff_toNat_le.mp hle)
      rw [TreeMap.mem_iff_isSome_getElem?, hstaged] at hmem
      cases hmem
    exact total n hzero hold

/-- What a call does to the shared state, as seen by all connections: the committed database goes
from `db` to `db'`, open views stay, and the log is restarted only when nobody needs it.
-/
structure Moves (ps : Nat) (db db' : Db) (rest : List Nat) (s t : PagerState) : Prop where
  after : Calls ps db' rest t
  pin : t.wp.pin = none ∨ t.wp.pin = s.wp.pin
    ∨ s.wp.pin = none ∧ db' = db ∧ t.wp.pin = some (t.vfs.index.newPin db.size)
  sees : ∀ view pin, pin.mark ∈ s.vfs.index.readers → Sees ps db.size s.vfs view pin
    → Sees ps db'.size t.vfs view pin
      ∧ t.vfs.index.log.take pin.mxFrame = s.vfs.index.log.take pin.mxFrame
  restart : s.vfs.index.log <+: t.vfs.index.log
    ∨ s.vfs.index.readers = [] ∧ ∀ n b, db.page n = some b → mainPage ps t.vfs.disk.db n = some b

section Moves

variable {ps : Nat} {db : Db} {rest : List Nat} {s t : PagerState}

theorem Quiet.moves (h : Quiet ps db.size rest s t) (calls : Calls ps db rest s)
    (guarded : t.wp.Guarded) (locksPin : LocksPin t) : Moves ps db db rest s t where
  after :=
    { tracks := h.tracks calls.tracks
      attached := h.attached
      guarded
      locksPin
      readers := h.readers }
  pin := by
    rcases h.pin with hnone | hsame | ⟨hnone, hnew⟩
    · exact .inl hnone
    · exact .inr (Or.inl hsame)
    · refine .inr (Or.inr ⟨hnone, rfl, ?_⟩)
      rw [h.index]
      exact hnew
  sees := by
    intro view pin _ hsees
    have hlog : t.vfs.index.log = s.vfs.index.log := by rw [h.index]
    refine ⟨hsees.congr ?_ ?_ (by rw [hlog]) ?_, by rw [hlog]⟩
    · rw [hlog]
      exact hsees.bound
    · rw [hlog]
      exact hsees.newest
    · intro n b _ _ _ hmain
      rw [h.disk]
      exact hmain
  restart := by
    refine .inl ?_
    rewrite [h.index]
    exact prefix_refl _

theorem silent_moves (calls : Calls ps db rest s) {c : WalCall} (hc : c.Silent)
    : Ends c.run s (Moves ps db db rest s) :=
  ((silent_quiet calls hc).and (silent_locksPin calls hc)).imp fun _ ht =>
    ht.1.1.moves calls ht.1.2 ht.2

theorem appended_log {w : WalRuntime} (hp : WalPrepared s p)
    : (s.vfs.index.restartLog = s.vfs.index
        ∧ (p.appended w).vfs.index.log
          = s.vfs.index.log ++ commitFrames p.wp.pageCount p.wp.overlay.toList)
      ∨ (s.vfs.index.nBackfill = s.vfs.index.mxFrame ∧ s.vfs.index.readers = []) := by
  have happends := appendedIndex_appends p w hp.nonempty
  rw [hp.staged.vfs] at happends
  rcases restartLog_cases s.vfs.index with hsame | ⟨-, hdone, hreaders⟩
  · refine .inl ⟨hsame, ?_⟩
    rw [hsame] at happends
    exact happends.log
  · exact .inr ⟨hdone, hreaders⟩

/-- A commit moves the database on; readers keep their frames. -/
theorem appended_moves (calls : Calls ps db rest s) {w : WalRuntime} (hp : WalPrepared s p)
    (hquiet : Quiet ps p.wp.pageCount rest (p.appended w) t) (hpin : t.wp.pin = none)
    (hclean : Clean t) : Moves ps db (db.commit p.wp.overlay p.wp.pageCount) rest s t := by
  have htracks : Tracks ps (db.commit p.wp.overlay p.wp.pageCount) (p.appended w).vfs :=
    calls.tracks.appended calls.attached.pageSize hp (hp.staged.positive calls.attached.positive)
  have hlog : t.vfs.index.log = (p.appended w).vfs.index.log := by rw [hquiet.index]
  have hdb : t.vfs.disk.db = s.vfs.disk.db := by rw [hquiet.disk, appended_db, hp.staged.vfs]
  exact {
    after :=
      { tracks := htracks.congr (by rw [hquiet.disk]) hlog (by rw [hquiet.index])
          (by rw [hquiet.index])
        attached := hquiet.attached
        guarded := hclean.guarded
        locksPin := absurd hpin
        readers := hquiet.readers }
    pin := Or.inl hpin
    sees := by
      intro view pin hmark hsees
      rcases appended_log (w := w) hp with ⟨-, hgrown⟩ | ⟨-, hnone⟩
      · have htake : t.vfs.index.log.take pin.mxFrame = s.vfs.index.log.take pin.mxFrame := by
          rw [hlog, hgrown, take_append_of_le_length hsees.bound]
        have hlen : s.vfs.index.log.length < t.vfs.index.log.length := by
          rw [hlog, hgrown, length_append, commitFrames_length]
          have hpos := length_pos_iff.mpr hp.nonempty
          omega
        refine ⟨hsees.congr ?_ ?_ htake ?_, htake⟩
        · exact Nat.le_trans hsees.bound (Nat.le_of_lt hlen)
        · intro hle
          have hbound := hsees.bound
          omega
        · intro n b _ _ _ hmain
          rw [hdb]
          exact hmain
      · rw [hnone] at hmark
        cases hmark
    restart := by
      rcases appended_log (w := w) hp with ⟨-, hgrown⟩ | ⟨hdone, hnone⟩
      · refine .inl ?_
        rw [hlog, hgrown]
        exact prefix_append _ _
      refine .inr ⟨hnone, fun n b hpage => ?_⟩
      rw [hdb]
      refine calls.tracks.inMain n b hpage ?_
      rw [hdone, calls.tracks.mxFrame, drop_length]
      rfl }

/-- A checkpoint moves pages into the main file, and nothing else. -/
theorem Checkpointed.moves (h : Checkpointed ps db s t) (calls : Calls ps db rest s)
    : Moves ps db db rest s t where
  after :=
    { tracks := h.tracks
      attached := h.attached
      guarded := fun hdirty => by
        rw [h.held]
        exact calls.guarded (by rw [← h.overlay]; exact hdirty)
      locksPin := fun hpin => by
        rw [h.held]
        exact calls.locksPin (by rw [← h.pin]; exact hpin)
      readers := by
        have hmarks : t.wp.marks = s.wp.marks := by rw [marks, h.pin, marks]
        rw [h.readers, hmarks]
        exact calls.readers }
  pin := Or.inr (Or.inl h.pin)
  sees := by
    intro view pin hmark hsees
    rcases h.log with ⟨hindex, -⟩ | ⟨-, -, hnone⟩
    · have hlog : t.vfs.index.log = s.vfs.index.log := by rw [hindex]
      refine ⟨hsees.congr ?_ ?_ (by rw [hlog]) ?_, by rw [hlog]⟩
      · rw [hlog]
        exact hsees.bound
      · rw [hlog]
        exact hsees.newest
      intro n b hzero hle hnone hmain
      rw [hsees.mark] at hmark
      refine h.main pin.mxFrame hmark n b hzero hnone (fun hend => ?_) hmain
      rw [← hsees.newest hend]
      exact hle
    · rw [hnone] at hmark
      cases hmark
  restart := by
    rcases h.log with ⟨hindex, -⟩ | ⟨hindex, -, hnone⟩
    · refine .inl ?_
      rewrite [hindex]
      exact prefix_refl _
    · refine .inr ⟨hnone, fun n b hpage => h.tracks.inMain n b hpage ?_⟩
      rw [hindex]
      rfl

theorem dbAfter_commit {u : Unit} (hdirty : s.wp.overlay.isEmpty = false)
    (hprep : prepareWal s = .ok () p) (hcommit : commit s = .ok u t)
    : s.dbAfter db .commit = db.commit p.wp.overlay p.wp.pageCount := by
  simp [dbAfter, hdirty, hprep, hcommit]

/-- Every call moves the database by `dbAfter`. -/
theorem call_moves (calls : Calls ps db rest s) (c : WalCall)
    : Ends c.run s (Moves ps db (s.dbAfter db c) rest s) := by
  cases c with
  | checkpoint mode => exact (checkpoint_runs calls mode).imp fun _ ht => ht.moves calls
  | commit =>
    have hrun := commit_runs calls
    cases hcommit : commit s with
    | error e t =>
      refine .of_error hcommit ?_
      obtain ⟨hdirty, hstaged⟩ := hrun.error hcommit
      have hdb : s.dbAfter db .commit = db := by
        simp only [dbAfter, hdirty, hcommit]
        cases prepareWal s <;> rfl
      rw [hdb]
      refine (calls.quiet.staged hstaged).moves calls ?_ ?_
      · intro _
        rw [hstaged.held]
        exact calls.guarded hdirty
      intro hpin
      rw [hstaged.held]
      rw [pin, hstaged.wal] at hpin
      exact calls.locksPin hpin
    | ok u t =>
      refine .of_ok hcommit ?_
      rcases hrun.ok hcommit with ⟨hempty, hquiet, hpin, hclean⟩
        | ⟨p, w, hdirty, hprep, hp, -, hquiet, hpin, hclean⟩
      · have hdb : s.dbAfter db .commit = db := by simp [dbAfter, hempty]
        rw [hdb]
        exact hquiet.moves calls hclean.guarded fun h => absurd hpin h
      · rw [dbAfter_commit hdirty hprep hcommit]
        exact appended_moves calls hp hquiet hpin hclean
  | beginRead | endRead | refresh | beginWrite | page _ | rollback =>
    exact silent_moves calls trivial

/-- The database has no holes after a commit that stages what it adds. -/
theorem dbAfter_total (calls : Calls ps db rest s) (total : db.Total) (c : WalCall)
    (hgrowth : c = .commit → s.wp.overlay.isEmpty = true ∨ s.StagesGrowth)
    : (s.dbAfter db c).Total := by
  cases c with
  | commit =>
    rcases hgrowth rfl with hempty | hstages
    · have hdb : s.dbAfter db .commit = db := by simp [dbAfter, hempty]
      rw [hdb]
      exact total
    unfold dbAfter
    dsimp only
    split
    · exact total
    rename_i hdirty
    have hlog : s.LogPaged := fun _ f hf =>
      (calls.tracks.paged f hf).trans calls.attached.pageSize.symm
    have hprep := prepareWal_runs (calls.guarded (Bool.eq_false_iff.mpr hdirty)) hlog
      fun n b hb => (calls.attached.paged n b hb).trans calls.attached.pageSize.symm
    split
    · rename_i hrun _
      refine total.commit ((hprep.ok hrun).covered _ ?_)
      exact hstages.covered calls.tracks calls.attached.pageSize
    · exact total
  | beginRead | endRead | refresh | beginWrite | page _ | rollback | checkpoint _ => exact total

end Moves

end GraphiteSql
