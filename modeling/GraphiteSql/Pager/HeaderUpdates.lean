import GraphiteSql.Pager.HeaderSync

/-! No lost header update in rollback-journal mode: whole statements of several connections, and
which of them write a header that another connection's commit made stale.
-/

namespace GraphiteSql

open Lib PagerState LockLevel
open Std (TreeMap)

section Finish

variable {ps : Nat} {s s' : PagerState}

theorem releaseLocks_idle (hs : Settled ps s.wp)
    : Runs releaseLocks s (fun _ t => t.vfs.disk = s.vfs.disk ∧ Idle ps t.wp) (fun _ _ => False) :=
  (releaseLocks_done hs.rollbackMode).mono
    (fun _ _ ht => ⟨ht.1.disk, hs.relocked ht.1, ht.2⟩) (fun _ _ => id)

/-- A successful commit of pending changes: it wrote nothing because nothing was staged, or the
file is now under the header of the commit.
-/
def CommitWrote (ps : Nat) (s s' : PagerState) : Prop :=
  (s.wp.overlay.isEmpty ∧ s'.vfs.disk = s.vfs.disk)
    ∨ (Dirty s ∧ ∃ p, prepareCommit s = .ok () p ∧ Prepared s p
      ∧ FileUnder p.wp.header s'.vfs.disk.db ∧ p.wp.header.pageSize.toNat = ps)

theorem commit_pending (hs : Pending ps s.wp)
    : Runs commit s (fun _ s' => Idle ps s'.wp ∧ CommitWrote ps s s')
      (fun _ t => t.vfs.disk = s.vfs.disk ∧ Anchored ps t.wp) := by
  unfold commit
  rw [runs_get_bind]
  split_ifs with hempty hwal
  · exact (releaseLocks_idle (hs.untouched hempty)).mono
      (fun _ t ht => ⟨ht.2, Or.inl ⟨hempty, ht.1⟩⟩) (fun _ _ => False.elim)
  · rw [hs.rollbackMode] at hwal
    cases hwal
  have hpaged : s.wp.overlay.Paged s.wp.pageSize := by
    rw [hs.pageSize]
    exact hs.paged
  refine (commitJournal_runs hs.rollbackMode hs.journal hempty hpaged).mono (fun _ s' hs' => ?_)
    (fun _ t ht => ⟨ht.sameFiles.1, hs.toAnchored.changed ht⟩)
  obtain ⟨p, originals, hprep, hp, horig, hdone, hheld⟩ := hs'
  have hvalid : p.wp.header.Valid := hs.headerValid.of_layout hp.changed.layout
  have hlayout : p.wp.header.layout.pageSize = s.wp.header.layout.pageSize := by
    rw [hp.changed.layout]
  have hsize : p.wp.header.pageSize.toNat = ps :=
    (congrArg UInt32.toNat hlayout).trans hs.headerSize
  have hpos : 1 ≤ p.wp.pageCount.toNat := hp.changed.positive hs.count
  have hcommitted : Settled ps (p.committed originals).wp := {
    rollbackMode := hp.wal.trans hs.rollbackMode
    journal := hp.journal.trans hs.journal
    pageSize := hp.pageSize.trans hs.pageSize
    positive := hpos
    valid := hvalid
    geometry := hsize
    clean := TreeMap.isEmpty_emptyc
    header := rfl
    pages := rfl }
  have hfile : FileUnder p.wp.header s'.vfs.disk.db := by
    rw [hdone.disk]
    simp only [committed, after, run_commitOps_db]
    exact hp.fileUnder hvalid (hsize.trans hs.pageSize.symm) hpos (zero_not_staged horig) _
  exact ⟨⟨hcommitted.relocked hdone, hheld⟩, Or.inr ⟨hempty, p, hprep, hp, hfile, hsize⟩⟩

end Finish

-- Whole statements

def Statement.locksFirst : Statement → Bool
  | .pages _ _ => true
  | .userVersion _ | .applicationId _ => false

/-- The connection is in step with the file: its header and size are those on disk, or the
statement takes the write lock first and the change counter on disk is not the connection's.
-/
def Statement.InStep (st : Statement) (s : PagerState) : Prop :=
  ∃ h, diskHeader s.vfs.disk.db = .ok h
    ∧ ((s.wp.header = h ∧ s.wp.diskPages = h.sizeInPages)
      ∨ (st.locksFirst ∧ h.changeCounter ≠ s.wp.header.changeCounter))

instance (st : Statement) (s : PagerState) : Decidable (st.InStep s) :=
  match hdisk : diskHeader s.vfs.disk.db with
  | .ok h =>
      decidable_of_iff ((s.wp.header = h ∧ s.wp.diskPages = h.sizeInPages)
        ∨ (st.locksFirst ∧ h.changeCounter ≠ s.wp.header.changeCounter))
        ⟨fun hcase => ⟨h, hdisk, hcase⟩, fun ⟨_, hdisk', hcase⟩ => by
          rw [hdisk] at hdisk'
          cases hdisk'
          exact hcase⟩
  | .error _ => .isFalse fun ⟨_, hdisk', _⟩ => by
      rw [hdisk] at hdisk'
      cases hdisk'

/-- The header fields that `p` is about to commit as the transaction found them in `s₀` are on
disk as they were before.
-/
structure KeepsUnchanged (s₀ p : PagerState) (before after : DatabaseHeader) : Prop where
  freelistTrunk : p.wp.header.freelistTrunk = s₀.wp.header.freelistTrunk
    → after.freelistTrunk = before.freelistTrunk
  freelistCount : p.wp.header.freelistCount = s₀.wp.header.freelistCount
    → after.freelistCount = before.freelistCount
  schemaCookie : p.wp.header.schemaCookie = s₀.wp.header.schemaCookie
    → after.schemaCookie = before.schemaCookie
  sizeInPages : p.wp.pageCount = s₀.wp.pageCount → after.sizeInPages = before.sizeInPages

/-- If the statement commits, no header update of an earlier commit is lost: what the statement
did not change itself is on disk as before, and a header that is written back was the one on
disk when the statement began. `s₀` is the state after its begin, `s₁` the state it commits and
`p` the state that is flushed.
-/
def Statement.NoLostUpdate (st : Statement) (s : PagerState) : Prop :=
  ∀ s₀ s₁ s', st.commits → st.begin s = .ok () s₀ → st.change s₀ = .ok () s₁
    → commit s₁ = .ok () s'
    → ∃ before after, diskHeader s.vfs.disk.db = .ok before ∧ diskHeader s'.vfs.disk.db = .ok after
      ∧ (s₁.wp.overlay.isEmpty → s'.vfs.disk = s.vfs.disk)
      ∧ ∀ p, Dirty s₁ → prepareCommit s₁ = .ok () p
        → s₀.wp.header = before ∧ KeepsUnchanged s₀ p before after

section Statements

variable {h : DatabaseHeader} {s : PagerState}

theorem begin_idle (hs : Idle h.pageSize.toNat s.wp) (hfile : FileUnder h s.vfs.disk.db)
    (st : Statement)
    : Runs st.begin s
      (fun _ t => t.vfs.disk = s.vfs.disk ∧ Settled h.pageSize.toNat t.wp
        ∧ (st.locksFirst → reserved ≤ t.wp.held) ∧ (st.InStep s → Synced h t.wp))
      (fun _ t => t.vfs.disk = s.vfs.disk ∧ Anchored h.pageSize.toNat t.wp) := by
  have hstep : st.InStep s
      → Synced h s.wp ∨ (st.locksFirst ∧ h.changeCounter ≠ s.wp.header.changeCounter) := by
    rintro ⟨h', hh', hcase⟩
    rw [hfile.header] at hh'
    cases hh'
    rcases hcase with ⟨hheader, hpages⟩ | hdiff
    · exact .inl ⟨hheader, hpages⟩
    · exact .inr hdiff
  have hquiet : st.locksFirst = false → Runs (pure ()) s
      (fun _ t => t.vfs.disk = s.vfs.disk ∧ Settled h.pageSize.toNat t.wp
        ∧ (st.locksFirst → reserved ≤ t.wp.held) ∧ (st.InStep s → Synced h t.wp))
      (fun (_ : Error) t => t.vfs.disk = s.vfs.disk ∧ Anchored h.pageSize.toNat t.wp) := by
    intro hlocks
    refine ⟨rfl, hs.toSettled, fun h =>
      absurd h (by rw [hlocks]; exact Bool.false_ne_true), fun hin => ?_⟩
    rcases hstep hin with hsync | hdiff
    · exact hsync
    · exact absurd hdiff.1 (by rw [hlocks]; exact Bool.false_ne_true)
  cases st with
  | pages ops commits =>
    refine (beginWrite_idle hs hfile).mono (fun _ t ht => ?_) (fun _ _ => id)
    obtain ⟨hdisk, hsettled, hheld, hsync⟩ := ht
    exact ⟨hdisk, hsettled, fun _ => hheld, fun hin => hsync ((hstep hin).imp id And.right)⟩
  | userVersion v => exact hquiet rfl
  | applicationId v => exact hquiet rfl

theorem change_pending {t : PagerState} (ht : Settled h.pageSize.toNat t.wp)
    (hfile : FileUnder h t.vfs.disk.db) {st : Statement}
    (hlocked : st.locksFirst → reserved ≤ t.wp.held)
    : Runs st.change t
      (fun _ u => u.vfs.disk = t.vfs.disk ∧ Pending h.pageSize.toNat u.wp)
      (fun _ u => u.vfs.disk = t.vfs.disk ∧ Anchored h.pageSize.toNat u.wp) := by
  have hheader : ∀ change : DatabaseHeader → DatabaseHeader,
      (∀ h : DatabaseHeader, h.Valid → (change h).Valid) → (∀ h, (change h).pageSize = h.pageSize)
        → Runs (headerMut change) t
            (fun _ u => u.vfs.disk = t.vfs.disk ∧ Pending h.pageSize.toNat u.wp)
            (fun _ u => u.vfs.disk = t.vfs.disk ∧ Anchored h.pageSize.toNat u.wp) :=
    fun _ hvalid hsize => (headerMut_pending ht hfile hvalid hsize).mono (fun _ _ => id)
      (fun _ _ => False.elim)
  cases st with
  | pages ops commits => exact pageOps_pending ht (hlocked rfl) ops
  | userVersion v =>
    exact hheader (fun header => { header with userVersion := v })
      (fun h hv => { hv with }) (fun _ => rfl)
  | applicationId v =>
    exact hheader (fun header => { header with applicationId := v })
      (fun h hv => { hv with }) (fun _ => rfl)

/-- A statement that is in step with the file loses no update. -/
theorem noLostUpdate_of_inStep (hs : Idle h.pageSize.toNat s.wp)
    (hfile : FileUnder h s.vfs.disk.db) {st : Statement} (hin : st.InStep s)
    : st.NoLostUpdate s := by
  intro s₀ s₁ s' _ hbegin hchange hcommit
  obtain ⟨hdisk₀, hsettled, hlocked, hsync⟩ := (begin_idle hs hfile st).ok hbegin
  have hfile₀ : FileUnder h s₀.vfs.disk.db := by rw [hdisk₀]; exact hfile
  obtain ⟨hdisk₁, hpending⟩ := (change_pending hsettled hfile₀ hlocked).ok hchange
  obtain ⟨-, hwrote⟩ := (commit_pending hpending).ok hcommit
  have hdisk : s₁.vfs.disk = s.vfs.disk := hdisk₁.trans hdisk₀
  have hsynced : Synced h s₀.wp := hsync hin
  rcases hwrote with ⟨hempty, hsame⟩ | ⟨hdirty, p, hprep, hp, hfile', -⟩
  · refine ⟨h, h, hfile.header, by rw [hsame, hdisk]; exact hfile.header,
      fun _ => hsame.trans hdisk,
      fun p hdirty => absurd hempty hdirty⟩
  refine ⟨h, p.wp.header, hfile.header, hfile'.header, fun hempty => absurd hempty hdirty,
    fun p' _ hprep' => ?_⟩
  rw [hprep] at hprep'
  cases hprep'
  have hheader := hsynced.header
  refine ⟨hheader, ⟨?_, ?_, ?_, fun hcount => ?_⟩⟩
  · rw [hheader]; exact id
  · rw [hheader]; exact id
  · rw [hheader]; exact id
  · rw [hp.size, hcount, hsettled.pages, hsynced.pages]

/-- A whole statement leaves a whole file and its connection idle, whatever happens. -/
theorem run_idle (hs : Idle h.pageSize.toNat s.wp) (hfile : FileUnder h s.vfs.disk.db)
    (st : Statement)
    : Ends st.run s
      fun t => ∃ h',
        FileUnder h' t.vfs.disk.db ∧ h'.pageSize = h.pageSize ∧ Idle h.pageSize.toNat t.wp := by
  have hkeep : ∀ {t u : PagerState}, t.vfs.disk = s.vfs.disk
      → u.vfs.disk = t.vfs.disk ∧ Idle h.pageSize.toNat u.wp
      → ∃ h', FileUnder h' u.vfs.disk.db ∧ h'.pageSize = h.pageSize
        ∧ Idle h.pageSize.toNat u.wp := by
    intro t u ht hu
    refine ⟨h, ?_, rfl, hu.2⟩
    rw [hu.1, ht]
    exact hfile
  have hrollback : ∀ t : PagerState, t.vfs.disk = s.vfs.disk ∧ Anchored h.pageSize.toNat t.wp
      → Runs rollback t
          (fun _ u => ∃ h', FileUnder h' u.vfs.disk.db ∧ h'.pageSize = h.pageSize
            ∧ Idle h.pageSize.toNat u.wp) (fun _ _ => False) :=
    fun t ht => (rollback_idle ht.2).mono (fun _ _ hu => hkeep ht.1 hu) (fun _ _ => id)
  refine runs_onError ?_
    (fun _ t ht => (hrollback t ht).mono (fun _ _ => id) (fun _ _ => False.elim))
  refine (begin_idle hs hfile st).seq fun _ t ht => ?_
  obtain ⟨hdisk₀, hsettled, hlocked, -⟩ := ht
  rw [runs_bind]
  have hfile₀ : FileUnder h t.vfs.disk.db := by rw [hdisk₀]; exact hfile
  refine (change_pending hsettled hfile₀ hlocked).mono (fun _ u hu => ?_)
    (fun _ u hu => ⟨hu.1.trans hdisk₀, hu.2⟩)
  obtain ⟨hdisk₁, hpending⟩ := hu
  split_ifs with hcommits
  · refine (commit_pending hpending).mono (fun _ v hv => ?_)
      (fun _ v hv => ⟨hv.1.trans (hdisk₁.trans hdisk₀), hv.2⟩)
    obtain ⟨hidle, ⟨-, hsame⟩ | ⟨-, p, -, -, hfile', hsize⟩⟩ := hv
    · exact hkeep (hdisk₁.trans hdisk₀) ⟨hsame, hidle⟩
    · exact ⟨p.wp.header, hfile', UInt32.toNat_inj.mp hsize, hidle⟩
  · exact (hrollback u ⟨hdisk₁.trans hdisk₀, hpending.toAnchored⟩).mono (fun _ _ => id)
      (fun _ _ => False.elim)

end Statements

-- Scripts of statements

/-- A whole file, and every connection between two statements. -/
def World.Quiet (w : World) : Prop :=
  ∃ h, FileUnder h w.vfs.disk.db ∧ ∀ wp ∈ w.conns, Idle h.pageSize.toNat wp

theorem World.Quiet.step {w : World} (hw : w.Quiet) (i : Nat) (st : Statement)
    : (w.call i st.run).Quiet := by
  obtain ⟨h, hfile, hidle⟩ := hw
  refine World.call_keeps ⟨h, hfile, hidle⟩ fun s hs => ?_
  obtain ⟨hvfs, hmem⟩ := World.state_mem hs
  have hput : ∀ t : PagerState, (∃ h', FileUnder h' t.vfs.disk.db ∧ h'.pageSize = h.pageSize
      ∧ Idle h.pageSize.toNat t.wp) → (w.put i t).Quiet := by
    rintro t ⟨h', hfile', hsize, ht⟩
    refine ⟨h', hfile', fun wp hwp => ?_⟩
    rw [hsize]
    rcases World.put_conns hwp with rfl | hother
    · exact ht
    · exact hidle wp hother
  exact (run_idle (hidle s.wp hmem) (by rw [hvfs]; exact hfile) st).imp hput

/-- In a script of whole statements, each of a connection that is in step with the file, no
commit loses a header update of an earlier one.
-/
theorem header_updates_kept {w : World} (hw : w.Quiet) {script : List (Nat × Statement)}
    (hscript : Meets World.runStatement (fun w c => ∀ s ∈ w.state c.1, c.2.InStep s) w script)
    : Meets World.runStatement (fun w c => ∀ s ∈ w.state c.1, c.2.NoLostUpdate s) w script := by
  refine Meets.of_invariant _ World.Quiet (fun w c hw hin => ?_) hw hscript
  refine ⟨fun s hs => ?_, hw.step c.1 c.2⟩
  obtain ⟨h, hfile, hidle⟩ := hw
  obtain ⟨hvfs, hmem⟩ := World.state_mem hs
  exact noLostUpdate_of_inStep (hidle s.wp hmem) (by rw [hvfs]; exact hfile) (hin s hs)

def twoConnections : World where
  vfs := {
    disk := { db := (newHeader 512 .none).toBytes ++ zeroPage 412, journal := [], wal := [] }
    trace := []
    locks := .default
    index := .new }
  conns := [.fresh (newHeader 512 .none) 1 1 true false none,
    .fresh (newHeader 512 .none) 1 1 true false none]

theorem twoConnections_quiet : twoConnections.Quiet := by
  have hvalid : (newHeader 512 .none).Valid := ⟨by decide, by decide, by decide, by decide⟩
  refine ⟨newHeader 512 .none, ⟨?_, by decide +kernel, by decide⟩, fun wp hwp => ?_⟩
  · decide +kernel
  have hfresh : wp = .fresh (newHeader 512 .none) 1 1 true false none := by
    simpa [twoConnections] using hwp
  rw [hfresh]
  exact {
    rollbackMode := rfl
    journal := rfl
    pageSize := rfl
    positive := Nat.le_refl 1
    valid := hvalid
    geometry := rfl
    clean := TreeMap.isEmpty_emptyc
    header := rfl
    pages := rfl
    unlocked := rfl }

/-- One connection allocates a page; the other, which sees by the change counter that its header
is stale, allocates the next.
-/
theorem header_updates_kept_sample
    : twoConnections.Quiet
      ∧ Meets World.runStatement (fun w c => ∀ s ∈ w.state c.1, c.2.NoLostUpdate s) twoConnections
          [(1, .pages [.allocate] true), (0, .pages [.allocate] true), (0, .userVersion 7)] :=
  ⟨twoConnections_quiet, header_updates_kept twoConnections_quiet (by decide +kernel)⟩

/-- The state after the begin of a committing statement, the state it commits, the state that is
flushed and the state after the commit, when all its calls succeed.
-/
def Statement.stages (st : Statement) (s : PagerState)
    : Option (PagerState × PagerState × PagerState × PagerState) :=
  match st.begin s with
  | .error _ _ => none
  | .ok _ s₀ =>
      match st.change s₀ with
      | .error _ _ => none
      | .ok _ s₁ =>
          match prepareCommit s₁, commit s₁ with
          | .ok _ p, .ok _ s' => some (s₀, s₁, p, s')
          | _, _ => none

theorem Statement.stages_ok {st : Statement} {s s₀ s₁ p s' : PagerState}
    (h : st.stages s = some (s₀, s₁, p, s'))
    : st.begin s = .ok () s₀ ∧ st.change s₀ = .ok () s₁ ∧ prepareCommit s₁ = .ok () p
      ∧ commit s₁ = .ok () s' := by
  unfold stages at h
  cases hbegin : st.begin s with
  | error e t => simp [hbegin] at h
  | ok u t =>
    cases hchange : st.change t with
    | error e t' => simp [hbegin, hchange] at h
    | ok u t' =>
      cases hprep : prepareCommit t' with
      | error e q => simp [hbegin, hchange, hprep] at h
      | ok u q =>
        cases hcommit : commit t' with
        | error e q => simp [hbegin, hchange, hprep, hcommit] at h
        | ok u q' =>
          simp only [hbegin, hchange, hprep, hcommit, Option.some.injEq, Prod.mk.injEq] at h
          obtain ⟨rfl, rfl, rfl, rfl⟩ := h
          exact ⟨rfl, hchange, hprep, hcommit⟩

/-- One connection grows the file to two pages. The other then sets `user_version`: it takes no
lock before it edits its header, so it commits the old page count over the new one and the file
loses its second page.
-/
theorem header_only_commit_shrinks_file
    : twoConnections.Quiet
      ∧ ∃ s s₀ s₁ p s' before after,
          (exec World.runStatement twoConnections [(1, .pages [.allocate] true)]).state 0 = some s
          ∧ (Statement.userVersion 7).stages s = some (s₀, s₁, p, s')
          ∧ diskHeader s.vfs.disk.db = .ok before ∧ diskHeader s'.vfs.disk.db = .ok after
          ∧ before.sizeInPages = 2 ∧ p.wp.pageCount = s₀.wp.pageCount ∧ after.sizeInPages = 1
          ∧ ¬ (Statement.userVersion 7).NoLostUpdate s := by
  refine ⟨twoConnections_quiet, ?_⟩
  have hrun : ((exec World.runStatement twoConnections [(1, .pages [.allocate] true)]).state 0).bind
      (fun s => ((Statement.userVersion 7).stages s).bind fun (s₀, s₁, p, s') =>
        some (s₁.wp.overlay.isEmpty, p.wp.pageCount == s₀.wp.pageCount,
          (diskHeader s.vfs.disk.db).map (·.sizeInPages),
          (diskHeader s'.vfs.disk.db).map (·.sizeInPages)))
      = some (false, true, .ok 2, .ok 1) := by
    decide +kernel
  obtain ⟨s, hs, hrun⟩ := Option.bind_eq_some_iff.mp hrun
  obtain ⟨⟨s₀, s₁, p, s'⟩, hstages, hvalues⟩ := Option.bind_eq_some_iff.mp hrun
  simp only [Option.some.injEq, Prod.mk.injEq, beq_iff_eq] at hvalues
  obtain ⟨hdirty, hcount, hbefore, hafter⟩ := hvalues
  cases hb : diskHeader s.vfs.disk.db with
  | error e => simp [hb, Except.map] at hbefore
  | ok before =>
    cases ha : diskHeader s'.vfs.disk.db with
    | error e => simp [ha, Except.map] at hafter
    | ok after =>
      simp only [hb, ha, Except.map, Except.ok.injEq] at hbefore hafter
      refine ⟨s, s₀, s₁, p, s', before, after, hs, hstages, hb, ha, hbefore, hcount, hafter, ?_⟩
      intro hkept
      obtain ⟨hbegin, hchange, hprep, hcommit⟩ := Statement.stages_ok hstages
      obtain ⟨before', after', hb', ha', -, hfields⟩ := hkept s₀ s₁ s' rfl hbegin hchange hcommit
      rw [hb] at hb'
      rw [ha] at ha'
      cases hb'
      cases ha'
      have hsize :=
        (hfields p (by rw [Dirty, hdirty]; exact Bool.false_ne_true) hprep).2.sizeInPages hcount
      rw [hbefore, hafter] at hsize
      exact absurd hsize (by decide)

end GraphiteSql
