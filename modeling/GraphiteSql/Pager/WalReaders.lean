import GraphiteSql.Pager.WalWorld

/-! Checkpoints and commits change nothing for open readers, in any run of any number of
connections, as long as transactions stage every page they add.
-/

namespace GraphiteSql

open Lib Option List WritePager
open Std (TreeMap)

variable {ps : Nat} {t : WalRun}

-- The invariant of a run

/-- Every read transaction sees the database it began with. -/
structure WalRun.Inv (ps : Nat) (t : WalRun) : Prop extends World.Inv ps t.db t.world where
  total : t.db.Total
  views : ∀ i s pin, t.world.state i = some s → s.wp.pin = some pin
    → ∃ view, t.views i = some view ∧ view.Total ∧ Sees ps t.db.size t.world.vfs view pin

section Invariant

variable {i : Nat} {s : PagerState}

def WalRun.put (t : WalRun) (i : Nat) (u : PagerState) (db : Db) : WalRun :=
  { world := t.world.put i u, db, views := t.viewAfter (t.world.put i u) }

variable {u : PagerState} {db' : Db} {rest : List Nat}

theorem Moves.view (hmoves : Moves ps t.db db' rest s u) (h : t.Inv ps)
    (hstate : t.world.state i = some s) {j : Nat} {r : PagerState} {pin : Pin}
    (hr : t.world.state j = some r) (hpin : r.wp.pin = some pin)
    : ∃ view, t.views j = some view ∧ view.Total ∧ Sees ps t.db.size t.world.vfs view pin
      ∧ Sees ps db'.size u.vfs view pin
      ∧ u.vfs.index.log.take pin.mxFrame = t.world.vfs.index.log.take pin.mxFrame := by
  obtain ⟨hvfs, -⟩ := World.state_mem hstate
  obtain ⟨view, hview, htotal, hsees⟩ := h.views j r pin hr hpin
  obtain ⟨hsees', hlog⟩ := hmoves.sees view pin (by rw [hvfs]; exact h.toInv.registered hr hpin)
    (by rw [hvfs]; exact hsees)
  rw [hvfs] at hlog
  exact ⟨view, hview, htotal, hsees, hsees', hlog⟩

/-- The invariant is kept by every move. -/
theorem WalRun.Inv.put (h : t.Inv ps) {before after : List WritePager}
    (hstate : t.world.state i = some s) (hput : (t.world.put i u).conns = before ++ u.wp :: after)
    (hmoves : Moves ps t.db db' ((before ++ after).flatMap marks) s u)
    (total : db'.Total) : (t.put i u db').Inv ps where
  toInv := h.toInv.put hput hmoves.after
  total := total
  views := by
    intro j r pin hr hpin
    have hnew : (t.world.put i u).conns[j]?.bind WritePager.pin = some pin :=
      (World.state_pin hr).trans hpin
    have hkeep {r' : PagerState} (hr' : t.world.state j = some r') (hpin' : r'.wp.pin = some pin)
        : ∃ view, (t.put i u db').views j = some view ∧ view.Total
          ∧ Sees ps db'.size u.vfs view pin := by
      obtain ⟨view, hview, htotal, -, hsees, -⟩ := hmoves.view h hstate hr' hpin'
      refine ⟨view, ?_, htotal, hsees⟩
      simp only [WalRun.put, WalRun.viewAfter, hnew, (World.state_pin hr').trans hpin']
      exact hview
    by_cases hj : i = j
    · subst hj
      have hself : (t.world.put i u).state i = some u := World.put_state_self hstate
      have hru : r = u := Option.some.inj (hr.symm.trans hself)
      subst hru
      rcases hmoves.pin with hnone | hsame | ⟨hnone, rfl, hfresh⟩
      · rw [hnone] at hpin
        cases hpin
      · exact hkeep hstate (hsame.symm.trans hpin)
      refine ⟨t.db, ?_, h.total, ?_⟩
      · simp only [WalRun.put, WalRun.viewAfter, hnew, (World.state_pin hstate).trans hnone]
      · rw [hfresh] at hpin
        cases hpin
        exact hmoves.after.tracks.sees
    · rw [WalRun.put, World.put_state_other hj] at hr
      obtain ⟨r', hr', rfl⟩ := map_eq_some_iff.mp hr
      exact hkeep hr' hpin

end Invariant

section Steps

variable {db : Db} {rest : List Nat} {s : PagerState}

theorem call_pinned (calls : Calls ps db rest s) {pin : Pin} (hpin : s.wp.pin = some pin)
    {c : WalCall} (hends : ¬ c.EndsRead)
    : Ends c.run s fun t => t.wp.pin = some pin := by
  cases c with
  | checkpoint mode => exact (checkpoint_runs calls mode).imp fun _ ht => ht.pin.trans hpin
  | beginRead | refresh | beginWrite | page _ => exact silent_pinned calls hpin trivial hends
  | endRead | rollback | commit => exact absurd trivial hends

/-- After the refresh at a statement boundary, an unpinned connection reads the latest commit. -/
theorem refresh_current (calls : Calls ps db rest s) (hpin : s.wp.pin = none)
    (hheld : s.wp.held < .reserved)
    : Ends WalCall.refresh.run s fun t => ∀ n b, db.page n = some b → t.readPage n = .ok b := by
  obtain ⟨w, hwal, -⟩ := calls.attached.runtime
  have hclean : Clean s := calls.guarded.clean (not_le.mpr hheld)
  change Runs revalidateReadCache s _ _
  unfold revalidateReadCache
  rw [runs_get_bind, hwal]
  dsimp only
  rw [if_pos ⟨hheld, registeredMark_none hpin hwal⟩,
    calls.tracks.snapshotSize calls.attached.pageSize]
  intro n b hpage
  let w' : WalRuntime := { w with snapshot := s.vfs.index.snapshot, dbSize := db.size }
  have hunstaged : s.wp.overlay[n]? = none :=
    TreeMap.getElem?_of_isEmpty hclean
  exact Tracks.readPage (w := w') (s := { s with wp := { s.wp with
    wal := s.wp.wal.map fun w => { w with snapshot := s.vfs.index.snapshot, dbSize := db.size } } })
    calls.tracks calls.attached.pageSize (congrArg (Option.map _) hwal) rfl rfl hpage hunstaged

end Steps

/-- What the call `c` leaves to every reader. -/
structure WalRun.KeepsReads (ps : Nat) (t : WalRun) (c : Nat × WalCall) : Prop where
  /-- An open read transaction stays open and goes on reading the same, errors included. -/
  openReads : ∀ i s pin, t.world.state i = some s → s.wp.pin = some pin
    → ¬ (c.1 = i ∧ c.2.EndsRead)
    → ∃ s', (t.step c).world.state i = some s' ∧ s'.wp.pin = some pin
      ∧ ∀ n, s.wp.overlay[n]? = none → s'.wp.overlay[n]? = none → s'.readPage n = s.readPage n
  /-- It reads the database that was committed when it began. -/
  pinnedView : ∀ i s, (t.step c).world.state i = some s → s.wp.pin ≠ none
    → ∃ view, (t.step c).views i = some view ∧ ∀ n, n ≠ 0 → n ≤ view.size
      → s.wp.overlay[n]? = none → ∃ b, view.page n = some b ∧ s.readPage n = .ok b
  /-- An unpinned connection reads the latest commit at a statement boundary. -/
  statement : c.2 = .refresh → ∀ s s', t.world.state c.1 = some s → s.wp.pin = none
    → s.wp.held < .reserved → (t.step c).world.state c.1 = some s'
    → ∀ n, n ≠ 0 → n ≤ t.db.size → ∃ b, t.db.page n = some b ∧ s'.readPage n = .ok b
  /-- The main file and the frames past the backfill mark hold the latest commit. -/
  recoverable : ∀ n, n ≠ 0 → n ≤ (t.step c).db.size → ∃ b, (t.step c).db.page n = some b
    ∧ (newest ((t.step c).world.vfs.index.log.drop (t.step c).world.vfs.index.nBackfill) n).or
        (mainPage ps (t.step c).world.vfs.disk.db n) = some b
  /-- The log is restarted only when nobody reads and the main file has all of it. -/
  restart : t.world.vfs.index.log <+: (t.step c).world.vfs.index.log
    ∨ t.world.vfs.index.readers = []
      ∧ ∀ n b, t.db.page n = some b → mainPage ps (t.step c).world.vfs.disk.db n = some b

def WalRun.StagesGrowth (t : WalRun) (c : Nat × WalCall) : Prop :=
  c.2 = .commit → ∀ s ∈ t.world.state c.1, s.wp.overlay.isEmpty = true ∨ s.StagesGrowth

instance (t : WalRun) (c : Nat × WalCall) : Decidable (t.StagesGrowth c) :=
  inferInstanceAs (Decidable (c.2 = .commit → ∀ s ∈ t.world.state c.1, _))

section Run

theorem WalRun.Inv.recoverable (h : t.Inv ps) (n : UInt32) (hzero : n ≠ 0) (hle : n ≤ t.db.size)
    : ∃ b, t.db.page n = some b
      ∧ (newest (t.world.vfs.index.log.drop t.world.vfs.index.nBackfill) n).or
        (mainPage ps t.world.vfs.disk.db n) = some b := by
  obtain ⟨b, hpage⟩ := h.total n hzero hle
  refine ⟨b, hpage, ?_⟩
  cases hnew : newest (t.world.vfs.index.log.drop t.world.vfs.index.nBackfill) n with
  | none => exact h.tracks.inMain n b hpage hnew
  | some data =>
    refine congrArg some (h.tracks.inLog n b data hpage ?_)
    rw [← take_append_drop t.world.vfs.index.nBackfill t.world.vfs.index.log, newest_append, hnew]
    rfl

theorem WalRun.Inv.reads (h : t.Inv ps) {i : Nat} {s : PagerState}
    (hstate : t.world.state i = some s) (hpin : s.wp.pin ≠ none)
    : ∃ view, t.views i = some view ∧ ∀ n, n ≠ 0 → n ≤ view.size
      → s.wp.overlay[n]? = none → ∃ b, view.page n = some b ∧ s.readPage n = .ok b := by
  obtain ⟨pin, hsome⟩ := ne_none_iff_exists'.mp hpin
  obtain ⟨hvfs, hmem⟩ := World.state_mem hstate
  obtain ⟨view, hview, htotal, hsees⟩ := h.views i s pin hstate hsome
  rw [← hvfs] at hsees
  refine ⟨view, hview, fun n hzero hle hstaged => ?_⟩
  obtain ⟨b, hb⟩ := htotal n hzero hle
  exact ⟨b, hb, hsees.readPage hsome (h.attached s.wp hmem).1.pageSize hstaged hb⟩

theorem WalRun.step_put {c : Nat × WalCall} {s u : PagerState} (hstate : t.world.state c.1 = some s)
    (hcall : t.world.call c.1 c.2.run = t.world.put c.1 u)
    : t.step c = t.put c.1 u (s.dbAfter t.db c.2) := by
  simp only [WalRun.step, hstate, hcall, WalRun.put]

/-- One step keeps the invariant, and all that it means for readers. -/
theorem WalRun.Inv.step (h : t.Inv ps) (c : Nat × WalCall) (hgrowth : t.StagesGrowth c)
    : t.KeepsReads ps c ∧ (t.step c).Inv ps := by
  cases hstate : t.world.state c.1 with
  | none =>
    have hstep : t.step c = t := by simp only [WalRun.step, hstate]
    have hinv : (t.step c).Inv ps := hstep.symm ▸ h
    refine ⟨⟨?_, fun _ _ => hinv.reads, ?_, hinv.recoverable, ?_⟩, hinv⟩
    · intro i s pin hs hpin _
      exact ⟨s, hstep.symm ▸ hs, hpin, fun _ _ _ => rfl⟩
    · intro _ s s' hs
      rw [hstate] at hs
      cases hs
    · rw [hstep]
      exact .inl (prefix_refl _)
  | some s =>
    obtain ⟨before, after, hconns, hput⟩ := World.split hstate
    have hcalls := h.calls hstate hconns
    obtain ⟨hvfs, hmem⟩ := World.state_mem hstate
    obtain ⟨u, hcall, hends⟩ := World.call_put c.2.run hstate
    have hmoves := hends _ (call_moves hcalls c.2)
    have htotal := dbAfter_total hcalls h.total c.2 fun hc => hgrowth hc s hstate
    have hstep := WalRun.step_put hstate hcall
    have hinv : (t.step c).Inv ps := by
      rw [hstep]
      exact h.put hstate (hput u) hmoves htotal
    have hself : (t.step c).world.state c.1 = some u := by
      rw [hstep]
      exact World.put_state_self hstate
    refine ⟨⟨?_, fun _ _ => hinv.reads, ?_, hinv.recoverable, ?_⟩, hinv⟩
    · intro i r pin hr hpin hopen
      obtain ⟨view, -, hview, hsees, hsees', hlog⟩ := hmoves.view h hstate hr hpin
      obtain ⟨hrvfs, hrmem⟩ := World.state_mem hr
      rw [← hrvfs] at hsees hlog
      by_cases hi : c.1 = i
      · subst hi
        have hrs : r = s := Option.some.inj (hr.symm.trans hstate)
        subst hrs
        have hkept : u.wp.pin = some pin :=
          hends _ (call_pinned hcalls hpin fun hc => hopen ⟨rfl, hc⟩)
        refine ⟨u, hself, hkept, fun n hn hn' => ?_⟩
        exact hsees.readPage_eq hsees' hpin hkept hview hcalls.attached.pageSize
          hmoves.after.attached.pageSize hlog hn hn'
      have hother : (t.step c).world.state i = some { r with vfs := u.vfs } := by
        rw [hstep]
        exact (World.put_state_other hi).trans (congrArg _ hr)
      refine ⟨_, hother, hpin, fun n hn hn' => ?_⟩
      have hps := (h.attached r.wp hrmem).1.pageSize
      exact Sees.readPage_eq (t := { r with vfs := u.vfs }) hsees hsees' hpin hpin hview hps hps
        hlog hn hn'
    · intro hrefresh r r' hr hpin hheld hr' n hzero hle
      have hrs : r = s := Option.some.inj (hr.symm.trans hstate)
      have hru : r' = u := Option.some.inj (hr'.symm.trans hself)
      subst hrs hru
      obtain ⟨b, hb⟩ := h.total n hzero hle
      refine ⟨b, hb, ?_⟩
      have hcurrent := refresh_current hcalls hpin hheld
      rw [← hrefresh] at hcurrent
      exact hends _ hcurrent n b hb
    · have hrestart := hmoves.restart
      rw [hvfs] at hrestart
      rw [hstep]
      exact hrestart

end Run

/-- A world at rest, over a database with all its pages. -/
structure WalRun.AtRest (ps : Nat) (t : WalRun) : Prop extends World.AtRest ps t.db t.world where
  total : t.db.Total

theorem WalRun.AtRest.inv (h : t.AtRest ps) : t.Inv ps where
  toInv := h.toAtRest.inv
  total := h.total
  views := by
    intro i s pin hs hpin
    rw [(h.idle s.wp (World.state_mem hs).2).2] at hpin
    cases hpin

/-- In every run whose commits stage what they add, every step keeps what every reader sees. -/
theorem checkpoints_keep_reads {ps : Nat} {t : WalRun} (start : t.AtRest ps)
    {script : List (Nat × WalCall)} (hgrowth : Meets WalRun.step WalRun.StagesGrowth t script)
    : Meets WalRun.step (WalRun.KeepsReads ps) t script :=
  Meets.of_invariant WalRun.step (WalRun.Inv ps)
    (fun _ c hinv hc => hinv.step c hc) start.inv hgrowth

-- Two connections

def pairHeader : DatabaseHeader :=
  { newHeader 512 .none with writeVersion := 2, readVersion := 2 }

def pairPage : Bytes :=
  pairHeader.toBytes ++ zeroPage 412

/-- Page 1 with another byte behind its header. -/
def markedPage (v : UInt8) : Bytes :=
  pairPage.set 500 v

def pairConnection : WritePager :=
  .fresh pairHeader 1 1 true true (some {
    snapshot := { mxFrame := 0, generation := 0 }
    registeredMark := none
    dbSize := 1
    salt := { salt1 := 1, salt2 := 1 } })

/-- A database of one page in WAL mode, with an empty log and two connections. -/
def pair : WalRun where
  world :=
    { vfs :=
        { disk := { db := pairPage, journal := [], wal := [] }
          trace := []
          locks := .default
          index := { WalIndex.new with salt := { salt1 := 1, salt2 := 1 } } }
      conns := [pairConnection, pairConnection] }
  db := { size := 1, page := fun n => if n = 1 then some pairPage else none }
  views := fun _ => none

theorem pairPage_length : pairPage.length = 512 := by decide +kernel

theorem pair_atRest : pair.AtRest 512 := by
  have hpage : ∀ n b, pair.db.page n = some b → n = 1 ∧ b = pairPage := by
    intro n b h
    simp only [pair] at h
    split_ifs at h with hn
    cases h
    exact ⟨hn, rfl⟩
  have hconn : ∀ wp ∈ pair.world.conns, wp = pairConnection := by simp [pair]
  exact {
    tracks := {
      pageSize_pos := by decide
      mxFrame := rfl
      backfill := Nat.le_refl 0
      paged := fun f hf => by cases hf
      sized := fun h => absurd rfl h
      positive := Nat.le_refl 1
      range := by
        intro n b h
        obtain ⟨rfl, rfl⟩ := hpage n b h
        exact ⟨by decide, UInt32.le_refl 1, pairPage_length⟩
      inLog := fun n b data _ h => by cases h
      inMain := by
        intro n b h _
        obtain ⟨rfl, rfl⟩ := hpage n b h
        show slice pairPage 0 512 = some pairPage
        rw [← pairPage_length]
        exact slice_self
      settled := fun _ => pairPage_length }
    total := by
      intro n hzero hle
      have hn : n = 1 := by
        have hnum : n.toNat ≤ 1 := UInt32.le_iff_toNat_le.mp hle
        have hpos : n.toNat ≠ 0 := fun h0 => hzero (UInt32.toNat_inj.mp h0)
        exact UInt32.toNat_inj.mp (by show n.toNat = 1; omega)
      exact ⟨pairPage, by simp [pair, hn]⟩
    attached := by
      intro wp hwp
      rw [hconn wp hwp]
      exact ⟨⟨_, rfl, Nat.le_refl 1⟩, rfl, rfl, fun n b h => by
        simp [pairConnection, fresh] at h, Nat.le_refl 1⟩
    idle := by
      intro wp hwp
      rw [hconn wp hwp]
      exact ⟨TreeMap.isEmpty_emptyc, rfl⟩
    readers := rfl }

/-- One connection grows the database twice while the other reads, with a checkpoint in between;
later the log is truncated.
-/
theorem checkpoints_keep_reads_sample
    : pair.AtRest 512
      ∧ Meets WalRun.step (WalRun.KeepsReads 512) pair
          [(0, .page .allocate), (0, .commit), (1, .refresh), (1, .beginRead), (0, .page .allocate),
            (0, .commit), (0, .checkpoint .restart), (1, .endRead), (0, .checkpoint .truncate),
            (1, .refresh)] :=
  ⟨pair_atRest, checkpoints_keep_reads pair_atRest (by decide +kernel)⟩

/-- Two transactions that pin before they write keep their old page counts: the first cuts the
second page off again, and after a checkpoint and a restart of the log the second one puts it back
without an image.
-/
def holeScript : List (Nat × WalCall) :=
  [(0, .page .allocate), (0, .commit), (1, .beginRead), (1, .page (.write 1 pairPage)),
    (1, .commit),
    (1, .checkpoint .passive), (1, .page (.write 1 pairPage)), (1, .commit), (0, .beginRead),
    (0, .page (.write 1 pairPage)), (0, .commit), (1, .beginRead)]

/-- The open reader gets an error for the second page; a checkpoint then extends the main file,
and the same reader gets a page of zeros.
-/
theorem checkpoint_changes_read
    : pair.AtRest 512
      ∧ ∃ s s' pin, (exec WalRun.step pair holeScript).world.state 1 = some s
          ∧ (exec WalRun.step pair (holeScript ++ [(0, .checkpoint .passive)])).world.state 1
            = some s'
          ∧ s.wp.pin = some pin ∧ s'.wp.pin = some pin
          ∧ s.readPage 2 = .error (.io "read past end of file") ∧ s'.readPage 2 = .ok (zeroPage 512)
          ∧ ¬ (exec WalRun.step pair holeScript).KeepsReads 512 (0, .checkpoint .passive) := by
  refine ⟨pair_atRest, ?_⟩
  have hbefore : ((exec WalRun.step pair holeScript).world.state 1).map (fun s =>
      (s.wp.pin, s.readPage 2, s.wp.overlay.isEmpty))
      = some (some { mark := 2, mxFrame := 2, dbSize := 2 },
          .error (.io "read past end of file"), true) := by
    decide +kernel
  have hafter : ((exec WalRun.step pair (holeScript ++ [(0, .checkpoint .passive)])).world.state
      1).map
      (fun s => (s.wp.pin, s.readPage 2, s.wp.overlay.isEmpty))
      = some (some { mark := 2, mxFrame := 2, dbSize := 2 }, .ok (zeroPage 512), true) := by
    decide +kernel
  obtain ⟨s, hs, hvalues⟩ := map_eq_some_iff.mp hbefore
  obtain ⟨s', hs', hvalues'⟩ := map_eq_some_iff.mp hafter
  simp only [Prod.mk.injEq] at hvalues hvalues'
  obtain ⟨hpin, hread, hfree⟩ := hvalues
  obtain ⟨hpin', hread', hfree'⟩ := hvalues'
  refine ⟨s, s', _, hs, hs', hpin, hpin', hread, hread', fun hkeeps => ?_⟩
  obtain ⟨r, hr, -, hsame⟩ := hkeeps.openReads 1 s _ hs hpin (by simp)
  have hrs : r = s' := by
    have hlast : (exec WalRun.step pair (holeScript ++ [(0, .checkpoint .passive)])).world.state 1
        = some r := by
      rw [exec_append, exec_cons, exec_nil]
      exact hr
    exact Option.some.inj (hlast.symm.trans hs')
  subst hrs
  have heq := hsame 2 (TreeMap.getElem?_of_isEmpty hfree) (TreeMap.getElem?_of_isEmpty hfree')
  rw [hread, hread'] at heq
  cases heq

end GraphiteSql
