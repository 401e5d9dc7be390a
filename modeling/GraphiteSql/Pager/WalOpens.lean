import GraphiteSql.Pager.HeaderSync
import GraphiteSql.Pager.LogRecovery

/-! Connections that are opened while others commit and checkpoint: they join the log as long as it
holds a commit when they are opened.
-/

namespace GraphiteSql

open Lib List WritePager
open Std (TreeMap)

section Attach

variable {ps : Nat} {db : Db} {txns : List (List IndexFrame)} {v : Vfs}

def Vfs.LogEnds (ps : Nat) (v : Vfs) : Prop :=
  frameSalts ps v.disk.wal v.index.log.length ≠ some v.index.salt.toBytes

instance : Decidable (v.LogEnds ps) :=
  inferInstanceAs (Decidable (_ ≠ _))

/-- A connection that joins a log with commits shares its index. -/
theorem attachWal_live (h : LogInv ps txns v) (tracks : Tracks ps db v) (hps : ps < 2 ^ 32)
    (hlog : v.index.log ≠ []) (hend : v.LogEnds ps)
    : attachWal v.disk.wal v.index ps
      = .ok (v.index, some {
          snapshot := v.index.snapshot
          registeredMark := none
          dbSize := db.size
          salt := v.index.salt }) := by
  have hfile := h.state.file hlog
  obtain ⟨hnext, -, hsize⟩ := h.state.next hlog
  have hframes : validFrames v.disk.wal ps
      (LogHeader.fresh nativeBigEndian ps v.index.ckptSeq v.index.salt) v.disk.wal.length walHdrLen
      (LogHeader.fresh nativeBigEndian ps v.index.ckptSeq v.index.salt).cksum = v.index.log := by
    obtain ⟨more, hvalid, hnone⟩ := validFrames_logBytes hfile tracks.paged
    rw [hvalid, hnone fun f hf => ?_, append_nil]
    exact hend ((slice_frameBytes (frameHead_length _ _)).mp hf.bytes).2.1
  have hcommitted : committedFrames v.index.log = v.index.log := by
    have hall := committedFrames_flatten h.state.txns []
    rw [append_nil, ← h.state.log] at hall
    rw [hall]
    exact append_nil _
  have hmx : v.index.mxFrame ≠ 0 := by
    rw [tracks.mxFrame]
    exact fun h0 => hlog (length_eq_zero_iff.mp h0)
  have hattach : v.index.attach ps (LogHeader.fresh nativeBigEndian ps v.index.ckptSeq v.index.salt)
      v.index.log = v.index := by
    refine if_pos ?_
    simp [WalIndex.matchesDisk, WalIndex.writerState, if_neg hmx, hnext, hsize, LogHeader.fresh]
  rw [attachWal_eq v.index (parseLogHeader_logBytes hfile hps) hframes, hcommitted, if_neg hlog,
    hattach, tracks.sized hlog]
  rfl

end Attach

def World.opens (w : World) : World :=
  match openWal true true { vfs := w.vfs, level := .unlocked } with
  | .ok wp o => { vfs := o.vfs, conns := w.conns ++ [wp] }
  | .error _ o => { vfs := o.vfs, conns := w.conns }

/-- The main file, if it has a header, is in WAL mode with the page size `ps`. -/
def WalMode (ps : Nat) (main : Bytes) : Prop :=
  ∀ header ∈ (diskHeader main).toOption, header.readVersion = 2 ∧ header.pageSize.toNat = ps

instance (ps : Nat) (main : Bytes) : Decidable (WalMode ps main) :=
  inferInstanceAs (Decidable (∀ header ∈ (diskHeader main).toOption, _))

section Opens

variable {ps : Nat} {db : Db} {w : World}

theorem openWal_refused {o : Opening} (hjournal : o.vfs.disk.journal = [])
    (hmain : ∀ header, diskHeader o.vfs.disk.db = .ok header
      → o.vfs.disk.db.length % header.pageSize.toNat ≠ 0)
    : ∃ e, openWal true true o = .error e o := by
  unfold openWal
  rw [if_pos rfl, estate_bind_ok (recoverHotJournal_none hjournal)]
  dsimp only
  rw [estate_get_bind]
  split
  · exact ⟨_, rfl⟩
  cases hread : readExactAt o.vfs.disk.db headerLen 0 with
  | error e => exact ⟨e, rfl⟩
  | ok head =>
    rw [lift_ok_bind]
    cases hparse : DatabaseHeader.parse head with
    | error e => exact ⟨e, rfl⟩
    | ok header =>
      rw [lift_ok_bind, if_pos (hmain header (except_bind_eq_ok.mpr ⟨head, hread, hparse⟩))]
      exact ⟨_, rfl⟩

/-- A pager that starts at the end of the log. -/
theorem openedPager_attached {index : WalIndex} {header : DatabaseHeader} {pages : UInt32}
    {journal : Bool} {r : WalRuntime} {wp : WritePager} (hps : header.pageSize.toNat = ps)
    (hsize : 1 ≤ r.dbSize.toNat) (hmark : r.registeredMark = none)
    (hopened : openedPager index header pages journal (some r) = .ok wp)
    : Attached ps wp ∧ wp.overlay.isEmpty = true ∧ wp.pin = none := by
  have hfresh : ∀ newest : DatabaseHeader, wp
      = { fresh newest pages r.dbSize journal true (some r) with pageSize := ps }
      → Attached ps wp ∧ wp.overlay.isEmpty = true ∧ wp.pin = none := by
    rintro newest rfl
    refine ⟨⟨⟨r, rfl, hsize⟩, rfl, rfl, fun n b hb => ?_, hsize⟩, TreeMap.isEmpty_emptyc, ?_⟩
    · simp [fresh] at hb
    · exact pin_none rfl hmark
  unfold openedPager at hopened
  dsimp only at hopened
  cases hp1 : index.findFrame 1 r.snapshot.mxFrame with
  | none =>
    rw [hp1] at hopened
    cases hopened
    exact hfresh header (by rw [← hps]; rfl)
  | some p1 =>
    rw [hp1] at hopened
    obtain ⟨newest, -, hnewest⟩ := except_bind_eq_ok.mp hopened
    cases hnewest
    exact hfresh newest (by rw [← hps])

/-- A connection that is opened on a log with commits joins it. -/
theorem World.Inv.opens (h : w.Inv ps db) {txns : List (List IndexFrame)}
    (hlog : LogInv ps txns w.vfs)
    (hjournal : w.vfs.disk.journal = []) (hps : ps < 2 ^ 32) (hlive : w.vfs.index.log ≠ [])
    (hend : w.vfs.LogEnds ps) (hmode : WalMode ps w.vfs.disk.db)
    : w.opens.Inv ps db ∧ w.opens.vfs = w.vfs := by
  have hrefused : (∃ e, openWal true true { vfs := w.vfs, level := .unlocked }
      = .error e { vfs := w.vfs, level := .unlocked })
        → w.opens.Inv ps db ∧ w.opens.vfs = w.vfs := by
    rintro ⟨e, herror⟩
    have hopens : w.opens = w := by rw [World.opens, herror]
    rw [hopens]
    exact ⟨h, rfl⟩
  by_cases hmain : ∃ header, diskHeader w.vfs.disk.db = .ok header
      ∧ w.vfs.disk.db.length % header.pageSize.toNat = 0
  · obtain ⟨header, hdisk, hsize⟩ := hmain
    obtain ⟨hversion, hpage⟩ := hmode header (by rw [hdisk]; rfl)
    obtain ⟨head, hread, hparse⟩ := except_bind_eq_ok.mp hdisk
    have hattach := attachWal_live hlog h.tracks hps hlive hend
    rw [← hpage] at hattach
    generalize hr : WalRuntime.mk w.vfs.index.snapshot none db.size w.vfs.index.salt = r at hattach
    have hmark : r.registeredMark = none := by rw [← hr]
    have hpos : 1 ≤ r.dbSize.toNat := by
      rw [← hr]
      exact h.tracks.positive
    have hopen : openWal true true { vfs := w.vfs, level := .unlocked } = _ :=
      openWal_attach hjournal hread hparse hversion hsize hattach
    cases hopened : openedPager w.vfs.index header
        (.ofNat (w.vfs.disk.db.length / header.pageSize.toNat)) true (some r) with
    | error e =>
      rw [hopened] at hopen
      exact hrefused ⟨e, hopen⟩
    | ok wp =>
      rw [hopened] at hopen
      obtain ⟨hattached, hclean, hpin⟩ := openedPager_attached hpage hpos hmark hopened
      have hopens : w.opens = { vfs := w.vfs, conns := w.conns ++ [wp] } := by
        rw [World.opens, hopen]
        rfl
      rw [hopens]
      refine ⟨⟨h.tracks, fun wp' hwp => ?_, ?_⟩, rfl⟩
      · rcases mem_append.mp hwp with hold | hnew
        · exact h.attached wp' hold
        rw [mem_singleton.mp hnew]
        refine ⟨hattached, fun hdirty => ?_, fun hopen => absurd hpin hopen⟩
        rw [hclean] at hdirty
        cases hdirty
      · rw [flatMap_append, flatMap_singleton, marks_none hpin, append_nil]
        exact h.readers
  · refine hrefused
      (openWal_refused hjournal fun header hdisk hsize => hmain ⟨header, hdisk, hsize⟩)

end Opens

inductive OpenEvent where
  | call (i : Nat) (c : WalCall)
  | opens
deriving DecidableEq, Repr

/-- A run, with the database of its latest commit. -/
structure OpenRun where
  world : World
  db : Db

def OpenRun.step (t : OpenRun) : OpenEvent → OpenRun
  | .call i c =>
      match t.world.state i with
      | none => t
      | some s => { world := t.world.call i c.run, db := s.dbAfter t.db c }
  | .opens => { t with world := t.world.opens }

/-- What every event keeps: what statements read and where commits go. -/
structure OpenRun.Coherent (t : OpenRun) (e : OpenEvent) : Prop where
  /-- A statement outside a transaction reads the latest commit. -/
  statement : ∀ i, e = .call i .refresh → ∀ s s', t.world.state i = some s → s.wp.pin = none
    → s.wp.held < .reserved → (t.step e).world.state i = some s'
    → ∀ n b, t.db.page n = some b → s'.readPage n = .ok b
  /-- A commit goes to the log, not to the main file. -/
  commit : ∀ i, e = .call i .commit
    → (t.step e).world.vfs.disk.db = t.world.vfs.disk.db

/-- A connection is opened only on a log that holds a commit. -/
def OpenRun.LogLive (ps : Nat) (t : OpenRun) (e : OpenEvent) : Prop :=
  e = .opens → t.world.vfs.index.log ≠ [] ∧ t.world.vfs.LogEnds ps ∧ WalMode ps t.world.vfs.disk.db

instance (ps : Nat) (t : OpenRun) (e : OpenEvent) : Decidable (t.LogLive ps e) :=
  inferInstanceAs (Decidable (e = .opens → _))

structure OpenRun.Inv (ps : Nat) (t : OpenRun) : Prop where
  pageSize : ps < 2 ^ 32
  world : t.world.Inv ps t.db
  log : ∃ txns, LogInv ps txns t.world.vfs
  journal : t.world.vfs.disk.journal = []

section Run

variable {ps : Nat} {t : OpenRun}

/-- One step keeps the connections attached, and what they see coherent. -/
theorem OpenRun.Inv.step (h : t.Inv ps) (e : OpenEvent) (hlive : t.LogLive ps e)
    : t.Coherent e ∧ (t.step e).Inv ps := by
  obtain ⟨txns, hlog⟩ := h.log
  cases e with
  | opens =>
    obtain ⟨hsome, hend, hmode⟩ := hlive rfl
    obtain ⟨hinv, hvfs⟩ := h.world.opens hlog h.journal h.pageSize hsome hend hmode
    refine ⟨⟨fun _ he => (nomatch he), fun _ he => (nomatch he)⟩, h.pageSize, hinv, ⟨txns, ?_⟩, ?_⟩
    · show LogInv ps txns t.world.opens.vfs
      rw [hvfs]
      exact hlog
    · show t.world.opens.vfs.disk.journal = []
      rw [hvfs]
      exact h.journal
  | call i c =>
    cases hstate : t.world.state i with
    | none =>
      have hstep : t.step (.call i c) = t := by simp only [OpenRun.step, hstate]
      rw [hstep]
      refine ⟨⟨fun j he s s' hs => ?_, fun j he => by rw [hstep]⟩, h⟩
      cases he
      rw [hstate] at hs
      cases hs
    | some s =>
      obtain ⟨before, after, hconns, hput⟩ := World.split hstate
      have hcalls := h.world.calls hstate hconns
      obtain ⟨hvfs, -⟩ := World.state_mem hstate
      rw [← hvfs] at hlog
      obtain ⟨u, hcall, hends⟩ := World.call_put c.run hstate
      have hmoves := hends _ (call_moves hcalls c)
      have heffect := hends _ (call_logEffect hcalls c)
      have hstep : t.step (.call i c) = { world := t.world.put i u, db := s.dbAfter t.db c } := by
        simp only [OpenRun.step, hstate, hcall]
      rw [hstep]
      refine ⟨⟨fun j he r r' hr hpin hheld hr' n b hb => ?_, fun j he => ?_⟩, h.pageSize,
        h.world.put (hput u) hmoves.after, ⟨_, heffect.logInv hcalls hlog⟩, ?_⟩
      · cases he
        have hrs : r = s := Option.some.inj (hr.symm.trans hstate)
        subst hrs
        rw [hstep, World.put_state_self hstate] at hr'
        cases hr'
        exact hends _ (refresh_current hcalls hpin hheld) n b hb
      · cases he
        rw [hstep]
        exact (heffect.main rfl).trans (by rw [hvfs])
      · exact heffect.journal.trans (by rw [hvfs]; exact h.journal)

end Run

/-- A world at rest, with its log recovered and no rollback journal. -/
structure OpenRun.AtRest (ps : Nat) (t : OpenRun) : Prop extends
    World.AtRest ps t.db t.world where
  pageSize : ps < 2 ^ 32
  log : ∃ txns, LogInv ps txns t.world.vfs
  journal : t.world.vfs.disk.journal = []

/-- In every run whose connections are all opened on a log with a commit, every statement reads the
latest commit and every commit goes to the log.
-/
theorem opened_connections_coherent {ps : Nat} {t : OpenRun} (start : t.AtRest ps)
    {script : List OpenEvent} (hlive : Meets OpenRun.step (OpenRun.LogLive ps) t script)
    : Meets OpenRun.step OpenRun.Coherent t script :=
  Meets.of_invariant OpenRun.step (OpenRun.Inv ps) (fun _ e hinv he => hinv.step e he)
    { start with world := start.toAtRest.inv } hlive

def single : OpenRun where
  world := { pair.world with conns := [pairConnection] }
  db := pair.db

theorem single_atRest : single.AtRest 512 where
  pageSize := by decide
  tracks := pair_atRest.tracks
  attached := fun wp hwp => pair_atRest.attached wp (mem_cons_of_mem _ hwp)
  idle := fun wp hwp => pair_atRest.idle wp (mem_cons_of_mem _ hwp)
  readers := rfl
  log := ⟨[], ⟨rfl, fun _ h => absurd h not_mem_nil, rfl, fun h => absurd rfl h,
    fun h => absurd rfl h⟩, fun _ => rfl⟩
  journal := rfl

/-- The second connection is opened after the first commit; both commit in turn. -/
theorem opened_connections_coherent_sample
    : single.AtRest 512
      ∧ Meets OpenRun.step OpenRun.Coherent single
          [.call 0 (.page .allocate), .call 0 .commit, .opens, .call 1 .refresh,
            .call 1 (.page .allocate), .call 1 .commit, .call 0 .refresh] :=
  ⟨single_atRest, opened_connections_coherent single_atRest (by decide +kernel)⟩

/-- The second connection is opened while the log is empty, before the first one commits. -/
def lateScript : List OpenEvent :=
  [.opens, .call 0 (.page (.write 1 (markedPage 7))), .call 0 .commit]

def lateWrite : List OpenEvent :=
  lateScript ++ [.call 1 (.page (.write 1 (markedPage 8)))]

/-- It goes on reading the old page, and its own commit goes to the main file below the frames of
the first one.
-/
theorem opened_on_empty_log_misses_commits
    : single.AtRest 512
      ∧ (∃ s b,
        ((exec OpenRun.step single lateScript).step (.call 1 .refresh)).world.state 1 = some s
          ∧ s.readPage 1 = .ok pairPage
          ∧ (exec OpenRun.step single lateScript).db.page 1 = some b ∧ b ≠ pairPage)
      ∧ ¬ (exec OpenRun.step single lateScript).Coherent (.call 1 .refresh)
      ∧ ¬ (exec OpenRun.step single lateWrite).Coherent (.call 1 .commit) := by
  have hidle : ((exec OpenRun.step single lateScript).world.state 1).map (fun s =>
      (s.wp.pin, decide (s.wp.held < .reserved))) = some (none, true) := by decide +kernel
  have hread : (((exec OpenRun.step single lateScript).step (.call 1 .refresh)).world.state 1).map
      (fun s => s.readPage 1) = some (.ok pairPage) := by decide +kernel
  have hnew : ((exec OpenRun.step single lateScript).db.page 1).map (fun b => decide (b = pairPage))
      = some false := by decide +kernel
  obtain ⟨s, hs, hvalues⟩ := Option.map_eq_some_iff.mp hidle
  obtain ⟨s', hs', hpage⟩ := Option.map_eq_some_iff.mp hread
  obtain ⟨b, hb, hne⟩ := Option.map_eq_some_iff.mp hnew
  simp only [Prod.mk.injEq, decide_eq_true_eq, decide_eq_false_iff_not] at hvalues hne
  refine ⟨single_atRest, ⟨s', b, hs', hpage, hb, hne⟩, fun hcoherent => ?_, fun hcoherent => ?_⟩
  · have hlatest := hcoherent.statement 1 rfl s s' hs hvalues.1 hvalues.2 hs' 1 b hb
    rw [hpage] at hlatest
    exact hne (Except.ok.inj hlatest).symm
  · have hmain : decide
      (((exec OpenRun.step single lateWrite).step (.call 1 .commit)).world.vfs.disk.db
        = (exec OpenRun.step single lateWrite).world.vfs.disk.db) = false := by decide +kernel
    exact of_decide_eq_false hmain (hcoherent.commit 1 rfl)

end GraphiteSql
