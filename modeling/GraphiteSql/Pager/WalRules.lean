import GraphiteSql.Pager.Backfill
import GraphiteSql.Pager.World

/-! What calls other than commits and checkpoints leave alone in WAL mode: the files, the log and
the marks of other readers.
-/

namespace GraphiteSql

open Lib List Option WritePager LockLevel
open Std (TreeMap)

variable {rest : List Nat} {s : PagerState} {wp : WritePager} {w : WalRuntime}

-- Connections and their pins

structure Pin where
  mark : Nat
  mxFrame : Nat
  dbSize : UInt32
deriving DecidableEq, Repr

def WritePager.pin (wp : WritePager) : Option Pin :=
  wp.wal.bind fun w => w.registeredMark.map fun mark =>
    { mark, mxFrame := w.snapshot.mxFrame, dbSize := w.dbSize }

def WritePager.marks (wp : WritePager) : List Nat :=
  (wp.pin.map Pin.mark).toList

def WalIndex.newPin (ix : WalIndex) (size : UInt32) : Pin :=
  { mark := ix.mxFrame, mxFrame := ix.mxFrame, dbSize := size }

/-- A connection that works on a log, with pages of size `ps`. -/
structure Attached (ps : Nat) (wp : WritePager) : Prop where
  runtime : ∃ w, wp.wal = some w ∧ 1 ≤ w.dbSize.toNat
  walFile : wp.walFile = true
  pageSize : wp.pageSize = ps
  paged : ∀ (n : UInt32) (b : Bytes), wp.overlay[n]? = some b → b.length = ps
  positive : 1 ≤ wp.pageCount.toNat

def WritePager.Guarded (wp : WritePager) : Prop :=
  wp.overlay.isEmpty = false → LockLevel.reserved ≤ wp.held

/-- `s` differs from `base` by the private state of its connection and by its reader mark only.
A pin is kept, dropped, or taken on the newest commit; `rest` are the marks of the others.
-/
structure Quiet (ps : Nat) (size : UInt32) (rest : List Nat) (base s : PagerState) : Prop where
  disk : s.vfs.disk = base.vfs.disk
  index : s.vfs.index = { base.vfs.index with readers := s.vfs.index.readers }
  readers : s.vfs.index.readers.Perm (s.wp.marks ++ rest)
  pin : s.wp.pin = none ∨ s.wp.pin = base.wp.pin
    ∨ base.wp.pin = none ∧ s.wp.pin = some (base.vfs.index.newPin size)
  attached : Attached ps s.wp

theorem Attached.whole {ps : Nat} (h : Attached ps wp) : wp.overlay.Paged wp.pageSize :=
  fun n b hb => (h.paged n b hb).trans h.pageSize.symm

theorem WritePager.pin_none (hwal : wp.wal = some w)
    (hmark : w.registeredMark = none) : wp.pin = none := by
  rw [pin, hwal, bind_some, hmark]
  rfl

theorem WritePager.pin_some {mark : Nat}
    (hwal : wp.wal = some w) (hmark : w.registeredMark = some mark)
    : wp.pin = some { mark, mxFrame := w.snapshot.mxFrame, dbSize := w.dbSize } := by
  rw [pin, hwal, bind_some, hmark]
  rfl

/-- Where an open read transaction has its snapshot. -/
theorem WritePager.pin_runtime {pin : Pin} (h : wp.pin = some pin)
    : ∃ w, wp.wal = some w ∧ w.registeredMark = some pin.mark ∧ w.snapshot.mxFrame = pin.mxFrame
      ∧ w.dbSize = pin.dbSize := by
  obtain ⟨w, hwal, hw⟩ := bind_eq_some_iff.mp h
  obtain ⟨mark, hmark, rfl⟩ := map_eq_some_iff.mp hw
  exact ⟨w, hwal, hmark, rfl, rfl⟩

theorem WritePager.marks_none (h : wp.pin = none) : wp.marks = [] := by
  rw [marks, h]
  rfl

theorem WritePager.marks_some {p : Pin} (h : wp.pin = some p)
    : wp.marks = [p.mark] := by
  rw [marks, h]
  rfl

theorem WritePager.marks_eq (hwal : wp.wal = some w)
    : wp.marks = w.registeredMark.toList := by
  cases hmark : w.registeredMark with
  | none => exact marks_none (pin_none hwal hmark)
  | some mark => exact marks_some (pin_some hwal hmark)

theorem swapRemove_perm {pre post : List Nat} {m : Nat}
    : (WalIndex.swapRemove (pre ++ m :: post) pre.length).Perm (pre ++ post) := by
  unfold WalIndex.swapRemove
  rcases eq_nil_or_concat post with rfl | ⟨init, last, rfl⟩
  · simp
  have hsplit : pre ++ m :: init.concat last = (pre ++ m :: init) ++ [last] := by simp
  have hset : ((pre ++ m :: init) ++ [last]).set pre.length last
      = (pre ++ last :: init) ++ [last] := by
    simp
  rw [hsplit, getLast?_concat]
  dsimp only
  rw [hset, dropLast_concat, concat_eq_append]
  exact List.Perm.append_left pre (perm_append_singleton last init).symm

/-- Removing one mark leaves the marks of the others. -/
theorem unregisterReader_perm {ix : WalIndex} {m : Nat}
    (h : ix.readers.Perm (m :: rest)) : (ix.unregisterReader m).readers.Perm rest := by
  have hmem : m ∈ ix.readers := h.mem_iff.mpr mem_cons_self
  unfold WalIndex.unregisterReader
  cases hpos : ix.readers.findIdx? (· == m) with
  | none =>
    have hnone := findIdx?_eq_none_iff.mp hpos m hmem
    simp at hnone
  | some pos =>
    obtain ⟨hlt, hget, -⟩ := findIdx?_eq_some_iff_getElem.mp hpos
    have hsplit : ix.readers = ix.readers.take pos ++ m :: ix.readers.drop (pos + 1) := by
      conv_lhs => rw [← take_append_drop pos ix.readers, drop_eq_getElem_cons hlt]
      rw [eq_of_beq hget]
    have hlen : (ix.readers.take pos).length = pos := length_take_of_le (Nat.le_of_lt hlt)
    have hrest : (ix.readers.take pos ++ ix.readers.drop (pos + 1)).Perm rest := by
      refine List.Perm.cons_inv (a := m) (List.Perm.trans ?_ h)
      conv_rhs => rw [hsplit]
      exact perm_middle.symm
    refine List.Perm.trans ?_ hrest
    dsimp only
    conv_lhs => rw [hsplit]
    conv_lhs => arg 2; rw [← hlen]
    exact swapRemove_perm

variable {ps : Nat} {db : Db} {base t : PagerState}

section

variable (h : Quiet ps db.size rest base s)

include h

/-- What `Quiet` depends on. -/
theorem Quiet.congr (hdisk : t.vfs.disk = s.vfs.disk)
    (hindex : t.vfs.index = s.vfs.index) (hwal : t.wp.wal = s.wp.wal)
    (hattached : Attached ps t.wp) : Quiet ps db.size rest base t := by
  have hpin : t.wp.pin = s.wp.pin := by rw [WritePager.pin, hwal, WritePager.pin]
  have hmarks : t.wp.marks = s.wp.marks := by rw [marks, hpin, marks]
  exact {
    disk := hdisk.trans h.disk
    index := by rw [hindex]; exact h.index
    readers := by rw [hindex, hmarks]; exact h.readers
    pin := by rw [hpin]; exact h.pin
    attached := hattached }

/-- The representation of the database is not touched. -/
theorem Quiet.tracks (tracks : Tracks ps db base.vfs)
    : Tracks ps db s.vfs :=
  tracks.congr (by rw [h.disk]) (by rw [h.index]) (by rw [h.index]) (by rw [h.index])

/-- A change of the locks is a quiet one. -/
theorem Quiet.relock (locks : LockState) (held level : LockLevel)
    (readTxn : Bool) (token : Option UInt32)
    : Quiet ps db.size rest base (s.relock locks held level readTxn token) :=
  h.congr rfl rfl rfl { h.attached with }

end

section Locks

/-- A call that only changes locks. -/
theorem maintains_quiet_of_relocked {α : Type} {x : PagerM α}
    (hx : ∀ s, Maintains (Relocked s) x) : Maintains (Quiet ps db.size rest base) x := by
  intro s hs
  have hquiet : ∀ t, Relocked s t → Quiet ps db.size rest base t := fun t ht => by
    rw [ht]
    exact hs.relock _ _ _ _ _
  exact (hx s s (Relocked.refl s)).imp hquiet

theorem unpin_quiet : Maintains (Quiet ps db.size rest base) unpin := by
  refine .get_bind fun s hs => ?_
  obtain ⟨w, hwal, hsize⟩ := hs.attached.runtime
  rw [hwal, bind_some]
  cases hmark : w.registeredMark with
  | none => exact hs
  | some m =>
    have hreaders := hs.readers
    rw [marks_some (pin_some hwal hmark)] at hreaders
    rw [runs_bind, withIndex, runs_modify]
    have hpin : ({ s.wp with wal := s.wp.wal.map fun w => { w with registeredMark := none } }
        : WritePager).pin = none := pin_none (by rw [hwal]; rfl) rfl
    exact {
      disk := hs.disk
      index := by
        have hix := hs.index
        unfold WalIndex.unregisterReader
        split
        · rw [hix]
        · exact hix
      readers := (unregisterReader_perm hreaders).trans
        (List.Perm.of_eq (congrArg (· ++ rest) (marks_none hpin).symm))
      pin := Or.inl hpin
      attached := { hs.attached with runtime := ⟨{ w with registeredMark := none },
        congrArg (Option.map _) hwal, hsize⟩ } }

theorem endTxn_quiet
    : Maintains (Quiet ps db.size rest base) releaseLocks
      ∧ Maintains (Quiet ps db.size rest base) endReadTxn :=
  endTxn_maintains (fun _ hs => hs.relock _ _ _ _ _) unpin_quiet
    (maintains_quiet_of_relocked fun _ => dropLock_relocked)

theorem ensureShared_quiet : Maintains (Quiet ps db.size rest base) ensureShared :=
  maintains_quiet_of_relocked fun _ => ensureShared_relocked

theorem rollback_quiet : Maintains (Quiet ps db.size rest base) rollback := by
  refine .bind (Maintains.modify fun s hs => ?_) fun _ => endTxn_quiet.1
  obtain ⟨w, hwal, hsize⟩ := hs.attached.runtime
  refine hs.congr rfl rfl rfl ⟨⟨w, hwal, hsize⟩, hs.attached.walFile, hs.attached.pageSize, ?_, ?_⟩
  · intro n b hb
    cases hb
  · dsimp only
    rw [hwal]
    exact hsize

variable (tracks : Tracks ps db base.vfs)

include tracks

/-- A read transaction pins the newest commit, unless it has pinned before. -/
theorem pinSnapshot_quiet (hs : Quiet ps db.size rest base s) (hsame : s.wp.pin = base.wp.pin)
    : Runs pinSnapshot s (fun _ => Quiet ps db.size rest base) (fun _ _ => False) := by
  unfold pinSnapshot
  rw [runs_get_bind]
  obtain ⟨w, hwal, hsize⟩ := hs.attached.runtime
  rw [hwal]
  split
  · rename_i hmark
    have hmark : w.registeredMark = none := Option.some.inj hmark
    have hreaders := hs.readers
    rw [marks_none (pin_none hwal hmark)] at hreaders
    have hnow : s.snapshotSize s.vfs.index.snapshot = db.size :=
      (hs.tracks tracks).snapshotSize hs.attached.pageSize
    have hmx : s.vfs.index.mxFrame = base.vfs.index.mxFrame := by rw [hs.index]
    rw [runs_bind, withIndex, runs_modify, hnow]
    let w' : WalRuntime := { w with
      snapshot := s.vfs.index.snapshot
      dbSize := db.size
      registeredMark := some s.vfs.index.mxFrame }
    have hpin : ({ s.wp with wal := s.wp.wal.map fun w => { w with
        snapshot := s.vfs.index.snapshot
        dbSize := db.size
        registeredMark := some s.vfs.index.mxFrame } } : WritePager).pin
        = some (s.vfs.index.newPin db.size) :=
      pin_some (w := w') (congrArg (Option.map _) hwal) rfl
    exact {
      disk := hs.disk
      index := by rw [WalIndex.registerReader, hs.index]
      readers :=
        ((hreaders.append_right _).trans perm_append_comm).trans
          (List.Perm.of_eq (congrArg (· ++ rest) (marks_some hpin).symm))
      pin := by
        refine .inr (Or.inr ⟨?_, ?_⟩)
        · rw [← hsame]
          exact pin_none hwal hmark
        · rw [WalIndex.newPin, ← hmx]
          exact hpin
      attached :=
        { hs.attached with runtime := ⟨w', congrArg (Option.map _) hwal, tracks.positive⟩ } }
  · exact hs

theorem beginReadTxn_quiet (hstart : Quiet ps db.size rest base base)
    : Ends beginReadTxn base (Quiet ps db.size rest base) := by
  refine ((ensureShared_quiet base hstart).and
    (ensureShared_relocked base (Relocked.refl base))).bind (fun _ s hs => ?_) (fun _ _ hs => hs.1)
  have hsame : s.wp.pin = base.wp.pin := by rw [pin, hs.2.wal, pin]
  refine (pinSnapshot_quiet tracks hs.1 hsame).bind (fun _ t ht => ?_) (fun _ _ => False.elim)
  exact ht.relock _ _ _ _ _

/-- An unpinned connection moves to the newest commit. -/
theorem Quiet.advance (hs : Quiet ps db.size rest base s)
    (hwal : s.wp.wal = some w) (hmark : w.registeredMark = none)
    (hwal' : wp.wal = some { w with snapshot := s.vfs.index.snapshot, dbSize := db.size })
    (hfile : wp.walFile = s.wp.walFile) (hps : wp.pageSize = s.wp.pageSize)
    (hover : wp.overlay = s.wp.overlay) (hcount : 1 ≤ wp.pageCount.toNat)
    : Quiet ps db.size rest base { s with wp := wp } := by
  have hpin : s.wp.pin = none := pin_none hwal hmark
  have hpin' : wp.pin = none := pin_none hwal' hmark
  exact {
    disk := hs.disk
    index := hs.index
    readers := by
      have hreaders := hs.readers
      rw [marks_none hpin] at hreaders
      rw [marks_none hpin']
      exact hreaders
    pin := Or.inl hpin'
    attached := ⟨⟨_, hwal', tracks.positive⟩, hfile.trans hs.attached.walFile,
      hps.trans hs.attached.pageSize, by rw [hover]; exact hs.attached.paged, hcount⟩ }

theorem revalidateReadCache_quiet : Maintains (Quiet ps db.size rest base) revalidateReadCache := by
  refine .get_bind fun s hs => ?_
  obtain ⟨w, hwal, -⟩ := hs.attached.runtime
  have hnow : s.snapshotSize s.vfs.index.snapshot = db.size :=
    (hs.tracks tracks).snapshotSize hs.attached.pageSize
  rw [hwal]
  dsimp only
  split
  · rename_i hfree
    rw [hnow]
    exact hs.advance tracks hwal hfree.2 (congrArg (Option.map _) hwal) rfl rfl rfl
      hs.attached.positive
  · exact hs

theorem refreshForeignState_quiet : Maintains (Quiet ps db.size rest base) refreshForeignState := by
  refine refreshForeignState_maintains (fun s w hs hwal hmark => ?_) (fun s pages hs hwal => ?_)
    fun hdr => .modify fun s hs => ?_
  · have hnow : s.snapshotSize s.vfs.index.snapshot = db.size :=
      (hs.tracks tracks).snapshotSize hs.attached.pageSize
    rw [PagerState.advanced, hnow]
    exact hs.advance tracks hwal hmark rfl rfl rfl rfl tracks.positive
  · obtain ⟨w, hsome, -⟩ := hs.attached.runtime
    rw [hwal] at hsome
    cases hsome
  · exact hs.congr rfl rfl rfl { hs.attached with }

end Locks

-- The write lock

/-- The refresh of foreign state changes neither the locks nor the staged pages. -/
theorem refreshForeignState_frame (s : PagerState)
    : Maintains (fun t => t.vfs = s.vfs ∧ t.wp.held = s.wp.held ∧ t.wp.level = s.wp.level
      ∧ t.wp.overlay = s.wp.overlay) refreshForeignState :=
  refreshForeignState_maintains (fun _ _ ht _ _ => ht) (fun _ _ ht _ => ht)
    fun _ => .modify fun _ => id

/-- A granted write-intent lock is held. -/
theorem acquireWriteIntent_locked
    : Ensures (fun s => reserved ≤ s.wp.held) acquireWriteIntent := by
  refine .bind fun s => .bind fun _ t => ?_
  unfold ensureReserved
  rw [runs_get_bind]
  by_cases hheld : t.wp.held < .reserved
  · rw [if_pos hheld]
    refine Ensures.bind (fun _ u => ?_) t
    refine runs_onError (P := fun _ => True) ?_ (fun _ _ _ => ?_)
    · refine (refreshForeignState_frame _ _ ⟨rfl, rfl, rfl, rfl⟩).mono (fun _ v hv => ?_)
        (fun _ _ _ => trivial)
      rw [hv.2.1]
    · unfold Runs
      split <;> trivial
  · rw [if_neg hheld]
    exact not_lt.mp hheld

section WriteLock

def Clean (s : PagerState) : Prop :=
  s.wp.overlay.isEmpty = true

theorem maintains_clean_of_relocked {α : Type} {x : PagerM α} (hx : ∀ s, Maintains (Relocked s) x)
    : Maintains Clean x := by
  intro s hs
  have hclean : ∀ t, Relocked s t → Clean t := fun t ht => by rw [Clean, ht.overlay]; exact hs
  exact (hx s s (Relocked.refl s)).imp hclean

theorem unpin_clean : Maintains Clean unpin := by
  refine .get_bind fun s hs => ?_
  split <;> exact hs

theorem releaseLocks_clean : Maintains Clean releaseLocks := by
  refine .bind (Maintains.modify fun _ => id) fun _ => unpin_clean.bind fun _ => ?_
  refine .get_bind fun s hs => ?_
  split
  · exact maintains_clean_of_relocked (fun _ => dropLock_relocked) s hs
  · exact hs

theorem Clean.guarded (hs : Clean s) : s.wp.Guarded := by
  intro hdirty
  rw [hs] at hdirty
  cases hdirty

variable (tracks : Tracks ps db base.vfs)

include tracks

theorem acquireWriteIntent_clean
    : Maintains (fun t => Quiet ps db.size rest base t ∧ Clean t) acquireWriteIntent := by
  have hrelock : ∀ {α : Type} {x : PagerM α}, (∀ s, Maintains (Relocked s) x)
      → Maintains (fun t => Quiet ps db.size rest base t ∧ Clean t) x := fun hx =>
    (maintains_quiet_of_relocked hx).and (maintains_clean_of_relocked hx)
  have hrefresh : Maintains Clean refreshForeignState := by
    intro s hs
    have hkeeps : ∀ t : PagerState, t.wp.overlay = s.wp.overlay → Clean t := fun t ht => by
      rw [Clean, ht]
      exact hs
    exact (refreshForeignState_frame s s ⟨rfl, rfl, rfl, rfl⟩).imp fun t ht => hkeeps t ht.2.2.2
  exact acquireWriteIntent_maintains (hrelock fun _ => ensureShared_relocked)
    (hrelock fun _ => lock_relocked _) (fun u hu => ⟨hu.1.relock _ _ _ _ _, hu.2⟩)
    ((refreshForeignState_quiet tracks).and hrefresh) fun _ _ _ =>
      endTxn_quiet.1.and releaseLocks_clean

/-- Taking the write lock is quiet; once it is granted the transaction may stage pages. -/
theorem acquireWriteIntent_quiet (hs : Quiet ps db.size rest base s) (guarded : s.wp.Guarded)
    : Runs acquireWriteIntent s
      (fun _ t => Quiet ps db.size rest base t ∧ reserved ≤ t.wp.held)
      (fun _ t => Quiet ps db.size rest base t ∧ Clean t) := by
  by_cases hheld : reserved ≤ s.wp.held
  · exact .of_ok (acquireWriteIntent_held hheld) ⟨hs, hheld⟩
  -- A connection without the lock has nothing staged.
  have hclean : Clean s := by
    by_contra hdirty
    exact hheld (guarded (Bool.eq_false_iff.mpr hdirty))
  have hboth := acquireWriteIntent_clean tracks s ⟨hs, hclean⟩
  exact (hboth.and (acquireWriteIntent_locked s)).mono (fun _ t ht => ⟨ht.1.1, ht.2⟩)
    (fun _ t ht => ht.1)

omit tracks in
/-- Staging pages under the write lock is quiet. -/
theorem Quiet.staged {r t : PagerState} (hr : Quiet ps db.size rest base r) (ht : Staged r t)
    : Quiet ps db.size rest base t := by
  refine hr.congr (by rw [ht.vfs]) (by rw [ht.vfs]) ht.wal ?_
  exact {
    runtime := by rw [ht.wal]; exact hr.attached.runtime
    walFile := ht.walFile.trans hr.attached.walFile
    pageSize := ht.pageSize.trans hr.attached.pageSize
    paged := fun n b hb => (ht.paged n b hb).trans hr.attached.pageSize
    positive := ht.positive hr.attached.positive }

omit tracks in
/-- A page-level call takes the write lock and then stages pages. -/
theorem pageOp_runs (op : PageOp) {granted : PagerState → Prop}
    {fail : Error → PagerState → Prop}
    (hacquire : Runs acquireWriteIntent s
      (fun _ r => granted r ∧ reserved ≤ r.wp.held ∧ Attached ps r.wp) fail)
    (hps : s.wp.pageSize = ps) (hfail : ∀ e, fail e s)
    : Runs op.run s
      (fun _ t => ∃ r, granted r ∧ reserved ≤ r.wp.held ∧ Staged r t)
      (fun e t => fail e t
        ∨ ∃ r, granted r ∧ reserved ≤ r.wp.held ∧ Staged r t) := by
  have hstaging : ∀ {α : Type} {f : Unit → PagerM α},
      (∀ r : PagerState, reserved ≤ r.wp.held → r.wp.pageSize = ps
        → Maintains (Staged r) (acquireWriteIntent >>= f))
      → Runs (acquireWriteIntent >>= f) s
        (fun _ t => ∃ r, granted r ∧ reserved ≤ r.wp.held ∧ Staged r t)
        (fun e t => fail e t
          ∨ ∃ r, granted r ∧ reserved ≤ r.wp.held ∧ Staged r t) := by
    intro α f hf
    refine hacquire.bind (fun _ r hr => ?_) (fun _ _ => Or.inl)
    obtain ⟨hgranted, hlocked, hattached⟩ := hr
    have hrun := hf r hlocked hattached.pageSize r (Staged.refl hattached.whole)
    rw [runs_bind] at hrun
    exact (hrun.ok (acquireWriteIntent_held hlocked)).mono
      (fun _ t ht => ⟨r, hgranted, hlocked, ht⟩) (fun _ t ht => .inr ⟨r, hgranted, hlocked, ht⟩)
  cases op with
  | write number bytes =>
    change Runs (writePage number bytes) s _ _
    unfold writePage
    rw [runs_get_bind]
    split_ifs with hlen
    · exact .inl (hfail _)
    rw [not_not, hps] at hlen
    refine hstaging fun r hlocked hps' => ?_
    exact (staged_invariant hlocked).rules.acquire.bind
      fun _ => stage_keeps (staged_invariant hlocked).rules (hlen.trans hps'.symm)
  | allocate =>
    change Runs (allocatePage >>= fun _ => pure ()) s _ _
    rw [runs_bind]
    exact hstaging fun r hlocked _ => allocatePage_maintains hlocked
  | free page => exact hstaging fun r hlocked _ =>
    freePage_keeps (staged_invariant hlocked).rules page

theorem pageOp_quiet (op : PageOp) (hs : Quiet ps db.size rest base s) (guarded : s.wp.Guarded)
    : Ends op.run s fun t => Quiet ps db.size rest base t ∧ t.wp.Guarded := by
  have hdone : ∀ t, (∃ r, Quiet ps db.size rest base r ∧ reserved ≤ r.wp.held
      ∧ Staged r t) → Quiet ps db.size rest base t ∧ t.wp.Guarded := by
    rintro t ⟨r, hquiet, hlocked, ht⟩
    exact ⟨hquiet.staged ht, fun _ => by rw [ht.held]; exact hlocked⟩
  have hacquire : Runs acquireWriteIntent s
      (fun _ r => Quiet ps db.size rest base r ∧ reserved ≤ r.wp.held ∧ Attached ps r.wp)
      (fun _ t => Quiet ps db.size rest base t ∧ t.wp.Guarded) :=
    (acquireWriteIntent_quiet tracks hs guarded).mono
      (fun _ r hr => ⟨hr.1, hr.2, hr.1.attached⟩) (fun _ t ht => ⟨ht.1, ht.2.guarded⟩)
  exact (pageOp_runs op hacquire hs.attached.pageSize fun _ => ⟨hs, guarded⟩).mono
    (fun _ => hdone) (fun _ t ht => ht.elim id (hdone t))

end WriteLock

end GraphiteSql
