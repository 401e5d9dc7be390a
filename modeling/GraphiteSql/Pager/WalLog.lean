import GraphiteSql.Pager.CommitOps

/-! What a WAL commit writes: the bytes it appends to the log file, and the frames it publishes
to the shared index.
-/

namespace GraphiteSql

open Lib List PagerState
open Std (TreeMap)

variable {cksum : UInt32 × UInt32} {pages : List (UInt32 × Bytes)}

def commitFrames (count : UInt32) : List (UInt32 × Bytes) → List IndexFrame
  | [] => []
  | (pageNo, data) :: rest =>
      { pageNo, commitDbSize := if rest.isEmpty then count else 0, data } :: commitFrames count rest

def chainChecksum (bigEnd : Bool) (cksum : UInt32 × UInt32) (frames : List IndexFrame)
    : UInt32 × UInt32 :=
  frames.foldl (fun c f => frameChecksum bigEnd c (frameHead f.pageNo f.commitDbSize) f.data) cksum

def chainBytes (bigEnd : Bool) (salt : Salt) : (cksum : UInt32 × UInt32) → List IndexFrame → Bytes
  | _, [] => []
  | cksum, f :: rest =>
      let head := frameHead f.pageNo f.commitDbSize
      let c := frameChecksum bigEnd cksum head f.data
      frameBytes head salt c f.data ++ chainBytes bigEnd salt c rest

def frameLen (pageSize : Nat) : Nat := walFrameHdrLen + pageSize

section Frames

variable {bigEnd : Bool} {salt : Salt} {pageSize : Nat}

theorem commitFrames_length (count : UInt32) (pages : List (UInt32 × Bytes))
    : (commitFrames count pages).length = pages.length := by
  induction pages with
  | nil => rfl
  | cons head tail ih => simp [commitFrames, ih]

theorem commitFrames_map (count : UInt32) (pages : List (UInt32 × Bytes))
    : (commitFrames count pages).map (fun f => (f.pageNo, f.data)) = pages := by
  induction pages with
  | nil => rfl
  | cons head tail ih => simp [commitFrames, ih]

theorem mem_commitFrames {count : UInt32} {f : IndexFrame}
    (h : f ∈ commitFrames count pages) : (f.pageNo, f.data) ∈ pages := by
  rw [← commitFrames_map count pages]
  exact mem_map_of_mem h

theorem commitFrames_last (count : UInt32) (h : pages ≠ [])
    : ∃ init last, commitFrames count pages = init ++ [last] ∧ last.commitDbSize = count
      ∧ ∀ f ∈ init, f.commitDbSize = 0 := by
  induction pages with
  | nil => exact absurd rfl h
  | cons head tail ih =>
    cases tail with
    | nil => exact ⟨[], _, rfl, rfl, fun _ hf => by cases hf⟩
    | cons next rest =>
      obtain ⟨init, last, hframes, hlast, hinit⟩ := ih (cons_ne_nil _ _)
      refine ⟨_ :: init, last, by rw [commitFrames, hframes, cons_append], hlast, fun f hf => ?_⟩
      rcases mem_cons.mp hf with rfl | hf
      · rfl
      · exact hinit f hf

@[simp]
theorem frameHead_length (pageNo dbSize : UInt32) : (frameHead pageNo dbSize).length = 8 := rfl

theorem frameBytes_length {head data : Bytes} (hhead : head.length = 8)
    (hdata : data.length = pageSize)
    : (frameBytes head salt cksum data).length = frameLen pageSize := by
  simp only [frameBytes, frameLen, walFrameHdrLen, Salt.toBytes, length_append,
    u32ToBytes_length, hhead, hdata]

theorem chainBytes_length {frames : List IndexFrame} (h : ∀ f ∈ frames, f.data.length = pageSize)
    : (chainBytes bigEnd salt cksum frames).length = frames.length * frameLen pageSize := by
  induction frames generalizing cksum with
  | nil => simp [chainBytes]
  | cons head tail ih =>
    have hhead := h head mem_cons_self
    rw [chainBytes, length_append, frameBytes_length rfl hhead,
      ih fun f hf => h f (mem_cons_of_mem _ hf), length_cons, Nat.succ_mul, Nat.add_comm]

theorem chainBytes_append (xs ys : List IndexFrame)
    : chainBytes bigEnd salt cksum (xs ++ ys)
      = chainBytes bigEnd salt cksum xs
        ++ chainBytes bigEnd salt (chainChecksum bigEnd cksum xs) ys := by
  induction xs generalizing cksum with
  | nil => rfl
  | cons head tail ih => simp [chainBytes, chainChecksum, ih]

theorem chainChecksum_append (xs ys : List IndexFrame)
    : chainChecksum bigEnd cksum (xs ++ ys)
      = chainChecksum bigEnd (chainChecksum bigEnd cksum xs) ys :=
  foldl_append

end Frames

def frameOps (count : UInt32) (salt : Salt) (bigEnd : Bool) (pageSize : Nat)
    : (offset : Nat) → (cksum : UInt32 × UInt32) → List (UInt32 × Bytes)
      → List FileOp × List AppendedFrame
  | _, _, [] => ([], [])
  | offset, cksum, (pageNo, data) :: rest =>
      let dbSize := if rest.isEmpty then count else 0
      let head := frameHead pageNo dbSize
      let cksum := frameChecksum bigEnd cksum head data
      let more := frameOps count salt bigEnd pageSize (offset + frameLen pageSize) cksum rest
      (.writeAllAt .wal (frameBytes head salt cksum data) offset :: more.1,
        { frame := { pageNo, commitDbSize := dbSize, data }
          nextOffset := offset + frameLen pageSize
          cksum } :: more.2)

section Write

variable {count : UInt32} {salt : Salt} {bigEnd : Bool} {pageSize offset : Nat}

theorem writeFrames_ok (pages : List (UInt32 × Bytes)) (offset : Nat) (cksum : UInt32 × UInt32)
    (s : PagerState)
    : writeFrames count salt bigEnd offset cksum pages s
      = .ok (frameOps count salt bigEnd s.wp.pageSize offset cksum pages).2
          (s.after (frameOps count salt bigEnd s.wp.pageSize offset cksum pages).1) := by
  induction pages generalizing offset cksum s with
  | nil => simp [writeFrames, frameOps]
  | cons head tail ih =>
    simp only [writeFrames, perform_bind, estate_get_bind, after_wp]
    rw [estate_bind_ok (ih _ _ _)]
    simp [frameOps, after_after, frameLen]

theorem frameOps_frames (pages : List (UInt32 × Bytes)) (offset : Nat) (cksum : UInt32 × UInt32)
    : (frameOps count salt bigEnd pageSize offset cksum pages).2.map AppendedFrame.frame
      = commitFrames count pages := by
  induction pages generalizing offset cksum with
  | nil => rfl
  | cons head tail ih => simp [frameOps, commitFrames, ih]

theorem frameOps_file {op : FileOp} (pages : List (UInt32 × Bytes)) (offset : Nat)
    (cksum : UInt32 × UInt32) (h : op ∈ (frameOps count salt bigEnd pageSize offset cksum pages).1)
    : op.file = .wal := by
  induction pages generalizing offset cksum with
  | nil => cases h
  | cons head tail ih =>
    rcases mem_cons.mp h with rfl | h
    · rfl
    · exact ih _ _ h

/-- The frame writes are one write of all their bytes. -/
theorem run_frameOps_wal {offset : Nat}
    (hpaged : ∀ page ∈ pages, page.2.length = pageSize) {d : Disk} (hoff : offset ≤ d.wal.length)
    : (d.run (frameOps count salt bigEnd pageSize offset cksum pages).1).wal
      = writeAt d.wal offset (chainBytes bigEnd salt cksum (commitFrames count pages)) 0 := by
  induction pages generalizing offset cksum d with
  | nil => exact (writeAt_nil hoff).symm
  | cons head tail ih =>
    obtain ⟨pageNo, data⟩ := head
    have hdata : data.length = pageSize := hpaged _ mem_cons_self
    simp only [frameOps, Disk.run_cons, commitFrames, chainBytes]
    set bytes := frameBytes (frameHead pageNo (if tail.isEmpty then count else 0)) salt
      (frameChecksum bigEnd cksum (frameHead pageNo (if tail.isEmpty then count else 0)) data) data
      with hbytes
    have hlen : bytes.length = frameLen pageSize := frameBytes_length rfl hdata
    have hstep : (d.apply (.writeAllAt .wal bytes offset)).wal = writeAt d.wal offset bytes 0 := rfl
    rw [ih (fun page hp => hpaged page (mem_cons_of_mem _ hp))
      (by rw [hstep, writeAt_length]; omega), hstep, ← hlen, writeAt_writeAt hoff]

/-- The append position after the last frame. -/
theorem frameOps_last (offset : Nat) (cksum : UInt32 × UInt32) (h : pages ≠ [])
    : ∃ a, (frameOps count salt bigEnd pageSize offset cksum pages).2.getLast? = some a
      ∧ a.nextOffset = offset + pages.length * frameLen pageSize
      ∧ a.cksum = chainChecksum bigEnd cksum (commitFrames count pages) := by
  induction pages generalizing offset cksum with
  | nil => exact absurd rfl h
  | cons head tail ih =>
    obtain ⟨pageNo, data⟩ := head
    cases tail with
    | nil =>
      refine ⟨_, rfl, ?_, rfl⟩
      show offset + frameLen pageSize = offset + 1 * frameLen pageSize
      rw [Nat.one_mul]
    | cons next rest =>
      obtain ⟨a, hlast, hoff, hck⟩ := ih (offset + frameLen pageSize)
        (frameChecksum bigEnd cksum (frameHead pageNo 0) data) (cons_ne_nil _ _)
      refine ⟨a, ?_, ?_, hck⟩
      · show getLast? (_ :: (frameOps count salt bigEnd pageSize (offset + frameLen pageSize)
          (frameChecksum bigEnd cksum (frameHead pageNo 0) data) (next :: rest)).2) = some a
        rw [getLast?_cons, hlast]
        rfl
      · show a.nextOffset = offset + (rest.length + 1 + 1) * frameLen pageSize
        rw [hoff, length_cons, Nat.succ_mul (rest.length + 1)]
        omega

end Write

theorem WalIndex.publish_log (ix : WalIndex) (salt : Salt) (pageSize : Nat)
    (appended : List AppendedFrame)
    : ∃ mxFrame salt' nextOffset cksum pageSize', ix.publish salt pageSize appended = { ix with
      log := ix.log ++ appended.map AppendedFrame.frame
      mxFrame
      salt := salt'
      nextOffset
      cksum
      pageSize := pageSize' } := by
  induction appended generalizing ix with
  | nil => exact ⟨ix.mxFrame, ix.salt, ix.nextOffset, ix.cksum, ix.pageSize, by simp [publish]⟩
  | cons a rest ih =>
    obtain ⟨mx, salt', off, ck, ps, hrest⟩ :=
      ih (ix.append a.frame salt a.nextOffset a.cksum pageSize)
    refine ⟨mx, salt', off, ck, ps, ?_⟩
    rw [publish, foldl_cons]
    rw [publish] at hrest
    rw [hrest]
    simp [append]

theorem WalIndex.publish_eq (ix : WalIndex) (salt : Salt) (pageSize : Nat)
    {appended : List AppendedFrame} {last : AppendedFrame} (hlast : appended.getLast? = some last)
    : ix.publish salt pageSize appended
      = { ix with
          log := ix.log ++ appended.map AppendedFrame.frame
          mxFrame := (ix.log ++ appended.map AppendedFrame.frame).length
          salt
          nextOffset := last.nextOffset
          cksum := last.cksum
          pageSize } := by
  obtain ⟨init, rfl⟩ := getLast?_eq_some_iff.mp hlast
  obtain ⟨mx, salt', off, ck, ps, hinit⟩ := ix.publish_log salt pageSize init
  rw [publish] at hinit ⊢
  rw [foldl_append, hinit]
  simp [append, Nat.add_assoc]

/-- Where a commit continues the log of `ix`, and the write of a fresh log header when the log is
empty.
-/
def WalIndex.appendStart (ix : WalIndex) (pageSize : Nat) (salt : Salt)
    : List FileOp × (Nat × (UInt32 × UInt32) × Salt × Bool) :=
  match ix.writerState with
  | some (off, ck, ixSalt, _) => ([], off, ck, ixSalt, ix.bigEndCksum)
  | none =>
      let salt := if ix.salt = Salt.zero then salt else ix.salt
      let hdr := walHeader nativeBigEndian pageSize ix.ckptSeq salt
      ([.writeAllAt .wal hdr.1 0], walHdrLen, hdr.2, salt, nativeBigEndian)

theorem startAppend_ok (salt : Salt) (s : PagerState)
    : startAppend salt s
      = .ok (s.vfs.index.appendStart s.wp.pageSize salt).2
          (s.after (s.vfs.index.appendStart s.wp.pageSize salt).1) := by
  unfold startAppend WalIndex.appendStart
  rw [estate_get_bind]
  cases s.vfs.index.writerState with
  | none => rfl
  | some state => simp

structure LogAppend where
  ops : List FileOp
  appended : List AppendedFrame
  salt : Salt

/-- What a commit of `p` appends, once the log was restarted if it could be. -/
def PagerState.logAppend (p : PagerState) (w : WalRuntime) : LogAppend :=
  let start := p.vfs.index.restartLog.appendStart p.wp.pageSize w.salt
  let frames := frameOps p.wp.pageCount start.2.2.2.1 start.2.2.2.2 p.wp.pageSize start.2.1
    start.2.2.1 p.wp.overlay.toList
  { ops := start.1 ++ frames.1 ++ [.sync .wal], appended := frames.2, salt := start.2.2.2.1 }

def PagerState.appendedIndex (p : PagerState) (w : WalRuntime) : WalIndex :=
  p.vfs.index.restartLog.publish (p.logAppend w).salt p.wp.pageSize (p.logAppend w).appended

/-- The pager `p` after its commit was appended and published, before it drops its locks. -/
def PagerState.appended (p : PagerState) (w : WalRuntime) : PagerState :=
  { vfs := {
      disk := p.vfs.disk.run (p.logAppend w).ops
      trace := p.vfs.trace ++ (p.logAppend w).ops
      locks := p.vfs.locks
      index := p.appendedIndex w }
    wp := { p.wp with
      wal := some { w with
        salt := (p.logAppend w).salt
        snapshot := (p.appendedIndex w).snapshot
        dbSize := p.wp.pageCount }
      committedHeader := p.wp.header
      overlay := ∅
      savepoints := [] } }

theorem appendFrames_ok (w : WalRuntime) (p : PagerState)
    : appendFrames w p = .ok () (p.appended w) := by
  have hstart := startAppend_ok w.salt
    { p with vfs := { p.vfs with index := p.vfs.index.restartLog } }
  simp only [appended, appendedIndex, logAppend]
  unfold appendFrames withIndex
  rw [estate_modify_bind, estate_bind_ok hstart]
  dsimp only
  rw [estate_get_bind, estate_bind_ok (writeFrames_ok _ _ _ _), perform_bind, estate_modify_bind,
    estate_get_bind]
  simp only [modifyWp, estate_modify, PagerState.after, Disk.run_append, append_assoc]

end GraphiteSql
