import GraphiteSql.Pager.Journal

/-! Commit in rollback-journal mode and in WAL mode, and checkpoints. -/

namespace GraphiteSql

open Lib Std

def vacuumForCommit : PagerM Unit := do
  if (← get).autoVacuumOn then
    maybeAutovacuumTruncate
    rebuildPtrmap

def DatabaseHeader.stamped (h : DatabaseHeader) (pageCount : UInt32) : DatabaseHeader :=
  { h with
    changeCounter := h.changeCounter + 1
    sizeInPages := pageCount
    versionValidFor := h.changeCounter + 1 }

def stampPage1 : PagerM Unit := do
  modifyWp fun wp => { wp with header := wp.header.stamped wp.pageCount }
  let page1 ← readPage 1
  stage 1 (← (← get).wp.header.writeTo page1)

def writePages : List (UInt32 × Bytes) → PagerM Unit
  | [] => return ()
  | (n, bytes) :: rest => do
      perform (.writeAllAt .db bytes (← pageOffset (← get).wp.pageSize n))
      writePages rest

def journalOriginals : PagerM Unit := do
  if (← get).wp.journal then writeJournal

def clearJournal : PagerM Unit := do
  if (← get).wp.journal then
    perform (.truncate .journal 0)
    perform (.sync .journal)

def flushPages : PagerM Unit := do
  let wp := (← get).wp
  writePages wp.overlay.toList
  perform (.truncate .db (wp.pageCount.toNat * wp.pageSize))
  perform (.sync .db)

def prepareCommit : PagerM Unit := do
  acquireExclusive
  vacuumForCommit
  stampPage1

def commitJournal : PagerM Unit := do
  prepareCommit
  journalOriginals
  flushPages
  clearJournal
  modifyWp fun wp => { wp with
    diskPages := wp.pageCount
    committedHeader := wp.header
    overlay := ∅
    savepoints := [] }
  releaseLocks

/-- Base magic of a log file; its lowest bit tells the checksum byte order. -/
def walMagic : UInt32 := 0x377f0682

def walHdrLen : Nat := 32

def walFrameHdrLen : Nat := 24

def walHeader (bigEnd : Bool) (pageSize : Nat) (ckptSeq : UInt32) (salt : Salt)
    : Bytes × (UInt32 × UInt32) :=
  let body := u32ToBytes (walMagic ||| (if bigEnd then 1 else 0)) ++ u32ToBytes 3007000
    ++ u32ToBytes (.ofNat pageSize) ++ u32ToBytes ckptSeq ++ salt.toBytes
  let h := checksum bigEnd 0 0 body
  (body ++ u32ToBytes h.1 ++ u32ToBytes h.2, h)

def frameHead (pageNo dbSize : UInt32) : Bytes :=
  u32ToBytes pageNo ++ u32ToBytes dbSize

def frameChecksum (bigEnd : Bool) (cksum : UInt32 × UInt32) (head data : Bytes)
    : UInt32 × UInt32 :=
  let c := checksum bigEnd cksum.1 cksum.2 head
  checksum bigEnd c.1 c.2 data

def frameBytes (head : Bytes) (salt : Salt) (cksum : UInt32 × UInt32) (data : Bytes) : Bytes :=
  head ++ salt.toBytes ++ u32ToBytes cksum.1 ++ u32ToBytes cksum.2 ++ data

structure AppendedFrame where
  frame : IndexFrame
  nextOffset : Nat
  cksum : UInt32 × UInt32

/-- `walRestartLog`: restart the log once every frame is in the main file and no reader is
pinned.
-/
def WalIndex.restartLog (ix : WalIndex) : WalIndex :=
  if 0 < ix.mxFrame ∧ ix.nBackfill = ix.mxFrame ∧ ix.minReaderMark = none then ix.restartHdr
  else ix

/-- Where the next frame goes: the append offset, the checksum, the salts and the checksum byte
order. An empty log gets a fresh header first.
-/
def startAppend (salt : Salt) : PagerM (Nat × (UInt32 × UInt32) × Salt × Bool) := do
  let s ← get
  let ix := s.vfs.index
  match ix.writerState with
  | some (off, ck, ixSalt, _) => return (off, ck, ixSalt, ix.bigEndCksum)
  | none =>
      -- A restarted or attached index carries its own salts.
      let salt := if ix.salt = Salt.zero then salt else ix.salt
      let (hdr, h) := walHeader nativeBigEndian s.wp.pageSize ix.ckptSeq salt
      perform (.writeAllAt .wal hdr 0)
      return (walHdrLen, h, salt, nativeBigEndian)

def writeFrames (newCount : UInt32) (salt : Salt) (bigEnd : Bool)
    : (offset : Nat) → (cksum : UInt32 × UInt32) → List (UInt32 × Bytes)
      → PagerM (List AppendedFrame)
  | _, _, [] => return []
  | offset, cksum, (pageNo, data) :: rest => do
      let dbSize := if rest.isEmpty then newCount else 0
      let head := frameHead pageNo dbSize
      let cksum := frameChecksum bigEnd cksum head data
      perform (.writeAllAt .wal (frameBytes head salt cksum data) offset)
      let offset := offset + (walFrameHdrLen + (← get).wp.pageSize)
      let appended ← writeFrames newCount salt bigEnd offset cksum rest
      return { frame := { pageNo, commitDbSize := dbSize, data }, nextOffset := offset, cksum }
        :: appended

def WalIndex.publish (ix : WalIndex) (salt : Salt) (pageSize : Nat) (appended : List AppendedFrame)
    : WalIndex :=
  appended.foldl (fun ix a => ix.append a.frame salt a.nextOffset a.cksum pageSize) ix

def appendFrames (w : WalRuntime) : PagerM Unit := do
  withIndex WalIndex.restartLog
  let (offset, cksum, salt, bigEnd) ← startAppend w.salt
  let wp := (← get).wp
  let appended ← writeFrames wp.pageCount salt bigEnd offset cksum wp.overlay.toList
  perform (.sync .wal)
  withIndex fun ix => ix.publish salt wp.pageSize appended
  let snapshot := (← get).vfs.index.snapshot
  modifyWp fun wp => { wp with
    wal := some { w with salt, snapshot, dbSize := wp.pageCount }
    committedHeader := wp.header
    overlay := ∅
    savepoints := [] }

def commitWal : PagerM Unit := do
  vacuumForCommit
  stampPage1
  let s ← get
  match s.wp.wal with
  | none => throw (.panic "wal mode")
  | some w =>
      if !s.wp.walFile then throw (.panic "wal file") else
      appendFrames w
      releaseLocks

def commit : PagerM Unit := do
  let s ← get
  if s.wp.overlay.isEmpty then releaseLocks
  else if s.wp.wal.isSome then commitWal
  else commitJournal

/-- Checkpoint modes; each includes everything the previous one does. -/
inductive CheckpointMode where
  | passive
  | full
  | restart
  | truncate
deriving DecidableEq, Repr

def CheckpointMode.restarts : CheckpointMode → Bool
  | .passive | .full => false
  | .restart | .truncate => true

def copyPages (dbSize : UInt32) : List (UInt32 × Bytes) → PagerM Unit
  | [] => return ()
  | (pageNo, data) :: rest => do
      if pageNo = 0 ∨ dbSize < pageNo then copyPages dbSize rest else
      perform (.writeAllAt .db data ((pageNo.toNat - 1) * (← get).wp.pageSize))
      copyPages dbSize rest

/-- The last frame that is safe to copy: no further than the oldest pinned reader. -/
def WalIndex.mxSafe (ix : WalIndex) : Nat :=
  match ix.minReaderMark with
  | some m => if m < ix.mxFrame then m else ix.mxFrame
  | none => ix.mxFrame

def truncateMain (dbSize : UInt32) : PagerM Unit := do
  perform (.truncate .db (dbSize.toNat * (← get).wp.pageSize))
  perform (.sync .db)
  modifyWp fun wp => { wp with diskPages := dbSize }

def backfill : PagerM Unit := do
  let ix := (← get).vfs.index
  if ix.nBackfill < ix.mxFrame ∧ ix.nBackfill < ix.mxSafe then
    copyPages ix.fullDbSize (ix.backfillPages ix.mxSafe)
    if ix.mxSafe = ix.mxFrame then truncateMain ix.fullDbSize
    withIndex fun ix' => ix'.setNBackfill ix.mxSafe

def truncateLog : PagerM Unit := do
  withIndex WalIndex.restartHdr
  if (← get).wp.walFile then
    perform (.truncate .wal 0)
    perform (.sync .wal)

/-- What a mode does beyond copying; `true` when a reader is in the way. -/
def finishCheckpoint (mode : CheckpointMode) (mx : Nat) : PagerM Bool := do
  let ix := (← get).vfs.index
  if mode = .passive then return false else
  if ix.nBackfill < mx then return true else
  if !mode.restarts then return false else
  if ix.minReaderMark.isSome then return true else
  if mode = .truncate then truncateLog
  return false

def refreshAfterCheckpoint (fullDbSize : UInt32) : PagerM Unit := do
  let ix := (← get).vfs.index
  modifyWal fun w =>
    let w := if w.registeredMark = none then
        { w with
          snapshot := ix.snapshot
          dbSize := if fullDbSize ≠ 0 then fullDbSize else w.dbSize }
      else w
    if ix.salt ≠ Salt.zero then { w with salt := ix.salt } else w

/-- The body of a checkpoint: whether it was blocked, the frames in the log and the frames
copied.
-/
def checkpointLocked (mode : CheckpointMode) : PagerM (Bool × Nat × Nat) := do
  let ix := (← get).vfs.index
  backfill
  let busy ← finishCheckpoint mode ix.mxFrame
  refreshAfterCheckpoint ix.fullDbSize
  let ix := (← get).vfs.index
  return (busy, ix.mxFrame, ix.nBackfill)

def andFinally {α : Type} (x : PagerM α) (cleanup : PagerM Unit) : PagerM α := fun s =>
  match x s with
  | .ok a s' => (cleanup *> pure a) s'
  | .error e s' => (cleanup *> throw e) s'

/-- Checkpoint the log: whether it was blocked, the frames in the log, and the frames in the
main file. Modes above passive take the writer lock; an active writer downgrades them.
-/
def checkpointMode (mode : CheckpointMode) : PagerM (Int × Int × Int) := do
  let s ← get
  if s.wp.wal.isNone then return (0, -1, -1) else
  if mode = .passive ∨ .reserved ≤ s.wp.held then
    let (busy, log, ckpt) ← checkpointLocked mode
    return (if busy then 1 else 0, log, ckpt)
  else
    match s.vfs.lock s.wp.level .reserved with
    | .ok (vfs, level) =>
        set { s with vfs, wp := { s.wp with level, held := .reserved } }
        let (busy, log, ckpt) ← andFinally (checkpointLocked mode) do
          unlock s.wp.held
          setHeld s.wp.held
        return (if busy then 1 else 0, log, ckpt)
    | .error .busy =>
        let (_, log, ckpt) ← checkpointLocked .passive
        return (1, log, ckpt)
    | .error e => throw e

end GraphiteSql
