import GraphiteSql.Pager.AutoVacuum

/-! The rollback journal: writing it before a commit flushes its pages, and playing it back. -/

namespace GraphiteSql

open Lib Std

def journalMagic : Bytes := [0xd9, 0xd5, 0x05, 0xf9, 0x20, 0xa1, 0x63, 0xd7]

def journalHdrFields : Nat := 28

def journalSector : Nat := 512

/-- The sum of every 200th byte, counted back from the end of the page, seeded by `nonce`. -/
def journalPageChecksum (nonce : UInt32) (page : Bytes) : UInt32 :=
  (List.range (page.length / 200)).foldl
    (fun cksum k => cksum + (page.getD (page.length - 200 * (k + 1)) 0).toUInt32) nonce

def pageOffset (pageSize : Nat) (n : UInt32) : Result Nat :=
  if n = 0 then .error (.panic "attempt to subtract with overflow")
  else .ok ((n.toNat - 1) * pageSize)

def PagerState.original (s : PagerState) (n : UInt32) : Result (UInt32 × Bytes) := do
  let buf ← readExactAt s.vfs.disk.db s.wp.pageSize (← pageOffset s.wp.pageSize n)
  return (n, buf)

def PagerState.originals (s : PagerState) : Result (List (UInt32 × Bytes)) :=
  (s.wp.overlay.keys.filter (· ≤ s.wp.diskPages)).mapM s.original

def PagerState.nonce (s : PagerState) : UInt32 :=
  s.wp.header.changeCounter * 0x9E3779B1 + s.wp.diskPages * 2654435761

def journalHeaderFields (nrec nonce diskPages pageSize : UInt32) : List Bytes :=
  [journalMagic, u32ToBytes nrec, u32ToBytes nonce, u32ToBytes diskPages,
    u32ToBytes (.ofNat journalSector), u32ToBytes pageSize,
    List.replicate (journalSector - journalHdrFields) 0]

def PagerState.journalHeader (s : PagerState) : Bytes :=
  (journalHeaderFields 0 s.nonce s.wp.diskPages (.ofNat s.wp.pageSize)).flatten

def writeRecords (nonce : UInt32) : (off : Nat) → List (UInt32 × Bytes) → PagerM Unit
  | _, [] => return ()
  | off, (n, bytes) :: rest => do
      let pageSize := (← get).wp.pageSize
      perform (.writeAllAt .journal (u32ToBytes n) off)
      perform (.writeAllAt .journal bytes (off + 4))
      perform (.writeAllAt .journal (u32ToBytes (journalPageChecksum nonce bytes))
        (off + 4 + pageSize))
      writeRecords nonce (off + 4 + pageSize + 4) rest

/-- Write the rollback journal. The record count is published only after the records are
durable.
-/
def writeJournal : PagerM Unit := do
  let s ← get
  let originals ← s.originals
  perform (.truncate .journal 0)
  perform (.writeAllAt .journal s.journalHeader 0)
  writeRecords s.nonce journalSector originals
  perform (.sync .journal)
  perform (.writeAllAt .journal (u32ToBytes (.ofNat originals.length)) 8)
  perform (.sync .journal)

structure Opening where
  vfs : Vfs
  level : LockLevel

abbrev OpenM := EStateM Error Opening

namespace Opening

def perform (op : FileOp) : OpenM Unit :=
  modify fun o => { o with vfs := o.vfs.perform op }

def lock (target : LockLevel) : OpenM Unit := do
  let o ← get
  let (vfs, level) ← o.vfs.lock o.level target
  set ({ vfs, level } : Opening)

def unlock (target : LockLevel) : OpenM Unit :=
  modify fun o =>
    let (vfs, level) := o.vfs.unlock o.level target
    { vfs, level }

end Opening

/-- Play back at most `want` records from `off` on, stopping at a torn one. Returns the number
of records played.
-/
def replayRecords (pageSize : Nat) (nonce : UInt32) : (want off : Nat) → OpenM Nat
  | 0, _ => return 0
  | want + 1, off => do
      let journal := (← get).vfs.disk.journal
      let n ← beU32 (← readExactAt journal 4 off) 0
      let buf ← readExactAt journal pageSize (off + 4)
      let cksum ← beU32 (← readExactAt journal 4 (off + 4 + pageSize)) 0
      if n = 0 ∨ cksum ≠ journalPageChecksum nonce buf then return 0 else
      Opening.perform (.writeAllAt .db buf ((n.toNat - 1) * pageSize))
      return (← replayRecords pageSize nonce want (off + (4 + pageSize + 4))) + 1

/-- Walk the journal segments from `segOff` on. Returns whether a record was played. Every
segment starts after the previous one, so the journal size bounds them.
-/
def replaySegments (jsize sector pageSize : Nat) : (bound segOff : Nat) → OpenM Bool
  | 0, _ => return false
  | bound + 1, segOff => do
      if jsize < segOff + journalHdrFields then return false else
      let sh ← readExactAt (← get).vfs.disk.journal journalHdrFields segOff
      if sh.take 8 ≠ journalMagic then return false else
      let nrec ← beU32 sh 8
      let nonce ← beU32 sh 12
      let recsStart := segOff + sector
      if jsize < recsStart then return false else
      let recLen := 4 + pageSize + 4
      let want := min nrec.toNat ((jsize - recsStart) / recLen)
      let played ← replayRecords pageSize nonce want recsStart
      if played < want then return 0 < played else
      let next := (recsStart + played * recLen + sector - 1) / sector * sector
      if next ≤ segOff then return 0 < played else
      return (← replaySegments jsize sector pageSize bound next) || 0 < played

def recover : OpenM Unit := do
  let journal := (← get).vfs.disk.journal
  let jsize := journal.length
  if jsize < journalSector then return () else
  let hdr ← readExactAt journal journalHdrFields 0
  if hdr.take 8 ≠ journalMagic then return () else
  let origPages ← beU32 hdr 16
  let sector ← beU32 hdr 20
  let pageSize ← beU32 hdr 24
  if pageSize < 512 || !isPowerOfTwo pageSize.toNat || sector == 0 then return () else
  if (← beU32 hdr 8) = 0 then return () else
  if ← replaySegments jsize sector.toNat pageSize.toNat (jsize + 1) 0 then
    Opening.perform (.truncate .db (origPages.toNat * pageSize.toNat))
    Opening.perform (.sync .db)
    Opening.perform (.truncate .journal 0)
    Opening.perform (.sync .journal)

def recoverHotJournalLocked : OpenM Unit := do
  let o ← get
  -- A live writer's journal belongs to a transaction in progress.
  if o.vfs.locks.hasWriteIntent then return () else
  if o.vfs.disk.db.length = 0 then
    match o.vfs.lock o.level .reserved with
    | .ok (vfs, level) =>
        set ({ vfs, level } : Opening)
        Opening.perform (.truncate .journal 0)
    | .error _ => return ()
  else
    let first ← readExactAt o.vfs.disk.journal 1 0
    if first = [0] then return () else
    Opening.lock .exclusive
    recover

def thenAlways {α : Type} (x : OpenM α) (cleanup : OpenM Unit) : OpenM α := fun o =>
  match x o with
  | .ok a o' => (cleanup *> pure a) o'
  | .error e o' => (cleanup *> throw e) o'

def recoverHotJournal : OpenM Unit := do
  if (← get).vfs.disk.journal.length = 0 then return () else
  Opening.lock .shared
  thenAlways recoverHotJournalLocked (Opening.unlock .unlocked)

end GraphiteSql
