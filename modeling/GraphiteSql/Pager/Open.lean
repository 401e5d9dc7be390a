import GraphiteSql.Pager.Commit

/-! Opening and creating databases, and attaching to an existing log file. -/

namespace GraphiteSql

open Lib Std

structure LogHeader where
  bigEndian : Bool
  ckptSeq : UInt32
  salt : Salt
  cksum : UInt32 × UInt32
deriving DecidableEq, Repr

/-- Read the header of a log file; `none` when it is not a log with this page size. -/
def parseLogHeader (wal : Bytes) (pageSize : Nat) : Result (Option LogHeader) := do
  if wal.length < walHdrLen then return none else
  let hdr ← readExactAt wal walHdrLen 0
  let magic ← beU32 hdr 0
  if magic &&& 0xFFFFFFFE ≠ walMagic then return none else
  let bigEndian := magic &&& 1 == 1
  let walPs ← beU32 hdr 8
  if walPs.toNat ≠ pageSize then return none else
  let ckptSeq ← beU32 hdr 12
  let salt : Salt := { salt1 := ← beU32 hdr 16, salt2 := ← beU32 hdr 20 }
  let h := checksum bigEndian 0 0 (hdr.take 24)
  if h.1 ≠ (← beU32 hdr 24) || h.2 ≠ (← beU32 hdr 28) then return none else
  return some { bigEndian, ckptSeq, salt, cksum := h }

/-- The valid frame at `off`, with the checksum after it; `none` when there is no whole frame,
its salts differ or its checksum does not match.
-/
def parseFrame (wal : Bytes) (pageSize : Nat) (bigEndian : Bool) (salt : Salt) (off : Nat)
    (cksum : UInt32 × UInt32) : Result (Option (IndexFrame × (UInt32 × UInt32))) := do
  if wal.length < off + (walFrameHdrLen + pageSize) then return none else
  let fhdr ← readExactAt wal walFrameHdrLen off
  let page ← readExactAt wal pageSize (off + walFrameHdrLen)
  if slice fhdr 8 8 ≠ some salt.toBytes then return none else
  let c := frameChecksum bigEndian cksum (fhdr.take 8) page
  if c.1 ≠ (← beU32 fhdr 16) || c.2 ≠ (← beU32 fhdr 20) then return none else
  return some ({ pageNo := ← beU32 fhdr 0, commitDbSize := ← beU32 fhdr 4, data := page }, c)

structure LogScan where
  log : List IndexFrame
  committedLen : Nat
  committedOff : Nat
  committedCksum : UInt32 × UInt32
  dbSize : UInt32
deriving DecidableEq, Repr

def LogScan.push (scan : LogScan) (frame : IndexFrame) (off : Nat) (cksum : UInt32 × UInt32)
    : LogScan :=
  let log := scan.log ++ [frame]
  if frame.commitDbSize ≠ 0 then
    { log, committedLen := log.length, committedOff := off, committedCksum := cksum,
      dbSize := frame.commitDbSize }
  else { scan with log }

/-- Read frames from `off` on until one is torn, stale or missing. Every frame takes at least
its header, so the file size bounds them.
-/
def scanFrames (wal : Bytes) (pageSize : Nat) (hdr : LogHeader)
    : (bound off : Nat) → (cksum : UInt32 × UInt32) → LogScan → Result LogScan
  | 0, _, _, scan => .ok scan
  | bound + 1, off, cksum, scan => do
      match ← parseFrame wal pageSize hdr.bigEndian hdr.salt off cksum with
      | none => return scan
      | some (frame, c) =>
          let off := off + (walFrameHdrLen + pageSize)
          scanFrames wal pageSize hdr bound off c (scan.push frame off c)

def attachFromIndexOnly (ix : WalIndex) : Option WalRuntime :=
  let snap := ix.snapshot
  let dbSize := (ix.snapshotDbSize snap.mxFrame).getD 0
  let salt := (ix.writerState.map fun (_, _, salt, _) => salt).getD Salt.zero
  if dbSize = 0 then none
  else some { snapshot := snap, registeredMark := none, dbSize, salt }

def WalIndex.matchesDisk (ix : WalIndex) (committedOff : Nat) (salt : Salt) (pageSize : Nat)
    : Bool :=
  match ix.writerState with
  | some (off, _, ixSalt, ps) => off = committedOff ∧ ixSalt = salt ∧ ps = pageSize
  | none => false

/-- Attach to the shared index. The log file is authoritative: the index is kept only when it
already matches the file, and is reseeded otherwise.
-/
def attachWal (wal : Bytes) (ix : WalIndex) (pageSize : Nat)
    : Result (WalIndex × Option WalRuntime) := do
  match ← parseLogHeader wal pageSize with
  | none => return (ix, attachFromIndexOnly ix)
  | some hdr =>
      let scan ← scanFrames wal pageSize hdr wal.length walHdrLen hdr.cksum
        { log := [], committedLen := 0, committedOff := walHdrLen, committedCksum := hdr.cksum,
          dbSize := 0 }
      if scan.committedLen = 0 then return (ix, none) else
      let ix := if ix.matchesDisk scan.committedOff hdr.salt pageSize then ix
        else ix.seed (scan.log.take scan.committedLen) hdr.salt scan.committedOff
          scan.committedCksum pageSize hdr.ckptSeq hdr.bigEndian
      let runtime : WalRuntime :=
        { snapshot := ix.snapshot, registeredMark := none, dbSize := scan.dbSize, salt := hdr.salt }
      return (ix, some runtime)

def WritePager.fresh (header : DatabaseHeader) (diskPages pageCount : UInt32)
    (journal walFile : Bool) (wal : Option WalRuntime) : WritePager where
  header
  committedHeader := header
  pageSize := header.pageSize.toNat
  diskPages
  pageCount
  overlay := ∅
  journal
  walFile
  wal
  held := .unlocked
  level := .unlocked
  readTxn := false
  transientRead := false
  savepoints := []
  secureDelete := false
  readCacheToken := none

/-- Open a database: recover a hot journal, parse the header, and attach to the log when the
database is in WAL mode.
-/
def openWal (journal walFile : Bool) : OpenM WritePager := do
  if journal then recoverHotJournal
  let v := (← get).vfs
  let fileSize := v.disk.db.length
  if fileSize < headerLen then throw (.corrupt "file too small to be a database") else
  let header ← DatabaseHeader.parse (← readExactAt v.disk.db headerLen 0)
  let pageSize := header.pageSize.toNat
  if fileSize % pageSize ≠ 0 then throw (.corrupt "file size not a multiple of page size") else
  let pages : UInt32 := .ofNat (fileSize / pageSize)
  if header.readVersion ≠ 2 ∨ !walFile then
    return .fresh header pages pages journal walFile none else
  let (index, wal) ← attachWal v.disk.wal v.index pageSize
  modify fun o => { o with vfs := { o.vfs with index } }
  match wal with
  | none => return .fresh header pages pages journal walFile none
  | some w =>
      -- The newest committed page 1 may be in the log.
      match index.findFrame 1 w.snapshot.mxFrame with
      | some p1 =>
          let header ← DatabaseHeader.parse p1
          return { WritePager.fresh header pages w.dbSize journal walFile wal with pageSize }
      | none => return .fresh header pages w.dbSize journal walFile wal

def emptyLeafHeader (pageSize : UInt32) : Bytes :=
  [0x0d, 0, 0, 0, 0] ++ u16ToBytes (if pageSize = 65536 then 0 else pageSize.toUInt16) ++ [0]

def newHeader (pageSize : UInt32) (mode : AutoVacuum) : DatabaseHeader where
  pageSize
  writeVersion := 1
  readVersion := 1
  reservedSpace := 0
  changeCounter := 1
  sizeInPages := 1
  freelistTrunk := 0
  freelistCount := 0
  schemaCookie := 0
  schemaFormat := 4
  defaultCacheSize := 0
  largestRootPage := if mode = .none then 0 else 1
  textEncoding := .utf8
  userVersion := 0
  incrementalVacuum := if mode = .incremental then 1 else 0
  applicationId := 0
  versionValidFor := 1
  sqliteVersionNumber := 3053002

/-- Create a new database: page 1 is staged with the header and an empty schema tree. -/
def createAutoVacuum (journal walFile : Bool) (pageSize : UInt32) (mode : AutoVacuum)
    : Result WritePager := do
  if pageSize < 512 || !isPowerOfTwo pageSize.toNat then
    throw (.error s!"invalid page size {pageSize}") else
  let header := newHeader pageSize mode
  let page1 ← header.writeTo (zeroPage pageSize.toNat)
  let page1 ← orPanic "index out of bounds" (patch page1 headerLen (emptyLeafHeader pageSize))
  return { WritePager.fresh header 0 1 journal walFile none with
    overlay := (∅ : Overlay).insert 1 page1 }

end GraphiteSql
