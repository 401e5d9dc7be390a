import GraphiteSql.Vfs
import GraphiteSql.Btree.Page
import GraphiteSql.Pager.WalIndex

/-! The state of the write-side pager, and reading pages through it. -/

namespace GraphiteSql

open Lib Std

inductive AutoVacuum where
  | none
  | full
  | incremental
deriving DecidableEq, Repr

abbrev Overlay := TreeMap UInt32 Bytes

structure Savepoint where
  name : String
  overlay : Overlay
  header : DatabaseHeader
  pageCount : UInt32

/-- Per-connection WAL state. `registeredMark` is the mark registered with the shared index
while a read transaction is open.
-/
structure WalRuntime where
  snapshot : WalSnapshot
  registeredMark : Option Nat
  dbSize : UInt32
  salt : Salt
deriving DecidableEq, Repr

/-- What the handles of one database share: the files, the lock state of the main file and the
wal-index. `trace` is the history of file operations, for reasoning about crashes.
-/
structure Vfs where
  disk : Disk
  trace : List FileOp
  locks : LockState
  index : WalIndex

/-- The private state of one connection's pager. `level` is the lock level of its file handle,
`held` the level the pager believes it holds. The clean pages that the read cache keeps are
left out: a page is read from the file whenever it is neither staged nor in the log.
-/
structure WritePager where
  header : DatabaseHeader
  committedHeader : DatabaseHeader
  pageSize : Nat
  diskPages : UInt32
  pageCount : UInt32
  overlay : Overlay
  journal : Bool
  walFile : Bool
  wal : Option WalRuntime
  held : LockLevel
  level : LockLevel
  readTxn : Bool
  transientRead : Bool
  savepoints : List Savepoint
  secureDelete : Bool
  readCacheToken : Option UInt32

structure PagerState where
  vfs : Vfs
  wp : WritePager

abbrev PagerM := EStateM Error PagerState

def Vfs.perform (v : Vfs) (op : FileOp) : Vfs :=
  { v with disk := v.disk.apply op, trace := v.trace ++ [op] }

def Vfs.lock (v : Vfs) (level target : LockLevel) : Result (Vfs × LockLevel) :=
  (v.locks.acquire level target).map fun locks =>
    ({ v with locks }, if level < target then target else level)

def Vfs.unlock (v : Vfs) (level target : LockLevel) : Vfs × LockLevel :=
  ({ v with locks := v.locks.release level target }, if target < level then target else level)

def perform (op : FileOp) : PagerM Unit :=
  modify fun s => { s with vfs := s.vfs.perform op }

def lock (target : LockLevel) : PagerM Unit := do
  let s ← get
  let (vfs, level) ← s.vfs.lock s.wp.level target
  set { s with vfs, wp := { s.wp with level } }

def unlock (target : LockLevel) : PagerM Unit :=
  modify fun s =>
    let (vfs, level) := s.vfs.unlock s.wp.level target
    { s with vfs, wp := { s.wp with level } }

def withIndex (f : WalIndex → WalIndex) : PagerM Unit :=
  modify fun s => { s with vfs := { s.vfs with index := f s.vfs.index } }

def modifyWp (f : WritePager → WritePager) : PagerM Unit :=
  modify fun s => { s with wp := f s.wp }

def modifyWal (f : WalRuntime → WalRuntime) : PagerM Unit :=
  modifyWp fun wp => { wp with wal := wp.wal.map f }

def setHeld (level : LockLevel) : PagerM Unit :=
  modifyWp fun wp => { wp with held := level }

def stage (number : UInt32) (bytes : Bytes) : PagerM Unit :=
  modifyWp fun wp => { wp with overlay := wp.overlay.insert number bytes }

def zeroPage (pageSize : Nat) : Bytes :=
  List.replicate pageSize 0

namespace PagerState

variable (s : PagerState)

def readDisk (number : UInt32) : Result Bytes :=
  readExactAt s.vfs.disk.db s.wp.pageSize ((number.toNat - 1) * s.wp.pageSize)

/-- The bytes of page `number`: staged, then in the log up to the snapshot, then on disk. -/
def readPage (number : UInt32) : Result Bytes :=
  match s.wp.overlay[number]? with
  | some bytes => .ok bytes
  | none =>
      match s.wp.wal with
      | some w =>
          match s.vfs.index.findFrame number w.snapshot.mxFrame with
          | some bytes => .ok bytes
          | none =>
              if number = 0 ∨ w.dbSize < number then
                .error (.corrupt s!"page {number} out of range")
              else s.readDisk number
      | none =>
          if number = 0 ∨ s.wp.diskPages < number then
            .error (.corrupt s!"page {number} out of range")
          else s.readDisk number

def mainFilePageCount : Option UInt32 :=
  if s.wp.pageSize = 0 ∨ s.vfs.disk.db.length % s.wp.pageSize ≠ 0 then none
  else some (.ofNat (s.vfs.disk.db.length / s.wp.pageSize))

def diskChangeCounter : Option UInt32 :=
  if s.wp.diskPages = 0 then none
  else (slice s.vfs.disk.db 0 28).bind fun hdr => be32 hdr 24

def usableSize : Nat :=
  s.wp.header.usableSize

def autoVacuumOn : Bool :=
  s.wp.header.largestRootPage != 0

def autoVacuum : AutoVacuum :=
  if s.wp.header.largestRootPage = 0 then .none
  else if s.wp.header.incrementalVacuum ≠ 0 then .incremental
  else .full

def hasPage (n : UInt32) : Bool :=
  s.wp.overlay.contains n
    || (match s.wp.wal with
        | some w => (s.vfs.index.findFrame n w.snapshot.mxFrame).isSome
        | none => false)
    || (1 ≤ n && n ≤ s.wp.diskPages)

end PagerState

def readPage (number : UInt32) : PagerM Bytes := do
  (← get).readPage number

/-- Where pages come from, for readers that only need to look: `PageSource`. -/
structure PageSource where
  page : UInt32 → Result Page
  usableSize : Nat

def PagerState.source (s : PagerState) : PageSource where
  page number := (s.readPage number).map fun data => { number, data }
  usableSize := s.usableSize

end GraphiteSql
