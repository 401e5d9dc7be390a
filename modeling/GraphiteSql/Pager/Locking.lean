import GraphiteSql.Pager.State

/-! Transactions of one pager: read and write locks, snapshots, and the refresh of state that
another connection's commit made stale.
-/

namespace GraphiteSql

open Lib Std

def onError {α : Type} (x : PagerM α) (cleanup : PagerM Unit) : PagerM α := fun s =>
  match x s with
  | .ok a s' => .ok a s'
  | .error e s' =>
      match cleanup s' with
      | .ok _ s'' => .error e s''
      | .error _ s'' => .error e s''

def PagerState.snapshotSize (s : PagerState) (snap : WalSnapshot) : UInt32 :=
  ((s.vfs.index.snapshotDbSize snap.mxFrame).or s.mainFilePageCount).getD s.wp.diskPages

/-- The statement-boundary refresh of an unlocked connection. In WAL mode an unpinned
connection moves to the latest commit.
-/
def revalidateReadCache : PagerM Unit := do
  let s ← get
  match s.wp.wal with
  | some w =>
      if s.wp.held < .reserved ∧ w.registeredMark = none then
        let snap := s.vfs.index.snapshot
        modifyWal fun w => { w with snapshot := snap, dbSize := s.snapshotSize snap }
      else return ()
  | none =>
      if .reserved ≤ s.wp.held then return () else
      match s.diskChangeCounter with
      | none => modifyWp fun wp => { wp with readCacheToken := none }
      | some current =>
          if s.wp.readCacheToken = some current then return () else
          modifyWp fun wp => { wp with
            readCacheToken := some current
            diskPages := s.mainFilePageCount.getD wp.diskPages
            pageCount := s.mainFilePageCount.getD wp.pageCount }

def ensureShared : PagerM Unit := do
  if (← get).wp.held < .shared then
    lock .shared
    setHeld .shared

/-- Pin a snapshot and register it, so that a checkpoint keeps the frames it needs. Only the
first read of a transaction pins.
-/
def pinSnapshot : PagerM Unit := do
  let s ← get
  if (s.wp.wal.map WalRuntime.registeredMark) = some none then
    let snap := s.vfs.index.snapshot
    withIndex fun ix => ix.registerReader snap.mxFrame
    modifyWal fun w => { w with
      snapshot := snap
      dbSize := s.snapshotSize snap
      registeredMark := some snap.mxFrame }

def beginReadTxn : PagerM Unit := do
  ensureShared
  pinSnapshot
  modifyWp fun wp => { wp with readTxn := true }

def unpin : PagerM Unit := do
  match ((← get).wp.wal).bind WalRuntime.registeredMark with
  | some mark =>
      withIndex fun ix => ix.unregisterReader mark
      modifyWal fun w => { w with registeredMark := none }
  | none => return ()

def dropLock : PagerM Unit := do
  unlock .unlocked
  modifyWp fun wp => { wp with held := .unlocked, readCacheToken := none }

/-- Close a read transaction. A write lock is left to the commit or rollback that owns it. -/
def endReadTxn : PagerM Unit := do
  modifyWp fun wp => { wp with readTxn := false }
  unpin
  if (← get).wp.held = .shared then dropLock

def releaseLocks : PagerM Unit := do
  modifyWp fun wp => { wp with readTxn := false }
  unpin
  if (← get).wp.held ≠ .unlocked then dropLock

/-- Take a transient shared lock around a bare read; `false` when a lock is already held. -/
def beginAutocommitRead : PagerM Bool := do
  let wp := (← get).wp
  if wp.readTxn ∨ wp.transientRead ∨ .shared ≤ wp.held then return false else
  lock .shared
  modifyWp fun wp => { wp with held := .shared, transientRead := true }
  return true

def endAutocommitRead : PagerM Unit := do
  if !(← get).wp.transientRead then return () else
  modifyWp fun wp => { wp with transientRead := false }
  if (← get).wp.held = .shared then
    unlock .unlocked
    setHeld .unlocked

/-- Install `hdr` as the live and the committed header, also in the savepoints that were
opened before anything was staged.
-/
def adoptCommittedHeader (hdr : DatabaseHeader) : PagerM Unit :=
  modifyWp fun wp => { wp with
    header := hdr
    committedHeader := hdr
    savepoints := wp.savepoints.map fun sp =>
      if sp.overlay.isEmpty then { sp with header := hdr, pageCount := wp.pageCount } else sp }

/-- Re-derive the committed state when another connection's commit made it stale. Does nothing
while changes are staged, while the header has uncommitted edits, or for a pinned reader.
-/
def refreshForeignState : PagerM Unit := do
  let s ← get
  if !s.wp.overlay.isEmpty || s.wp.header ≠ s.wp.committedHeader then return () else
  match s.wp.wal with
  | some w =>
      if w.registeredMark.isSome then return () else
      let snap := s.vfs.index.snapshot
      let db := s.snapshotSize snap
      modifyWp fun wp => { wp with
        wal := some { w with snapshot := snap, dbSize := db }
        diskPages := s.mainFilePageCount.getD wp.diskPages
        pageCount := db }
      -- Page 1 is read through the log at the snapshot just adopted.
      let hdr ← DatabaseHeader.parse (← readPage 1)
      if hdr.changeCounter ≠ s.wp.header.changeCounter then adoptCommittedHeader hdr
  | none =>
      match s.diskChangeCounter with
      | none => return ()
      | some current =>
          if current = s.wp.header.changeCounter then return () else
          let head ← readExactAt s.vfs.disk.db headerLen 0
          let hdr ← DatabaseHeader.parse head
          let pages := s.mainFilePageCount.getD s.wp.diskPages
          modifyWp fun wp => { wp with diskPages := pages, pageCount := pages }
          adoptCommittedHeader hdr

def ensureReserved (undo : PagerM Unit) : PagerM Unit := do
  if (← get).wp.held < .reserved then
    onError (lock .reserved) undo
    modifyWp fun wp => { wp with held := .reserved, readCacheToken := none }
    onError refreshForeignState undo

/-- Take the write-intent lock before staging changes. A first write that is refused gives
back the shared lock it just took.
-/
def acquireWriteIntent : PagerM Unit := do
  let entry := (← get).wp.held
  ensureShared
  ensureReserved (if entry = .unlocked then releaseLocks else pure ())

def beginWrite : PagerM Unit :=
  acquireWriteIntent

def acquireExclusive : PagerM Unit := do
  acquireWriteIntent
  if (← get).wp.held < .exclusive then
    lock .exclusive
    setHeld .exclusive

def writePage (number : UInt32) (bytes : Bytes) : PagerM Unit := do
  if bytes.length ≠ (← get).wp.pageSize then throw (.error "page image has wrong size") else
  acquireWriteIntent
  stage number bytes

def touchPage1 : PagerM Unit := do
  let s ← get
  if s.wp.overlay.contains 1 then return () else
  match s.readPage 1 with
  | .ok p => stage 1 p
  | .error _ => return ()

/-- `header_mut` and the change its caller makes: page 1 is staged, without a lock, so that the
change is flushed by the next commit.
-/
def headerMut (change : DatabaseHeader → DatabaseHeader) : PagerM Unit := do
  touchPage1
  modifyWp fun wp => { wp with header := change wp.header }

def rollback : PagerM Unit := do
  modifyWp fun wp => { wp with
    overlay := ∅
    header := wp.committedHeader
    pageCount := (match wp.wal with
      | some w => w.dbSize
      | none => wp.diskPages)
    savepoints := [] }
  releaseLocks

end GraphiteSql
