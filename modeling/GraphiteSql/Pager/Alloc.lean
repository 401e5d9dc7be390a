import GraphiteSql.Btree.Ptrmap
import GraphiteSql.Pager.Locking

/-! Page allocation and the freelist. -/

namespace GraphiteSql

open Lib Std

/-- File offset of the lock byte; the page that contains it never stores data. -/
def pendingByte : Nat := 0x40000000

def lockPage (pageSize : Nat) : Nat :=
  pendingByte / pageSize + 1

def PagerState.isLockPage (s : PagerState) (pgno : UInt32) : Bool :=
  1 < lockPage s.wp.pageSize && pgno.toNat == lockPage s.wp.pageSize

def PagerState.isReservedLayoutPage (s : PagerState) (pgno : UInt32) : Bool :=
  Ptrmap.isPtrmapPage s.usableSize pgno || s.isLockPage pgno

def checkedAdd (a b : UInt32) : Result UInt32 :=
  if a.toNat + b.toNat < 2 ^ 32 then .ok (a + b)
  else .error (.panic "attempt to add with overflow")

def checkedSub (a b : UInt32) : Result UInt32 :=
  if b ≤ a then .ok (a - b) else .error (.panic "attempt to subtract with overflow")

/-- Pop a page off the freelist: the last leaf of the first trunk, or the trunk itself when it
lists no leaves.
-/
def allocFromFreelist : PagerM UInt32 := do
  let trunk := (← get).wp.header.freelistTrunk
  let tbytes ← readPage trunk
  let leafCount ← beU32 tbytes 4
  if 0 < leafCount then
    let leaf ← beU32 tbytes (8 + 4 * (leafCount.toNat - 1))
    let tbytes ← put32 tbytes 4 (leafCount - 1)
    writePage trunk tbytes
    let count ← checkedSub (← get).wp.header.freelistCount 1
    modifyWp fun wp => { wp with
      header := { wp.header with freelistCount := count }
      overlay := wp.overlay.insert leaf (zeroPage wp.pageSize) }
    return leaf
  else
    let next ← beU32 tbytes 0
    let count ← checkedSub (← get).wp.header.freelistCount 1
    modifyWp fun wp => { wp with
      header := { wp.header with freelistTrunk := next, freelistCount := count }
      overlay := wp.overlay.insert trunk (zeroPage wp.pageSize) }
    return trunk

/-- Extend the file by one page, materializing the reserved pages on the way. `room` is how
many page numbers are left; the page count overflows when there are none.
-/
def extendFile : (room : Nat) → PagerM UInt32
  | 0 => throw (.panic "attempt to add with overflow")
  | room + 1 => do
      let s ← get
      let n := s.wp.pageCount + 1
      modifyWp fun wp => { wp with
        pageCount := n
        overlay := wp.overlay.insert n (zeroPage wp.pageSize) }
      if s.autoVacuumOn ∧ s.isReservedLayoutPage n then extendFile room else return n

def allocatePage : PagerM UInt32 := do
  acquireWriteIntent
  let s ← get
  if 0 < s.wp.header.freelistCount ∧ s.wp.header.freelistTrunk ≠ 0 then allocFromFreelist
  else extendFile (2 ^ 32 - 1 - s.wp.pageCount.toNat)

def PagerState.maxLeaves (s : PagerState) : Nat :=
  s.usableSize / 4 - 8

def countFreed (change : DatabaseHeader → DatabaseHeader) : PagerM Unit := do
  let count ← checkedAdd (← get).wp.header.freelistCount 1
  modifyWp fun wp => { wp with header := change { wp.header with freelistCount := count } }

def scrub (page : UInt32) : PagerM Unit := do
  let wp := (← get).wp
  if wp.secureDelete then writePage page (zeroPage wp.pageSize) else pure ()

def freeAsLeaf (page trunk leafCount : UInt32) (tbytes : Bytes) : PagerM Unit := do
  let tbytes ← put32 tbytes (8 + 4 * leafCount.toNat) page
  let tbytes ← put32 tbytes 4 (leafCount + 1)
  writePage trunk tbytes
  scrub page
  countFreed id

def freeAsTrunk (page trunk : UInt32) : PagerM Unit := do
  let nb ← put32 (zeroPage (← get).wp.pageSize) 0 trunk
  let nb ← put32 nb 4 0
  writePage page nb
  countFreed fun header => { header with freelistTrunk := page }

def freePage (page : UInt32) : PagerM Unit := do
  acquireWriteIntent
  let s ← get
  let trunk := s.wp.header.freelistTrunk
  if trunk = 0 then freeAsTrunk page trunk else
  let tbytes ← readPage trunk
  let leafCount ← beU32 tbytes 4
  if leafCount.toNat < s.maxLeaves then freeAsLeaf page trunk leafCount tbytes
  else freeAsTrunk page trunk

end GraphiteSql
