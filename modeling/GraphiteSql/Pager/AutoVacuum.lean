import GraphiteSql.Btree.Cursor
import GraphiteSql.Format.Record
import GraphiteSql.Pager.Alloc

/-! Auto-vacuum: deriving the pointer map from the pages, relocating tail pages into free slots
before a commit, and rewriting the pointer-map pages.
-/

namespace GraphiteSql

open Lib Std Ptrmap

abbrev PtrmapEntry := PtrmapType × UInt32

abbrev WantMap := TreeMap UInt32 PtrmapEntry

/-- More pages than there are page numbers: a path this long runs in a cycle, on which the
walks below never end.
-/
def pathLimit : Nat := 2 ^ 32

def BtreePage.children (bt : BtreePage) : Result (List UInt32) := do
  let left ← (List.range bt.numCells).mapM bt.childPointer
  return left ++ [bt.rightPointer]

namespace PagerState

variable (s : PagerState)

def btreePage (pg : UInt32) : Result BtreePage := do
  BtreePage.parse { number := pg, data := ← s.readPage pg }

def schemaRoot (bt : BtreePage) (i : Nat) : Result (Option UInt32) := do
  let cell ← bt.tableLeafCell i s.usableSize
  let full ← readPayload s.source bt.data cell.payload
  let cols ← decodeRecord full s.wp.header.textEncoding
  -- Column 3 of sqlite_schema is the root page; views and triggers have none.
  match cols[3]? with
  | some (Value.integer r) => return if 0 < r.toInt then some r.toUInt64.toUInt32 else none
  | _ => return none

/-- The root pages listed under page `pg` of the schema tree. The stack of the source pops the
right-most child first.
-/
def schemaRootsFrom : (depth : Nat) → UInt32 → Result (List UInt32)
  | 0, _ => .error .diverge
  | depth + 1, pg => do
      let bt ← s.btreePage pg
      match bt.pageType with
      | .leafTable => return (← (List.range bt.numCells).mapM (s.schemaRoot bt)).reduceOption
      | .interiorTable =>
          let below ← (← bt.children).reverse.mapM (schemaRootsFrom depth)
          return below.flatten
      | _ => throw (.corrupt "sqlite_schema is not a table b-tree")

def schemaRoots : Result (List UInt32) :=
  s.schemaRootsFrom pathLimit 1

def overflowTail : (left : Nat) → (prev cur : UInt32) → WantMap → Result WantMap
  | 0, _, _, _ => .error .diverge
  | left + 1, prev, cur, want => do
      if cur = 0 then return want else
      let pg ← s.readPage cur
      let next ← beU32 pg 0
      overflowTail left cur next (want.insert cur (.overflow2, prev))

def recordOverflowChain (first holder : UInt32) (want : WantMap)
    : Result WantMap := do
  if first = 0 then return want else
  let pg ← s.readPage first
  s.overflowTail (pathLimit + 1) first (← beU32 pg 0) (want.insert first (.overflow1, holder))

def recordCell (bt : BtreePage) (pg : UInt32) (want : WantMap) (i : Nat)
    : Result WantMap := do
  match bt.pageType with
  | .leafTable =>
      s.recordOverflowChain (← bt.tableLeafCell i s.usableSize).payload.overflow pg want
  | .leafIndex | .interiorIndex =>
      s.recordOverflowChain (← bt.indexCell i s.usableSize).payload.overflow pg want
  | .interiorTable => return want

def recordChild (bt : BtreePage) (pg : UInt32) (want : WantMap) (i : Nat) : Result WantMap := do
  return want.insert (← bt.childPointer i) (.btree, pg)

def recordPage (bt : BtreePage) (pg : UInt32) (want : WantMap)
    : Result WantMap := do
  if bt.pageType.isLeaf then (List.range bt.numCells).foldlM (s.recordCell bt pg) want else
  let want ← (List.range bt.numCells).foldlM
    (fun want i => do recordChild bt pg (← s.recordCell bt pg want i) i) want
  return want.insert bt.rightPointer (.btree, pg)

def walkBtreePtrmap : (depth : Nat) → UInt32 → WantMap → Result WantMap
  | 0, _, _ => .error .diverge
  | depth + 1, pg, want => do
      let bt ← s.btreePage pg
      let want ← s.recordPage bt pg want
      if bt.pageType.isLeaf then return want else
      (← bt.children).reverse.foldlM (fun want child => walkBtreePtrmap depth child want) want

/-- Record every page of the freelist; `guard` is how many more trunks are accepted. -/
def walkFreelistPtrmap : (guard : Nat) → UInt32 → WantMap → Result WantMap
  | 0, trunk, want => do
      if trunk = 0 then return want else
      -- The counter stands at the cap and is raised once more before the comparison.
      let _ ← checkedAdd (s.wp.header.freelistCount + 8) 1
      throw (.corrupt "freelist trunk cycle")
  | guard + 1, trunk, want => do
      if trunk = 0 then return want else
      let tb ← s.readPage trunk
      let next ← beU32 tb 0
      let leafCount ← beU32 tb 4
      let want ← (List.range leafCount.toNat).foldlM
        (fun want i => do return want.insert (← beU32 tb (8 + 4 * i)) (.freePage, 0))
        (want.insert trunk (.freePage, 0))
      walkFreelistPtrmap guard next want

def freelistPtrmap (want : WantMap) : Result WantMap := do
  let cap ← checkedAdd s.wp.header.freelistCount 8
  s.walkFreelistPtrmap cap.toNat s.wp.header.freelistTrunk want

def computeWant : Result (WantMap × UInt32) := do
  let roots ← s.schemaRoots
  let want := roots.foldl
    (fun (want : WantMap) root => if 2 ≤ root then want.insert root (.rootPage, 0) else want) ∅
  let maxRoot := roots.foldl (fun m root => if m < root then root else m) 1
  let want ← ((1 : UInt32) :: roots).foldlM
    (fun want root => s.walkBtreePtrmap pathLimit root want) want
  return (← s.freelistPtrmap want, maxRoot)

end PagerState

def findPosition (p : Nat → Result Bool) : (count i : Nat) → Result (Option Nat)
  | 0, _ => .ok none
  | count + 1, i => do
      if ← p i then return some i else findPosition p count (i + 1)

def ownsChain (bt : BtreePage) (bytes : Bytes) (old : UInt32) (usable i : Nat) : Result Bool := do
  match ← bt.cellOverflowOffset i usable with
  | some off => return (← beU32 bytes off) == old
  | none => return false

def PagerState.referenceOffset (s : PagerState) (kind : PtrmapType) (holder old : UInt32)
    (bytes : Bytes) : Result Nat := do
  match kind with
  | .btree =>
      let bt ← BtreePage.parse { number := holder, data := bytes }
      match ← findPosition (fun i => do return (← bt.childPointer i) == old)
        (bt.numCells + 1) 0 with
      | some i => bt.childPointerOffset i
      | none => throw (.corrupt "relocate: child pointer not found")
  | .overflow1 =>
      let bt ← BtreePage.parse { number := holder, data := bytes }
      match ← findPosition (ownsChain bt bytes old s.usableSize) bt.numCells 0 with
      | some i =>
          orPanic "position of an overflow pointer" (← bt.cellOverflowOffset i s.usableSize)
      | none => throw (.corrupt "relocate: overflow holder not found")
  | .overflow2 =>
      if (← beU32 bytes 0) ≠ old then throw (.corrupt "relocate: overflow link mismatch") else
      return 0
  | .rootPage | .freePage => throw (.corrupt "relocate: unexpected page kind")

def fixReference (kind : PtrmapType) (holder old new : UInt32) : PagerM Unit := do
  match kind with
  | .rootPage | .freePage => throw (.corrupt "relocate: unexpected page kind")
  | kind =>
      let bytes ← readPage holder
      let off ← (← get).referenceOffset kind holder old bytes
      stage holder (← put32 bytes off new)

def unstage (number : UInt32) : PagerM Unit :=
  modifyWp fun wp => { wp with overlay := wp.overlay.erase number }

def PagerState.freeSlot (s : PagerState) (free : TreeSet UInt32) (last : UInt32)
    : Option UInt32 :=
  free.toList.find? fun f => f < last && !isPtrmapPage s.usableSize f && !s.isLockPage f

/-- Shrink the file from its end: drop trailing pointer-map and free pages, move live pages
into lower free slots. Returns the last page that stays and the pages still free. `limit`
bounds the pages removed, 0 meaning no bound.
-/
def relocateTail (want : WantMap) (limit start : Nat)
    : (last : Nat) → TreeSet UInt32 → TreeMap UInt32 UInt32 → PagerM (Nat × TreeSet UInt32)
  | 0, free, _ => return (0, free)
  | 1, free, _ => return (1, free)
  | last + 2, free, moved => do
      let s ← get
      let pg := UInt32.ofNat (last + 2)
      if limit ≠ 0 ∧ limit ≤ start - (last + 2) then return (last + 2, free) else
      if isPtrmapPage s.usableSize pg then
        unstage pg
        relocateTail want limit start (last + 1) free moved else
      if s.isLockPage pg then return (last + 2, free) else
      if free.contains pg then
        unstage pg
        relocateTail want limit start (last + 1) (free.erase pg) moved else
      match s.freeSlot free pg with
      | none => return (last + 2, free)
      | some dest =>
          let (kind, parent) ← orCorrupt "relocate: page not in ptrmap" want[pg]?
          -- Roots stay: their numbers are cached in the in-memory schema.
          if kind = .rootPage then return (last + 2, free) else
          let contents ← readPage pg
          stage dest contents
          unstage pg
          let moved := moved.insert pg dest
          fixReference kind (moved.getD parent parent) pg dest
          relocateTail want limit start (last + 1) (free.erase dest) moved

def autovacuumTruncate (limit : Nat) : PagerM Unit := do
  let s ← get
  let (want, _) ← s.computeWant
  let probe ← s.freelistPtrmap ∅
  let free : TreeSet UInt32 := TreeSet.ofList
    ((probe.toList.filter fun (_, entry) => entry.1 = .freePage).map Prod.fst)
  if free.isEmpty then return () else
  modifyWp fun wp => { wp with
    header := { wp.header with freelistTrunk := 0, freelistCount := 0 } }
  let (last, free) ← relocateTail want limit s.wp.pageCount.toNat s.wp.pageCount.toNat free ∅
  (free.toList.filter fun pg => pg.toNat ≤ last).forM freePage
  modifyWp fun wp => { wp with
    pageCount := .ofNat last
    overlay := wp.overlay.filter fun pg _ => pg.toNat ≤ last }

/-- The commit-time truncation of FULL mode. An error restores the staged state, so that the
commit proceeds with the freed pages in place.
-/
def maybeAutovacuumTruncate : PagerM Unit := fun s =>
  if s.autoVacuum ≠ .full then .ok () s
  else
    match autovacuumTruncate 0 s with
    | .ok _ s' => .ok () s'
    | .error e s' =>
        if e.isReturned then
          .ok () { s' with wp := { s'.wp with
            overlay := s.wp.overlay
            header := s.wp.header
            pageCount := s.wp.pageCount } }
        else .error e s'

def groupByMap (usable : Nat) (want : WantMap)
    : Result (TreeMap UInt32 (List (UInt32 × PtrmapEntry))) :=
  want.toList.foldlM
    (fun (byMap : TreeMap UInt32 (List (UInt32 × PtrmapEntry))) entry => do
      let map ← ptrmapPageno usable entry.1
      return byMap.insert map (byMap.getD map [] ++ [entry]))
    ∅

def putEntry (usable : Nat) (page : Bytes) (entry : UInt32 × PtrmapEntry) : Result Bytes := do
  let off ← ptrmapEntryOffset usable entry.1
  orPanic "slice out of bounds" (patch page off (encodeEntry entry.2.1 entry.2.2))

def PagerState.mapPage (s : PagerState) (mapPg : UInt32) : Result Bytes :=
  if s.hasPage mapPg then s.readPage mapPg else .ok (zeroPage s.wp.pageSize)

def rebuildMapPage (usable : Nat) (mapPg : UInt32) (entries : List (UInt32 × PtrmapEntry))
    : PagerM Unit := do
  let page ← (← get).mapPage mapPg
  let page ← (entries.foldlM (putEntry usable) page : Result Bytes)
  stage mapPg page

def rebuildPtrmap : PagerM Unit := do
  let s ← get
  let usable := s.usableSize
  let (want, maxRoot) ← s.computeWant
  modifyWp fun wp => { wp with header := { wp.header with largestRootPage := maxRoot } }
  let byMap ← groupByMap usable want
  byMap.toList.forM fun (mapPg, entries) => rebuildMapPage usable mapPg entries

end GraphiteSql
