import GraphiteSql.Format.Record
import GraphiteSql.Lib.Bitmap
import GraphiteSql.Pager.Alloc

/-! Whole-file page accounting of `PRAGMA integrity_check`: one bitmap of page references,
filled by the freelist walk and by the walk of every listed b-tree.
-/

namespace GraphiteSql

open Lib Ptrmap

/-- A page source as the accounting sees it. The header is one that was parsed, and the usable
page size is the header's.
-/
structure PageFile where
  page : UInt32 → Result Page
  header : DatabaseHeader
  pageCount : UInt32
  valid : header.Valid

variable (src : PageFile)

def PageFile.usableSize : Nat :=
  src.header.usableSize

def beU32OrZero (buf : Bytes) (off : Nat) : UInt32 :=
  (be32 buf off).getD 0

/-- The result of a call whose `Err` the caller handles; a panic goes on to the caller. -/
def attempt {α : Type} : Result α → Result (Option α)
  | .ok a => .ok (some a)
  | .error (.panic what) => .error (.panic what)
  | .error .diverge => .error .diverge
  | .error _ => .ok none

/-- The accounting's fixed data; its bitmap is part of `Tally`. -/
structure PageAccounting where
  src : PageFile
  nPage : UInt32
  usable : Nat
  autoVacuum : Bool
  freelistTrunk : UInt32
  freelistCount : UInt32
  maxErr : Nat

structure Tally where
  refs : Bytes
  problems : List String
deriving DecidableEq, Repr

abbrev Check := EStateM Error Tally

/-- A header field as page 1 holds it now; the cached header's when page 1 cannot be read. -/
def PageFile.headerWord (off : Nat) (cached : UInt32) : UInt32 :=
  match src.page 1 with
  | .ok p => beU32OrZero p.data off
  | .error _ => cached

def PageFile.freelistTrunk : UInt32 :=
  src.headerWord 32 src.header.freelistTrunk

def PageFile.freelistCount : UInt32 :=
  src.headerWord 36 src.header.freelistCount

def PageFile.autoVacuum : Bool :=
  src.headerWord 52 src.header.largestRootPage != 0

def PageFile.pendingPage : Nat :=
  pendingByte / max src.header.pageSize.toNat 1 + 1

namespace PageAccounting

variable (acct : PageAccounting) (label : String)

def new (src : PageFile) (maxErr : Nat) : PageAccounting where
  src
  nPage := src.pageCount
  usable := src.usableSize
  autoVacuum := src.autoVacuum
  freelistTrunk := src.freelistTrunk
  freelistCount := src.freelistCount
  maxErr

def start : Tally :=
  let refs := List.replicate (acct.nPage.toNat / 8 + 1) 0
  { refs :=
      if acct.src.pendingPage ≤ acct.nPage.toNat then Bitmap.set refs acct.src.pendingPage
      else refs
    problems := [] }

def full : Check Bool :=
  return acct.maxErr ≤ (← get).problems.length

def push (msg : String) : Check Unit := do
  if ← acct.full then return ()
  else modify fun s => { s with problems := s.problems ++ [msg] }

/-- Mark `pg` used; `true` when the caller must not descend into it. -/
def checkRef (pg : UInt32) (label : String) : Check Bool := do
  if pg = 0 ∨ acct.nPage < pg then
    acct.push s!"{label}invalid page number {pg}"
    return true
  else if Bitmap.get (← get).refs pg.toNat then
    acct.push s!"{label}2nd reference to page {pg}"
    return true
  else
    modify fun s => { s with refs := Bitmap.set s.refs pg.toNat }
    return false

def ptrmapGet (key : UInt32) : Result (Option (UInt8 × UInt32)) := do
  if key < 2 ∨ acct.nPage < key then return none else
  let map ← ptrmapPageno acct.usable key
  if key ≤ map then return none else
  let off := (key.toNat - map.toNat - 1) * entrySize
  if acct.usable < off + entrySize then return none else
  match ← attempt (acct.src.page map) with
  | none => return none
  | some page =>
      match slice page.data off entrySize with
      | none => return none
      | some entry =>
          let kind := entry.headD 0
          if kind < 1 ∨ 5 < kind then return none
          else return some (kind, beU32OrZero entry 1)

def checkPtrmap (key : UInt32) (expectedType : PtrmapType)
    (expectedParent : UInt32) (label : String) : Check Unit := do
  match ← acct.ptrmapGet key with
  | none => acct.push s!"{label}Failed to read ptrmap key={key}"
  | some (gotType, gotParent) =>
      if gotType ≠ expectedType.asU8 ∨ gotParent ≠ expectedParent then
        let want := expectedType.asU8
        acct.push s!"{label}Bad ptr map entry key={key} expected=({want},{expectedParent}) got=({gotType},{gotParent})"
      else return ()

/-- `check_ptrmap` as it is called: only under auto-vacuum. -/
def checkEntry (key : UInt32) (expectedType : PtrmapType)
    (expectedParent : UInt32) (label : String) : Check Unit :=
  if acct.autoVacuum then acct.checkPtrmap key expectedType expectedParent label else return ()

-- Page chains

def checkLeaves (data : Bytes)
    : (count i : Nat) → Check Unit
  | 0, _ => return ()
  | count + 1, i => do
      let leaf := beU32OrZero data (8 + i * 4)
      acct.checkEntry leaf .freePage 0 label
      let _ ← acct.checkRef leaf label
      checkLeaves data count (i + 1)

def leafRoom : Result Nat :=
  if acct.usable / 4 < 2 then .error (.panic "attempt to subtract with overflow")
  else .ok (acct.usable / 4 - 2)

def checkTrunk (pageNo : UInt32) (data : Bytes) (n : Int)
    : Check Int := do
  let leaves := (beU32OrZero data 4).toNat
  acct.checkEntry pageNo .freePage 0 label
  if (← acct.leafRoom) < leaves then
    acct.push s!"{label}freelist leaf count too big on page {pageNo}"
    return n - 1
  else
    acct.checkLeaves label data leaves 0
    return n - leaves

/-- What the chain walk does on an overflow page: the next page must point back at it. -/
def checkLink (pageNo : UInt32) (data : Bytes) (n : Int)
    : Check Unit :=
  if 0 < n then acct.checkEntry (beU32OrZero data 0) .overflow2 pageNo label else return ()

def listPage (isFreelist : Bool) (label : String) (pageNo : UInt32)
    (n : Int) (go : UInt32 → Int → Check Int) : Check Int := do
  match ← attempt (acct.src.page pageNo) with
  | none =>
      acct.push s!"{label}failed to get page {pageNo}"
      return n - 1
  | some page =>
      let next := beU32OrZero page.data 0
      if isFreelist then
        let rest ← acct.checkTrunk label pageNo page.data (n - 1)
        go next rest
      else
        acct.checkLink label pageNo page.data (n - 1)
        go next (n - 1)

/-- The loop of `check_list`. Every turn marks a page that was not marked before, so
`n_page + 1` turns are enough.
-/
def listLoop (isFreelist : Bool) (label : String)
    : (turns : Nat) → (pageNo : UInt32) → (n : Int) → Check Int
  | 0, _, _ => throw .diverge
  | turns + 1, pageNo, n => do
      if pageNo = 0 then return n
      else if ← acct.full then return n
      else if ← acct.checkRef pageNo label then return n
      else acct.listPage isFreelist label pageNo n fun next rest =>
        listLoop isFreelist label turns next rest

def reported : Check Nat :=
  return (← get).problems.length

/-- A wrong length is only reported after a traversal without a message. -/
def checkLength (isFreelist : Bool) (expected : UInt32) (label : String)
    (errStart : Nat) (n : Int) : Check Unit := do
  if n ≠ 0 ∧ (← reported) = errStart then
    let what := if isFreelist then "size" else "overflow list length"
    let found := (expected.toNat : Int) - n
    acct.push s!"{label}{what} is {found} but should be {expected}"
  else return ()

def checkList (isFreelist : Bool) (first expected : UInt32) (label : String) : Check Unit := do
  let errStart ← reported
  let n ← acct.listLoop isFreelist label (acct.nPage.toNat + 1) first expected.toNat
  acct.checkLength isFreelist expected label errStart n

def checkFreelist : Check Unit :=
  acct.checkList true acct.freelistTrunk acct.freelistCount "Freelist: "

-- Trees

def cellPayload (bt : BtreePage) (i usable : Nat) : Result (Option Payload) :=
  match bt.pageType with
  | .leafTable => (bt.tableLeafCell i usable).map fun cell => some cell.payload
  | .leafIndex | .interiorIndex => (bt.indexCell i usable).map fun cell => some cell.payload
  | .interiorTable => .ok none

def overflowPages (usable : Nat) (p : Payload) : Result Nat := do
  return (← usizeAdd (p.totalLen - p.localLen) (usable - 5)) / max (usable - 4) 1

def checkPayload (pageNo : UInt32)
    : Option Payload → Check Unit
  | none => return ()
  | some p => do
      if p.overflow = 0 then return ()
      else
        let expected ← overflowPages acct.usable p
        acct.checkEntry p.overflow .overflow1 pageNo s!"{label}: "
        acct.checkList false p.overflow (.ofNat expected) s!"{label}: "

def checkCell (bt : BtreePage) (pageNo : UInt32) (i : Nat) : Check Unit := do
  match ← attempt (cellPayload bt i acct.usable) with
  | none => acct.push s!"{label}: invalid cell {i} on page {pageNo}"
  | some payload => acct.checkPayload label pageNo payload

def checkCells (bt : BtreePage) (pageNo : UInt32)
    : List Nat → Check Bool
  | [] => return false
  | i :: rest => do
      if ← acct.full then return true
      else
        acct.checkCell label bt pageNo i
        checkCells bt pageNo rest

def checkDepth (firstChild : Bool) (depth' depth : Int)
    : Check Unit :=
  if !firstChild ∧ depth' ≠ depth then acct.push s!"{label}: Child page depth differs"
  else return ()

/-- The children of an interior page, each walked by `visit`; their depth, or `none` when the
budget runs out.
-/
def checkChildren (bt : BtreePage) (pageNo : UInt32) (visit : UInt32 → Check Int)
    : List Nat → (depth : Int) → (firstChild : Bool) → Check (Option Int)
  | [], depth, _ => return some depth
  | i :: rest, depth, firstChild => do
      if ← acct.full then return none
      else
        match ← attempt (bt.childPointer i) with
        | none =>
            acct.push s!"{label}: unreadable child pointer on page {pageNo}"
            checkChildren bt pageNo visit rest depth firstChild
        | some child =>
            acct.checkEntry child .btree pageNo s!"{label}: "
            let depth' ← visit child
            acct.checkDepth label firstChild depth' depth
            checkChildren bt pageNo visit rest depth' false

def checkLeaf (bt : BtreePage) (pageNo : UInt32) (isRoot : Bool) : Check Unit :=
  if bt.pageType.isLeaf ∧ !isRoot ∧ bt.numCells = 0 then
    acct.push s!"{label}: empty non-root leaf page {pageNo}"
  else return ()

def walkPage (bt : BtreePage) (pageNo : UInt32)
    (isRoot : Bool) (visit : UInt32 → Check Int) : Check Int := do
  acct.checkLeaf label bt pageNo isRoot
  if ← acct.checkCells label bt pageNo (List.range bt.numCells) then return 0
  else if bt.pageType.isLeaf then return 0
  else
    match ← acct.checkChildren label bt pageNo visit (List.range (bt.numCells + 1)) (-1) true with
    | none => return 0
    | some depth => return depth + 1

def walkNode (pageNo : UInt32) (isRoot : Bool) (visit : UInt32 → Check Int) : Check Int := do
  match ← attempt (acct.src.page pageNo) with
  | none =>
      acct.push s!"{label}: unable to read page {pageNo}"
      return 0
  | some page =>
      match ← attempt (BtreePage.parse page) with
      | none =>
          acct.push s!"{label}: page {pageNo} is not a valid b-tree page"
          return 0
      | some bt => acct.walkPage label bt pageNo isRoot visit

/-- The recursive page walk; the result is the height of the subtree, 0 after an error. Each
level marks a page that was not marked before, so `n_page + 1` levels are enough.
-/
def walk
    : (levels : Nat) → (pageNo : UInt32) → (isRoot : Bool) → Check Int
  | 0, _, _ => throw .diverge
  | levels + 1, pageNo, isRoot => do
      if ← acct.full then return 0
      else if ← acct.checkRef pageNo s!"{label}: " then return 0
      else acct.walkNode label pageNo isRoot fun child => walk levels child false

def checkRootEntry (root : UInt32) (label : String) : Check Unit :=
  if 1 < root then acct.checkEntry root .rootPage 0 s!"{label}: " else return ()

def checkTree (root : UInt32) (label : String) : Check Unit := do
  acct.checkRootEntry root label
  let _ ← acct.walk label (acct.nPage.toNat + 1) root true

def checkTrees : List (UInt32 × String) → Check Unit
  | [] => return ()
  | (root, label) :: rest => do
      acct.checkTree root label
      checkTrees rest

def sweepPage (pg : Nat) (referenced isPtrmap : Bool) : Check Unit :=
  if !referenced ∧ !isPtrmap then
    modify fun s => { s with problems := s.problems ++ [s!"Page {pg}: never used"] }
  else if referenced ∧ isPtrmap then
    modify fun s => { s with problems := s.problems ++ [s!"Page {pg}: pointer map referenced"] }
  else return ()

def sweep : (count pg : Nat) → Check Unit
  | 0, _ => return ()
  | count + 1, pg => do
      if ← acct.full then return ()
      else
        let referenced := Bitmap.get (← get).refs pg
        let isPtrmap := acct.autoVacuum && isPtrmapPage acct.usable (.ofNat pg)
        sweepPage pg referenced isPtrmap
        sweep count (pg + 1)

def checkNeverUsed : Check Unit :=
  acct.sweep acct.nPage.toNat 1

def checkAll (roots : List (UInt32 × String)) : Check Unit := do
  acct.checkFreelist
  acct.checkTrees ((1, "sqlite_schema") :: roots)
  acct.checkNeverUsed

end PageAccounting

def accountingProblems (src : PageFile) (maxErr : Nat) (roots : List (UInt32 × String))
    : Result (List String) :=
  let acct := PageAccounting.new src maxErr
  match acct.checkAll roots acct.start with
  | .ok _ tally => .ok tally.problems
  | .error e _ => .error e

end GraphiteSql
