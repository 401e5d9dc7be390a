import GraphiteSql.Format.Header
import GraphiteSql.Util.Varint

/-! Parsing of one b-tree page: its header, its cell pointer array and its cells. -/

namespace GraphiteSql

open Lib

structure Page where
  number : UInt32
  data : Bytes
deriving DecidableEq, Repr

def Page.bodyOffset (p : Page) : Nat :=
  if p.number = 1 then headerLen else 0

inductive PageType where
  | interiorIndex
  | interiorTable
  | leafIndex
  | leafTable
deriving DecidableEq, Repr

namespace PageType

def fromByte (b : UInt8) : Result PageType :=
  match b.toNat with
  | 2 => .ok .interiorIndex
  | 5 => .ok .interiorTable
  | 10 => .ok .leafIndex
  | 13 => .ok .leafTable
  | _ => .error (.corrupt s!"invalid b-tree page type {b}")

def isLeaf : PageType → Bool
  | .leafIndex | .leafTable => true
  | .interiorIndex | .interiorTable => false

def isTable : PageType → Bool
  | .interiorTable | .leafTable => true
  | .interiorIndex | .leafIndex => false

def headerLen (t : PageType) : Nat :=
  if t.isLeaf then 8 else 12

theorem headerLen_ge (t : PageType) : 8 ≤ t.headerLen := by
  cases t <;> decide

end PageType

/-- How a payload is split between the page and its overflow pages: the number of bytes kept
on the page, and whether the rest spills.
-/
def payloadSplit (pageType : PageType) (usable p : Nat) : Nat × Bool :=
  let minLocal := (usable - 12) * 32 / 255 - 23
  let span := max (usable - 4) 1
  let k := minLocal + (p - minLocal) % span
  let spill (maxLocal : Nat) : Nat × Bool :=
    if p ≤ maxLocal then (p, false)
    else if k ≤ maxLocal then (k, true)
    else (minLocal, true)
  match pageType with
  | .leafTable => spill (usable - 35)
  | .leafIndex | .interiorIndex => spill ((usable - 12) * 64 / 255 - 23)
  | .interiorTable => (0, false)

/-- Where a cell's payload lies; `overflow` is 0 when it fits on the page. -/
structure Payload where
  totalLen : Nat
  localOffset : Nat
  localLen : Nat
  overflow : UInt32
deriving DecidableEq, Repr

structure TableLeafCell where
  rowid : Int64
  payload : Payload
deriving DecidableEq, Repr

structure IndexCell where
  leftChild : UInt32
  payload : Payload
deriving DecidableEq, Repr

structure BtreePage where
  page : Page
  pageType : PageType
  bodyOffset : Nat
  numCells : Nat
  rightPointer : UInt32
deriving DecidableEq, Repr

def sliceFrom (data : Bytes) (off : Nat) : Result Bytes :=
  if off ≤ data.length then .ok (data.drop off)
  else .error (.panic "range start index out of range for slice")

def beU32Checked (buf : Bytes) (off : Nat) : Result UInt32 :=
  orCorrupt "4-byte read past end of page" (be32 buf off)

namespace BtreePage

variable (bt : BtreePage)

def parse (page : Page) : Result BtreePage := do
  let body := page.bodyOffset
  let data := page.data
  if data.length < body + 8 then throw (.corrupt "page too small for b-tree header") else
  let pageType ← PageType.fromByte (← byteAt data body)
  if data.length < body + pageType.headerLen then
    throw (.corrupt "page too small for interior header") else
  let numCells ← beU16 data (body + 3)
  let rightPointer ← if pageType.isLeaf then pure 0 else beU32 data (body + 8)
  return { page, pageType, bodyOffset := body, numCells := numCells.toNat, rightPointer }

def data : Bytes :=
  bt.page.data

def cellOffset (i : Nat) : Result Nat := do
  if bt.numCells ≤ i then
    let n := bt.numCells
    throw (.corrupt s!"cell index {i} out of range (num_cells={n})") else
  let ptr := bt.bodyOffset + bt.pageType.headerLen + 2 * i
  if bt.data.length < ptr + 2 then throw (.corrupt "cell pointer past end of page") else
  let off ← beU16 bt.data ptr
  if bt.data.length ≤ off.toNat then throw (.corrupt "cell offset past end of page") else
  return off.toNat

/-- The child to descend to at position `i`: the left child of cell `i`, or the right-most
pointer past the last cell.
-/
def childPointer (i : Nat) : Result UInt32 := do
  if bt.pageType.isLeaf then throw (.corrupt "child pointer requested on a leaf page") else
  if bt.numCells ≤ i then return bt.rightPointer else
  beU32Checked bt.data (← bt.cellOffset i)

def tableInteriorKey (i : Nat) : Result Int64 := do
  if bt.pageType ≠ .interiorTable then
    throw (.corrupt "interior-table key on non-interior page") else
  let off ← bt.cellOffset i
  if bt.data.length < off + 4 then throw (.corrupt "interior cell past end of page") else
  let (rowid, _) ← orCorrupt "truncated interior cell rowid"
    (Varint.decodeI64 (bt.data.drop (off + 4)))
  return rowid

def payloadAt (payloadStart total usable : Nat) : Result Payload := do
  let (localLen, hasOverflow) := payloadSplit bt.pageType usable total
  let localEnd ← usizeAdd payloadStart localLen
  let need ← usizeAdd localEnd (if hasOverflow then 4 else 0)
  if bt.data.length < need then throw (.corrupt "cell payload past end of page") else
  let overflow ← if hasOverflow then beU32 bt.data localEnd else pure 0
  return { totalLen := total, localOffset := payloadStart, localLen, overflow }

def tableLeafCell (i usable : Nat) : Result TableLeafCell := do
  if bt.pageType ≠ .leafTable then
    throw (.corrupt "table-leaf cell on non-table-leaf page") else
  let off ← bt.cellOffset i
  let (plen, n1) ← orCorrupt "truncated leaf payload length"
    (Varint.decode (← sliceFrom bt.data off))
  let rowidStart ← usizeAdd off n1
  let (rowid, n2) ← orCorrupt "truncated leaf rowid"
    (Varint.decodeI64 (← sliceFrom bt.data rowidStart))
  let payload ← bt.payloadAt (← usizeAdd rowidStart n2) plen usable
  return { rowid, payload }

def cellBytes (msg : String) (off len : Nat) : Result Bytes := do
  if bt.data.length < (← usizeAdd off len) then throw (.corrupt msg) else
  orPanic "slice out of bounds" (slice bt.data off len)

def rawTableLeafCell (i usable : Nat) : Result Bytes := do
  if bt.pageType ≠ .leafTable then
    throw (.corrupt "raw table-leaf cell on non-table-leaf page") else
  let off ← bt.cellOffset i
  let (plen, n1) ← orCorrupt "truncated leaf payload length"
    (Varint.decode (← sliceFrom bt.data off))
  let (_, n2) ← orCorrupt "truncated leaf rowid"
    (Varint.decodeI64 (← sliceFrom bt.data (← usizeAdd off n1)))
  let (localLen, hasOverflow) := payloadSplit bt.pageType usable plen
  let len ← usizeAdd (← usizeAdd (← usizeAdd n1 n2) localLen) (if hasOverflow then 4 else 0)
  bt.cellBytes "leaf cell extends past page" off len

/-- The record part of an index cell, from where its payload length stands. -/
def rawRecordAt (usable keyOff : Nat) : Result Bytes := do
  if bt.data.length < keyOff then throw (.corrupt "index cell key past end of page") else
  let (plen, n1) ← orCorrupt "truncated index payload length"
    (Varint.decode (bt.data.drop keyOff))
  let (localLen, hasOverflow) := payloadSplit bt.pageType usable plen
  let len ← usizeAdd (← usizeAdd n1 localLen) (if hasOverflow then 4 else 0)
  bt.cellBytes "index cell extends past page" keyOff len

def rawIndexRecordCell (i usable : Nat) : Result Bytes := do
  if bt.pageType.isTable then throw (.corrupt "index record cell on a table page") else
  let off ← bt.cellOffset i
  let keyOff ← if bt.pageType = .interiorIndex then usizeAdd off 4 else pure off
  bt.rawRecordAt usable keyOff

/-- An index cell with this child, from where its payload length stands. -/
def indexCellAt (usable : Nat) (leftChild : UInt32) (keyOff : Nat)
    : Result IndexCell := do
  if bt.data.length < keyOff then throw (.corrupt "index cell key past end of page") else
  let (plen, n1) ← orCorrupt "truncated index payload length"
    (Varint.decode (bt.data.drop keyOff))
  let payload ← bt.payloadAt (← usizeAdd keyOff n1) plen usable
  return { leftChild, payload }

def indexCell (i usable : Nat) : Result IndexCell := do
  if bt.pageType.isTable then throw (.corrupt "index cell on a table page") else
  let off ← bt.cellOffset i
  let (leftChild, keyOff) ←
    if bt.pageType = .interiorIndex then do
      let child ← beU32Checked bt.data off
      pure (child, ← usizeAdd off 4)
    else pure (0, off)
  bt.indexCellAt usable leftChild keyOff

def childPointerOffset (i : Nat) : Result Nat := do
  if bt.pageType.isLeaf then
    throw (.corrupt "child pointer offset requested on a leaf page") else
  if bt.numCells ≤ i then return bt.bodyOffset + 8 else
  bt.cellOffset i

def cellOverflowOffset (i usable : Nat) : Result (Option Nat) := do
  let locate (payload : Payload) : Option Nat :=
    if payload.overflow = 0 then none else some (payload.localOffset + payload.localLen)
  match bt.pageType with
  | .leafTable => return locate (← bt.tableLeafCell i usable).payload
  | .leafIndex | .interiorIndex => return locate (← bt.indexCell i usable).payload
  | .interiorTable => return none

end BtreePage

end GraphiteSql
