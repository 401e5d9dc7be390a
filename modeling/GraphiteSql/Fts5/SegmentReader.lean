import GraphiteSql.Fts5.Segment

/-! Reading an FTS5 segment back: leaf pages, the doclists that run over them, and the postings
with their delete markers.
-/

namespace GraphiteSql.Fts5

open Lib

def padCols (cols : List (List UInt32)) (col : Nat) : List (List UInt32) :=
  cols ++ List.replicate (col + 1 - cols.length) []

/-- The position after the last one in column `col`: `delta` past it, or `delta` itself in an
empty column.
-/
def nextPos (positions : List UInt32) (delta : UInt32) : Option UInt32 :=
  match positions.getLast? with
  | none => some delta
  | some last => if last.toNat + delta.toNat < 2 ^ 32 then some (last + delta) else none

/-- The entries of a `detail=full` position list from `p` on: `0x01` and a number switch the
column, any other entry is a position. The counter is the number of bytes left.
-/
def fullEntries (buf : Bytes) (stop : Nat)
    : (fuel p col : Nat) → List (List UInt32) → Option (List (List UInt32))
  | 0, _, _, cols => some cols
  | fuel + 1, p, col, cols =>
      if p < stop then
        if buf.getD p 0 = 0x01 then do
          let (c, p) ← readVarint buf (p + 1)
          fullEntries buf stop fuel p c (padCols cols c)
        else do
          let (raw, p) ← readVarint buf p
          if raw < 2 then none
          else
            let positions := cols.getD col []
            let next ← nextPos positions (UInt32.ofNat (raw - 2))
            fullEntries buf stop fuel p col (cols.set col (positions ++ [next]))
      else some cols

/-- The entries of a `detail=columns` list from `p` on: each marks the column at its distance
from the column `prev` before.
-/
def columnEntries (buf : Bytes) (stop : Nat)
    : (fuel p : Nat) → (prev : UInt32) → List (List UInt32) → Option (List (List UInt32))
  | 0, _, _, cols => some cols
  | fuel + 1, p, prev, cols =>
      if p < stop then do
        let (raw, p) ← readVarint buf p
        if raw < 2 then none
        else
          let col := prev.toNat + (raw - 2)
          if 2 ^ 64 ≤ col then none
          else
            let cols := padCols cols col
            columnEntries buf stop fuel p (UInt32.ofNat col)
              (cols.set col (cols.getD col [] ++ [0]))
      else some cols

/-- A sized list: its entries, read by `entries` up to the end it is given, its delete flag and
the position past it.
-/
def sizedList (buf : Bytes) (pos : Nat)
    (entries : (stop fuel p : Nat) → Option (List (List UInt32)))
    : Option (List (List UInt32) × Bool × Nat) := do
  let (size2, p) ← readVarint buf pos
  let stop := p + size2 / 2
  if buf.length < stop then none
  else
    let cols ← entries stop (size2 / 2) p
    return (cols, size2 % 2 == 1, stop)

/-- A position list at `pos`, with its delete flag and the position past it. With `detail=none`
the columns are unknown, and a marker with content reads like one without.
-/
def decodePoslistKeepdel (buf : Bytes) (pos : Nat)
    : Fts5Detail → Option (List (List UInt32) × Bool × Nat)
  | .none =>
      if buf[pos]? = some 0 then
        if buf[pos + 1]? = some 0 then some ([], true, pos + 2) else some ([], true, pos + 1)
      else some ([], false, pos)
  | .columns => sizedList buf pos fun stop fuel p => columnEntries buf stop fuel p 0 [[]]
  | .full => sizedList buf pos fun stop fuel p => fullEntries buf stop fuel p 0 [[]]

/-- A run of doclist bytes from one leaf. `absStart` tells that it begins with an absolute rowid. -/
structure DoclistRun where
  bytes : Bytes
  absStart : Bool
deriving DecidableEq, Repr

def flattenRuns (runs : List DoclistRun) : Bytes × List Nat :=
  runs.foldl (fun (buf, absAt) run =>
    (buf ++ run.bytes,
      if run.absStart ∧ run.bytes ≠ [] then absAt ++ [buf.length] else absAt)) ([], [])

def doclistEntries (detail : Fts5Detail) (buf : Bytes) (absAt : List Nat)
    : (fuel pos : Nat) → (rowid : Int64) → (first : Bool) → Option (List Posting)
  | 0, _, _, _ => some []
  | fuel + 1, pos, rowid, first =>
      if pos < buf.length then do
        let absolute := first ∨ pos ∈ absAt
        let (d, pos) ← readVarint buf pos
        let rowid := if absolute then Varint.toI64 d else rowid + Varint.toI64 d
        let (cols, del, pos) ← decodePoslistKeepdel buf pos detail
        if buf.length < pos then none
        else
          let rest ← doclistEntries detail buf absAt fuel pos rowid false
          return { rowid := rowid, cols := cols, del := del } :: rest
      else some []

def decodeDoclistKeepdel (runs : List DoclistRun) (detail : Fts5Detail) : Option (List Posting) :=
  let (buf, absAt) := flattenRuns runs
  doclistEntries detail buf absAt buf.length 0 0 true

structure TermRec where
  key : Bytes
  recStart : Nat
  doclistStart : Nat
deriving DecidableEq, Repr

structure LeafView where
  firstRowidOff : Nat
  footerOff : Nat
  terms : List TermRec
deriving DecidableEq, Repr

variable (leaf : Bytes)

def footerOffsets (footerOff : Nat) : (fuel p prev : Nat) → Option (List Nat)
  | 0, _, _ => some []
  | fuel + 1, p, prev =>
      if p < leaf.length then do
        let (d, p) ← readVarint leaf p
        let off := prev + d
        if footerOff ≤ off ∨ off < 4 then none
        else
          let rest ← footerOffsets footerOff fuel p off
          return off :: rest
      else some []

def firstRec (footerOff off : Nat) : Option TermRec := do
  let (keylen, p) ← readVarint leaf off
  if footerOff < p + keylen then none
  else
    let key ← slice leaf p keylen
    return { key := key, recStart := off, doclistStart := p + keylen }

def laterRec (footerOff : Nat) (prevKey : Bytes) (off : Nat) : Option TermRec := do
  let (nCommon, p) ← readVarint leaf off
  let (nNew, p) ← readVarint leaf p
  if footerOff < p + nNew ∨ prevKey.length < nCommon then none
  else
    let suffix ← slice leaf p nNew
    return { key := prevKey.take nCommon ++ suffix, recStart := off, doclistStart := p + nNew }

def laterRecs (footerOff : Nat)
    : (prevKey : Bytes) → List Nat → Option (List TermRec)
  | _, [] => some []
  | prevKey, off :: rest => do
      let head ← laterRec leaf footerOff prevKey off
      let recs ← laterRecs footerOff head.key rest
      return head :: recs

def termRecs (footerOff : Nat) : List Nat → Option (List TermRec)
  | [] => some []
  | off :: rest => do
      let head ← firstRec leaf footerOff off
      let recs ← laterRecs leaf footerOff head.key rest
      return head :: recs

def parseLeaf : Option LeafView := do
  let first ← be16 leaf 0
  let footer ← be16 leaf 2
  let firstRowidOff := first.toNat
  let footerOff := footer.toNat
  if footerOff < 4 ∨ leaf.length < footerOff then none
  else if firstRowidOff ≠ 0 ∧ (firstRowidOff < 4 ∨ footerOff < firstRowidOff) then none
  else
    let offs ← footerOffsets leaf footerOff (leaf.length - footerOff) footerOff 0
    let terms ← termRecs leaf footerOff offs
    return { firstRowidOff := firstRowidOff, footerOff := footerOff, terms := terms }

def between (start stop : Nat) : Option Bytes :=
  if start ≤ stop then slice leaf start (stop - start) else none

def resumedRun (view : LeafView) (boundary : Nat) : Option (List DoclistRun) :=
  if view.firstRowidOff = 0 then some []
  else do
    let bytes ← between leaf view.firstRowidOff boundary
    return [{ bytes := bytes, absStart := true }]

/-- The runs of a spilled doclist on the following leaves, up to the next term record. -/
def spillRuns : List (Bytes × LeafView) → Option (List DoclistRun)
  | [] => some []
  | (leaf, view) :: rest => do
      let nextTerm := view.terms.head?.map TermRec.recStart
      let boundary := nextTerm.getD view.footerOff
      let tailEnd := if view.firstRowidOff = 0 then boundary else view.firstRowidOff
      if tailEnd < 4 ∨ boundary < tailEnd ∨ view.footerOff < boundary then none
      else
        let tail ← between leaf 4 tailEnd
        let carried : DoclistRun := { bytes := tail, absStart := false }
        let resumed ← resumedRun leaf view boundary
        let later ← (if nextTerm.isSome then some [] else spillRuns rest)
        return carried :: resumed ++ later

/-- The runs of a doclist that begins at `startOff` of a leaf. `nextTerm` is the offset of the
next term record on that leaf, `rest` the leaves after it.
-/
def gatherDoclistRuns (view : LeafView) (nextTerm : Option Nat) (startOff : Nat)
    (rest : List (Bytes × LeafView)) : Option (List DoclistRun) := do
  let firstEnd := nextTerm.getD view.footerOff
  if firstEnd < startOff ∨ view.footerOff < firstEnd then none
  else
    let bytes ← between leaf startOff firstEnd
    let later ← (if nextTerm.isSome then some [] else spillRuns rest)
    return { bytes := bytes, absStart := true } :: later

def leafPostings (detail : Fts5Detail) (leaf : Bytes) (view : LeafView)
    (rest : List (Bytes × LeafView)) : List TermRec → Option (List (Bytes × List Posting))
  | [] => some []
  | head :: recs =>
      if head.key = [] then none
      else do
        let nextTerm := recs.head?.map TermRec.recStart
        let runs ← gatherDoclistRuns leaf view nextTerm head.doclistStart rest
        let postings ← decodeDoclistKeepdel runs detail
        let later ← leafPostings detail leaf view rest recs
        return (head.key, postings) :: later

def leavesPostings (detail : Fts5Detail)
    : List (Bytes × LeafView) → Option (List (Bytes × List Posting))
  | [] => some []
  | (leaf, view) :: rest => do
      let here ← leafPostings detail leaf view rest view.terms
      let later ← leavesPostings detail rest
      return here ++ later

def readSegmentPostingsFull (leaves : List Bytes) (detail : Fts5Detail)
    : Option (List (Bytes × List Posting)) := do
  let views ← leaves.mapM parseLeaf
  leavesPostings detail (leaves.zip views)

end GraphiteSql.Fts5
