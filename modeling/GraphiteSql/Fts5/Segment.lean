import GraphiteSql.Util.Varint

/-! The FTS5 segment writer: how a sorted stream of terms and postings becomes leaf pages, with
their `%_idx` rows and doclist-index pages.
-/

namespace GraphiteSql.Fts5

open Lib

inductive Fts5Detail where
  | full
  | none
  | columns
deriving DecidableEq, Repr

def dlidxRowid (segid : Int64) (height pgno : Nat) : Int64 :=
  (segid <<< 37) ||| ((1 : Int64) <<< 36) ||| (Int64.ofNat height <<< 31) ||| Int64.ofNat pgno

/-- A doclist gets a doclist index only when it spills onto this many leaves. -/
def minDlidxSize : Nat := 4

def readVarint (buf : Bytes) (pos : Nat) : Option (Nat × Nat) :=
  if pos ≤ buf.length then (Varint.decode (buf.drop pos)).map fun (v, n) => (v, pos + n)
  else none

/-- One document's contribution to a term: its rowid and the token positions per column. A `del`
posting is a delete marker, which may carry new positions as well.
-/
structure Posting where
  rowid : Int64
  cols : List (List UInt32)
  del : Bool
deriving DecidableEq, Repr

def collistFrom (prev : UInt32) : List UInt32 → Bytes
  | [] => []
  | pos :: rest => Varint.encode ((pos - prev).toNat + 2) ++ collistFrom pos rest

def collist (positions : List UInt32) : Bytes :=
  collistFrom 0 positions

/-- The position lists of columns `c`, `c + 1`, …: the empty ones are left out, and all but
column 0 are announced by `0x01` and their number.
-/
def fullContent : (c : Nat) → List (List UInt32) → Bytes
  | _, [] => []
  | c, positions :: rest =>
      if positions = [] then fullContent (c + 1) rest
      else
        (if c ≠ 0 then 0x01 :: Varint.encode c else []) ++ collist positions
          ++ fullContent (c + 1) rest

def presentFrom : (c : Nat) → List (List UInt32) → List UInt32
  | _, [] => []
  | c, positions :: rest =>
      if positions = [] then presentFrom (c + 1) rest
      else UInt32.ofNat c :: presentFrom (c + 1) rest

/-- A size that counts the content twice, with the delete flag in the low bit. -/
def sized (content : Bytes) (del : Bool) : Bytes :=
  Varint.encode (content.length * 2 + del.toNat) ++ content

/-- A posting's position list. With `detail=none` there is none, and only a delete marker leaves
a trace: `0x00`, and a second `0x00` when it carries content.
-/
def poslist (p : Posting) : Fts5Detail → Bytes
  | .full => sized (fullContent 0 p.cols) p.del
  | .columns => sized (collist (presentFrom 0 p.cols)) p.del
  | .none =>
      if p.del then
        if p.cols.any fun c => !c.isEmpty then [0x00, 0x00] else [0x00]
      else []

/-- Whole varints added to the `ret` bytes already taken while at most `nMax` are taken. The
counter is the number of bytes left.
-/
def prefixLoop (buf : Bytes) (nMax : Int) : (fuel ret : Nat) → Nat
  | 0, ret => ret
  | fuel + 1, ret =>
      match Varint.decode (buf.drop ret) with
      | none => ret
      | some (_, i) => if nMax < (ret + i : Nat) then ret else prefixLoop buf nMax fuel (ret + i)

/-- The length of the longest run of whole varints at the start of `buf` that is at most `nMax`
bytes long. The first varint is always in it.
-/
def poslistPrefix (buf : Bytes) (nMax : Int) : Result Nat :=
  let ret : Nat := ((Varint.decode buf).map fun (_, n) => n).getD 1
  if (ret : Int) < nMax then
    if ret ≤ buf.length then .ok (prefixLoop buf nMax buf.length ret)
    else .error (.panic "range start index out of range")
  else .ok ret

def pgidxFrom (prev : Nat) : List Nat → Bytes
  | [] => []
  | off :: rest => Varint.encode (off - prev) ++ pgidxFrom off rest

def pgidx (offsets : List Nat) : Bytes :=
  pgidxFrom 0 offsets

def commonLen : Bytes → Bytes → Nat
  | a :: as, b :: bs => if a = b then commonLen as bs + 1 else 0
  | _, _ => 0

/-- A term's record: the whole key for the first term of a leaf, else the part of it that
differs from the key before.
-/
def keyRecord (prevTermKey : Option Bytes) (key : Bytes) : Bytes :=
  match prevTermKey with
  | none => Varint.encode key.length ++ key
  | some prev =>
      let nCommon := commonLen key prev
      Varint.encode nCommon ++ (Varint.encode (key.length - nCommon) ++ key.drop nCommon)

/-- The shortest prefix of `first` above `prevLast`: cut past the first byte that differs. -/
def separator (prevLast first : Bytes) : Bytes :=
  first.take (min (commonLen prevLast first) (first.length - 1) + 1)

/-- A `%_idx` row. `pgno` is twice the leaf number, plus 1 if it has a doclist index. -/
structure IdxRow where
  segid : Int64
  term : Bytes
  pgno : Nat
deriving DecidableEq, Repr

structure SegWriter where
  pgsz : Nat
  segid : Int64
  detail : Fts5Detail
  leaves : List Bytes
  idx : List IdxRow
  body : Bytes
  termOffsets : List Nat
  firstRowidOff : Nat
  prevTermKey : Option Bytes
  prevRowid : Int64
  leafFirstTerm : Option Bytes
  leafLastTerm : Option Bytes
  prevLeafLastTerm : Option Bytes
  pgno : Nat
  dlidxData : List (Int64 × Bytes)
  spanPages : List (Nat × Int64)
  firstRowidInPage : Bool
  firstRowidInDoclist : Bool
  mergeMode : Bool

namespace SegWriter

variable (w : SegWriter)

def new (pgsz : Nat) (segid : Int64) (detail : Fts5Detail) : SegWriter where
  pgsz := pgsz
  segid := segid
  detail := detail
  leaves := []
  idx := []
  body := []
  termOffsets := []
  firstRowidOff := 0
  prevTermKey := none
  prevRowid := 0
  leafFirstTerm := none
  leafLastTerm := none
  prevLeafLastTerm := none
  pgno := 1
  dlidxData := []
  spanPages := []
  firstRowidInPage := true
  firstRowidInDoclist := true
  mergeMode := false

def finishLeaf : Bytes :=
  u16ToBytes (UInt16.ofNat w.firstRowidOff) ++ u16ToBytes (UInt16.ofNat (4 + w.body.length))
    ++ w.body ++ pgidx w.termOffsets

def flushIdx : List IdxRow :=
  match w.leafFirstTerm with
  | none => w.idx
  | some ft =>
      let term := match w.prevLeafLastTerm with
        | some p => separator p ft
        | none => []
      w.idx ++ [{ segid := w.segid, term := term, pgno := w.pgno * 2 }]

def flush : SegWriter :=
  let prevLeafLastTerm := match w.leafLastTerm with
    | some lt => some lt
    | none => w.prevLeafLastTerm
  { w with
    leaves := w.leaves ++ [w.finishLeaf], idx := w.flushIdx,
    leafFirstTerm := none, leafLastTerm := none,
    prevLeafLastTerm := prevLeafLastTerm, body := [], termOffsets := [],
    firstRowidOff := 0, prevTermKey := none, prevRowid := 0,
    pgno := w.pgno + 1, firstRowidInPage := true }

def termRecord (key : Bytes) : Bytes :=
  keyRecord w.prevTermKey key

def pgidxLen : Nat :=
  (pgidx w.termOffsets).length

def used : Nat :=
  4 + w.body.length + w.pgidxLen

def extend (bytes : Bytes) : SegWriter :=
  { w with body := w.body ++ bytes }

-- Streaming a doclist

/-- Only the merge writer closes a full leaf before a rowid. -/
def roomForRowid : SegWriter :=
  if w.mergeMode ∧ w.pgsz ≤ w.used then w.flush else w

/-- A leaf's first rowid is recorded in its header, and in the term's span off its first leaf. -/
def markFirstRowid (rowid : Int64) (termStartLeaf : Nat) : SegWriter :=
  if w.firstRowidInPage then
    let spanPages :=
      if w.pgno ≠ termStartLeaf then w.spanPages ++ [(w.pgno, rowid)] else w.spanPages
    { w with firstRowidOff := 4 + w.body.length, spanPages := spanPages }
  else w

/-- A rowid as stored: absolute at the start of a doclist or leaf, else a delta. -/
def rowidField (rowid : Int64) : Bytes :=
  if w.firstRowidInDoclist ∨ w.firstRowidInPage then Varint.encodeI64 rowid
  else Varint.encodeI64 (rowid - w.prevRowid)

def appendRowid (rowid : Int64) (termStartLeaf : Nat) : SegWriter :=
  let w := w.roomForRowid.markFirstRowid rowid termStartLeaf
  { w.extend (w.rowidField rowid) with
    prevRowid := rowid, firstRowidInDoclist := false, firstRowidInPage := false }

def reach (a : Bytes) (nReq : Int) : (fuel nC : Nat) → Nat
  | 0, nC => nC
  | fuel + 1, nC =>
      if ↑nC < nReq then
        match Varint.decode (a.drop nC) with
        | some (_, len) => reach a nReq fuel (nC + len)
        | none => nC
      else nC

/-- The merge writer's loop: while the rest would fill the page, copy whole varints up to the
page limit and close the leaf.
-/
def mergeData : (fuel : Nat) → SegWriter → Bytes → Result SegWriter
  | 0, _, _ => .error .diverge
  | fuel + 1, w, a =>
      if w.pgsz ≤ w.used + a.length then
        let nReq : Int := w.pgsz - w.used
        let nC := min (reach a nReq a.length 0) a.length
        mergeData fuel (w.extend (a.take nC)).flush (a.drop nC)
      else .ok (w.extend a)

def flushIfFull : SegWriter :=
  if w.pgsz ≤ w.used then w.flush else w

def bulkCount (rest : Bytes) : Result Nat :=
  let nSpace : Int := w.pgsz - w.used
  if ↑rest.length ≤ nSpace then .ok rest.length else poslistPrefix rest nSpace

def bulkData : (fuel : Nat) → SegWriter → Bytes → Result SegWriter
  | 0, _, _ => .error .diverge
  | fuel + 1, w, rest => do
      let n ← w.bulkCount rest
      if rest.length < n then throw (.panic "range end index out of range")
      else
        let w := (w.extend (rest.take n)).flushIfFull
        if rest.drop n = [] then pure w else bulkData fuel w (rest.drop n)

/-- Append position-list bytes, broken between varints where a leaf is full. A round of the
merge loop copies a byte or closes a full leaf, one of the bulk loop copies a byte.
-/
def appendPoslistData (data : Bytes) : Result SegWriter :=
  if w.mergeMode then mergeData (2 * data.length + 2) w data
  else if w.used + data.length ≤ w.pgsz then .ok (w.extend data)
  else bulkData (data.length + 1) w data

/-- Append one position list. The merge writer puts the size on the current leaf in any case. -/
def appendPoslist (pl : Bytes) : Result SegWriter :=
  if w.mergeMode then
    let sizeLen := ((Varint.decode pl).map fun (_, n) => n).getD pl.length
    let w := w.extend (pl.take sizeLen)
    if sizeLen < pl.length then w.appendPoslistData (pl.drop sizeLen) else .ok w
  else w.appendPoslistData pl

def appendPosting (termStartLeaf : Nat) (w : SegWriter) (p : Posting) : Result SegWriter :=
  (w.appendRowid p.rowid termStartLeaf).appendPoslist (poslist p w.detail)

-- Doclist indexes

structure DlidxLvl where
  buf : Bytes
  pgno : Nat
  prev : Int64
  prevValid : Bool
deriving DecidableEq, Repr

def newLvl (pgno : Nat) : DlidxLvl :=
  { buf := [], pgno := pgno, prev := 0, prevValid := false }

def dlidxFirstRowid (page : Bytes) : Int64 :=
  match readVarint page 1 with
  | none => 0
  | some (_, pos) => Varint.toI64 (((readVarint page pos).map fun (v, _) => v).getD 0)

/-- A doclist index under construction: its levels, and the closed pages with their height and
number.
-/
structure Dlidx where
  lvls : List DlidxLvl
  out : List (Nat × Nat × Bytes)
deriving DecidableEq, Repr

def Dlidx.closePage (d : Dlidx) (i : Nat) (lvl : DlidxLvl) : Dlidx :=
  let flushed := lvl.buf.set 0 0x01
  let lvls := if i + 1 < d.lvls.length then d.lvls else d.lvls ++ [newLvl 0]
  let parent := lvls.getD (i + 1) (newLvl 0)
  let first := dlidxFirstRowid flushed
  let buf := 0x00 :: (Varint.encode lvl.pgno ++ Varint.encodeI64 first)
  let parent :=
    if parent.buf = [] then { buf := buf, pgno := lvl.pgno, prev := first, prevValid := true }
    else parent
  let closed := { lvl with buf := [], prevValid := false, pgno := lvl.pgno + 1 }
  { lvls := (lvls.set i closed).set (i + 1) parent, out := d.out ++ [(i, lvl.pgno, flushed)] }

def Dlidx.record (d : Dlidx) (leafPgno : Nat) (rowid : Int64) (i : Nat) (done : Bool) : Dlidx :=
  let lvl := d.lvls.getD i (newLvl 0)
  let refPgno := if i = 0 then leafPgno else (d.lvls.getD (i - 1) (newLvl 0)).pgno
  let entry :=
    if lvl.prevValid then Varint.encodeI64 (rowid - lvl.prev)
    else (!done).toUInt8 :: (Varint.encode refPgno ++ Varint.encodeI64 rowid)
  let lvl := { lvl with buf := lvl.buf ++ entry, prev := rowid, prevValid := true }
  { d with lvls := d.lvls.set i lvl }

/-- Append a rowid from level `i` on, going up as long as the page to append to is full. The
counter bounds the levels.
-/
def Dlidx.append (pgsz leafPgno : Nat) (rowid : Int64) : (fuel i : Nat) → Dlidx → Dlidx
  | 0, _, d => d
  | fuel + 1, i, d =>
      let d := if i < d.lvls.length then d else { d with lvls := d.lvls ++ [newLvl 0] }
      let lvl := d.lvls.getD i (newLvl 0)
      if pgsz ≤ lvl.buf.length then
        append pgsz leafPgno rowid fuel (i + 1)
          ((d.closePage i lvl).record leafPgno rowid i false)
      else d.record leafPgno rowid i true

/-- Record the first rowid of a leaf, after a zero byte for each leaf since `prevLeaf` on which
no rowid starts.
-/
def Dlidx.addLeaf (pgsz : Nat) (state : Dlidx × Nat) (entry : Nat × Int64) : Dlidx × Nat :=
  let (d, prevLeaf) := state
  let (leafPgno, rowid) := entry
  let lvl := d.lvls.getD 0 (newLvl 0)
  let pad := List.replicate (leafPgno - prevLeaf - 1) 0x00
  let d := { d with lvls := d.lvls.set 0 { lvl with buf := lvl.buf ++ pad } }
  (append pgsz leafPgno rowid (d.lvls.length + 1) 0 d, leafPgno)

def openPages (top : Nat) : (i : Nat) → List DlidxLvl → List (Nat × Nat × Bytes)
  | _, [] => []
  | i, lvl :: rest =>
      let flag : UInt8 := if i = top then 0x00 else 0x01
      if lvl.buf = [] then openPages top (i + 1) rest
      else (i, lvl.pgno, lvl.buf.set 0 flag) :: openPages top (i + 1) rest

def topLvl (lvls : List DlidxLvl) : Nat :=
  lvls.length - 1 - (lvls.reverse.findIdx fun lvl => !lvl.buf.isEmpty)

def dlidxPages (pgsz termStartLeaf : Nat) (span : List (Nat × Int64)) : List (Nat × Nat × Bytes) :=
  let start : Dlidx := { lvls := [newLvl termStartLeaf], out := [] }
  let d := (span.foldl (Dlidx.addLeaf pgsz) (start, termStartLeaf)).1
  d.out ++ openPages (topLvl d.lvls) 0 d.lvls

def flagIdx (want : Nat) : List IdxRow → List IdxRow
  | [] => []
  | row :: rest =>
      if row.pgno = want then { row with pgno := row.pgno ||| 1 } :: rest
      else row :: flagIdx want rest

def finishTermDlidx (termStartLeaf : Nat) : SegWriter :=
  let lastLeaf := (w.spanPages.getLast?.map fun (pg, _) => pg).getD 0
  if w.spanPages = [] then w
  else if lastLeaf - termStartLeaf < minDlidxSize then { w with spanPages := [] }
  else
    let pages := (dlidxPages w.pgsz termStartLeaf w.spanPages).map fun (height, pgno, page) =>
      (dlidxRowid w.segid height pgno, page)
    { w with
      spanPages := [], dlidxData := w.dlidxData ++ pages,
      idx := flagIdx (termStartLeaf * 2) w.idx }

def roomForKey (key : Bytes) : SegWriter :=
  if w.pgsz ≤ w.used + key.length + 2 ∧ w.body ≠ [] then w.flush else w

def startKey (key : Bytes) : SegWriter :=
  { w.extend (w.termRecord key) with
    termOffsets := w.termOffsets ++ [4 + w.body.length],
    leafFirstTerm := w.leafFirstTerm <|> some key, leafLastTerm := some key,
    prevTermKey := some key, firstRowidInPage := false, firstRowidInDoclist := true,
    spanPages := [], prevRowid := 0 }

def addKey (key : Bytes) (postings : List Posting) : Result SegWriter := do
  let w := (w.roomForKey key).startKey key
  let termStartLeaf := w.pgno
  let w ← postings.foldlM (appendPosting termStartLeaf) w
  return w.finishTermDlidx termStartLeaf

def finish : List Bytes × List IdxRow × List (Int64 × Bytes) :=
  let w := w.flush
  (w.leaves, w.idx, w.dlidxData)

end SegWriter

end GraphiteSql.Fts5
