import GraphiteSql.Format.Record

/-! Change-tracking sessions: recording row changes, serializing them as a changeset or patchset,
and parsing such a blob.
-/

namespace GraphiteSql

open Lib

/-- `Value: PartialEq`. A NaN differs from itself, and the two zeros are equal. -/
def Value.partialEq : Value → Value → Bool
  | .null, .null => true
  | .integer i, .integer j => i == j
  | .real r, .real s => r.partialCmp s == some .eq
  | .text s, .text t => s == t
  | .blob b, .blob c => b == c
  | _, _ => false

namespace Session

def opInsert : UInt8 := 18
def opUpdate : UInt8 := 23
def opDelete : UInt8 := 9

def tInt : UInt8 := 1
def tFloat : UInt8 := 2
def tText : UInt8 := 3
def tBlob : UInt8 := 4
def tNull : UInt8 := 5

def tOmit : UInt8 := 0

inductive ChangeOp where
  | insert
  | update
  | delete
deriving DecidableEq, Repr

structure Change where
  op : ChangeOp
  pk : List Value
  old : List Value
  indirect : Bool
deriving DecidableEq, Repr

/-- The recorded changes of one table, in hash buckets. `pkFlags` holds 0 for a column outside
the primary key, else its position in it.
-/
structure TableChanges where
  name : Bytes
  ncol : Nat
  pkFlags : Bytes
  buckets : List (List Change)
  nentry : Nat
deriving DecidableEq, Repr

structure SessionState where
  enabled : Bool
  attachAll : Bool
  attached : List Bytes
  indirectMode : Bool
  tables : List TableChanges
deriving DecidableEq, Repr

def hashAppend (h add : UInt32) : UInt32 :=
  (h <<< 3) ^^^ h ^^^ add

def hashI64 (h : UInt32) (u : UInt64) : UInt32 :=
  hashAppend (hashAppend h u.toUInt32) (u >>> 32).toUInt32

def hashBlob (h : UInt32) (bytes : Bytes) : UInt32 :=
  bytes.foldl (fun h b => hashAppend h b.toUInt32) h

def hashPkValue (h : UInt32) : Value → UInt32
  | .null => hashAppend h tNull.toUInt32
  | .integer i => hashI64 (hashAppend h tInt.toUInt32) i.toUInt64
  | .real r => hashI64 (hashAppend h tFloat.toUInt32) r.bits
  | .text s => hashBlob (hashAppend h tText.toUInt32) s
  | .blob b => hashBlob (hashAppend h tBlob.toUInt32) b

def hashPk (pk : List Value) : UInt32 :=
  pk.foldl hashPkValue 0

def bucketOf (pk : List Value) (n : Nat) : Nat :=
  (hashPk pk % UInt32.ofNat n).toNat

/-- Whether two keys are the same row: same storage classes, reals by their bits. -/
def pkEq (a b : List Value) : Bool :=
  a == b

namespace TableChanges

variable (t : TableChanges)

def maybeGrow : TableChanges :=
  let n := t.buckets.length
  if n = 0 ∨ n / 2 ≤ t.nentry then
    let newN := if n = 0 then 256 else n * 2
    let buckets := t.buckets.flatten.foldl
      (fun buckets c => buckets.modify (bucketOf c.pk newN) (c :: ·)) (List.replicate newN [])
    { t with buckets }
  else t

def makeDirect (pk : List Value) : List Change → List Change
  | [] => []
  | c :: rest =>
      if pkEq c.pk pk then { c with indirect := false } :: rest else c :: makeDirect pk rest

/-- Record one row operation. Only the first operation on a row is remembered; a later direct
change makes an indirect one direct.
-/
def record (op : ChangeOp) (pk old : List Value) (indirect : Bool)
    : TableChanges :=
  let t := t.maybeGrow
  let idx := bucketOf pk t.buckets.length
  if (t.buckets.getD idx []).any (fun c => pkEq c.pk pk) then
    if indirect then t else { t with buckets := t.buckets.modify idx (makeDirect pk) }
  else
    { t with
      nentry := t.nentry + 1
      buckets := t.buckets.modify idx ({ op, pk, old, indirect } :: ·) }

def isEmpty : Bool :=
  t.nentry == 0

end TableChanges

def recordIn (name : Bytes) (fresh : TableChanges) (f : TableChanges → TableChanges)
    : List TableChanges → List TableChanges
  | [] => [f fresh]
  | t :: rest => if t.name = name then f t :: rest else t :: recordIn name fresh f rest

/-- The write hook of one row operation on a table with a declared primary key. -/
def SessionState.record (s : SessionState) (table : Bytes) (ncol : Nat) (pkFlags : Bytes)
    (op : ChangeOp) (pk old : List Value) (indirect : Bool) : SessionState :=
  if !s.enabled then s else
  if !s.attachAll && !s.attached.contains table then s else
  if pk.any (· == .null) then s else
  let fresh := { name := table, ncol, pkFlags, buckets := [], nentry := 0 }
  let tables := recordIn table fresh (·.record op pk old (indirect || s.indirectMode)) s.tables
  { s with tables }

-- Serializing

def lowGroups (v : Nat) : List Nat :=
  if v = 0 then [] else v % 128 :: lowGroups (v / 128)

/-- Append a varint. From `2 ^ 56` on, ten bytes are written. -/
def appendVarint (v : Nat) : Bytes :=
  if v ≤ 0x7f then [.ofNat v]
  else if 2 ^ 56 ≤ v then Varint.groups 9 (v / 256) [.ofNat v]
  else
    match lowGroups v with
    | [] => []
    | low :: high => high.reverse.map (fun g => .ofNat (g + 128)) ++ [.ofNat low]

/-- One value: a type byte, then its payload. The length of a text is that of its `str` view. -/
def appendValue : Value → Bytes
  | .null => [tNull]
  | .integer i => tInt :: intBytes i 8
  | .real r => tFloat :: r.toBytes
  | .text s => tText :: appendVarint (asStr s).length ++ s
  | .blob b => tBlob :: appendVarint b.length ++ b

def appendField : Option Value → Bytes
  | some v => appendValue v
  | none => [tOmit]

def isPk (pkFlags : Bytes) (i : Nat) : Bool :=
  pkFlags.getD i 0 != 0

def boolByte (b : Bool) : UInt8 :=
  if b then 1 else 0

def appendDelete (old : List Value) (pkFlags : Bytes) (patchset indirect : Bool) : Bytes :=
  [opDelete, boolByte indirect]
    ++ old.zipIdx.flatMap fun (v, i) => if patchset && !isPk pkFlags i then [] else appendValue v

/-- An update, or nothing when no column changed. A patchset has no old record, and its new one
carries the primary key.
-/
def appendUpdate (old new : List Value) (pkFlags : Bytes) (patchset indirect : Bool)
    : Option Bytes :=
  let cols := (old.zip new).zipIdx
  if cols.any (fun ((o, n), _) => !o.partialEq n) then
    let oldRec := if patchset then [] else cols.flatMap fun ((o, n), i) =>
      appendField (if !o.partialEq n || isPk pkFlags i then some o else none)
    let newRec := cols.flatMap fun ((o, n), i) =>
      appendField (if !o.partialEq n || (patchset && isPk pkFlags i) then some n else none)
    some ([opUpdate, boolByte indirect] ++ oldRec ++ newRec)
  else none

abbrev RowReader := Bytes → List Value → Option (List Value)

/-- The bytes of one change, decided by the recorded operation and whether the row is there. -/
def appendChange (t : TableChanges) (patchset : Bool) (readRow : RowReader) (c : Change)
    : Option Bytes :=
  match c.op, readRow t.name c.pk with
  | .insert, some row => some ([opInsert, boolByte c.indirect] ++ row.flatMap appendValue)
  | .insert, none => none
  | _, some row => appendUpdate c.old row t.pkFlags patchset c.indirect
  | _, none => some (appendDelete c.old t.pkFlags patchset c.indirect)

def tableHeader (t : TableChanges) (patchset : Bool) : Bytes :=
  [if patchset then 0x50 else 0x54] ++ appendVarint t.ncol ++ t.pkFlags ++ t.name ++ [0]

/-- A table whose changes all coalesced away contributes nothing. -/
def serializeTable (patchset : Bool) (readRow : RowReader) (t : TableChanges) : Bytes :=
  if t.isEmpty then []
  else
    let changes := t.buckets.flatten.filterMap (appendChange t patchset readRow)
    if changes.isEmpty then [] else tableHeader t patchset ++ changes.flatten

def serializeImpl (s : SessionState) (patchset : Bool) (readRow : RowReader) : Bytes :=
  s.tables.flatMap (serializeTable patchset readRow)

def serialize (s : SessionState) (readRow : RowReader) : Bytes :=
  serializeImpl s false readRow

-- Parsing

structure ChangeRecord where
  op : ChangeOp
  old : List (Option Value)
  new : List (Option Value)
deriving DecidableEq, Repr

structure TableChangeset where
  name : Bytes
  ncol : Nat
  pkFlags : Bytes
  changes : List ChangeRecord
deriving DecidableEq, Repr

abbrev Reader := EStateM Error Bytes

def corrupt (msg : String) : Error :=
  .corrupt s!"changeset: {msg}"

/-- A byte in hexadecimal, as `{:#x}` prints it. -/
def hexByte (b : UInt8) : String :=
  "0x" ++ String.ofList (Nat.toDigits 16 b.toNat)

namespace Reader

def u8 : Reader UInt8 := do
  match ← get with
  | [] => throw (corrupt "unexpected end of changeset")
  | b :: rest =>
      set rest
      return b

def take (n : Nat) : Reader Bytes := do
  let data ← get
  if data.length < n then throw (corrupt "truncated changeset field") else
  set (data.drop n)
  return data.take n

def varintFrom : (left result : Nat) → Reader Nat
  | 0, result => do return result * 256 + (← u8).toNat
  | left + 1, result => do
      let byte ← u8
      let result := result * 128 + byte.toNat % 128
      if byte.toNat < 128 then return result else varintFrom left result

def varint : Reader Nat :=
  varintFrom 8 0

def lengthPrefixed : Reader Bytes := do
  take (← varint)

def text (bytes : Bytes) : Reader (Option Value) :=
  if !validUtf8 bytes then throw (corrupt "non-UTF-8 text in changeset")
  else return some (.text bytes)

def payload (t : UInt8) : Reader (Option Value) := do
  if t = tOmit then return none else
  if t = tNull then return some .null else
  if t = tInt then return some (.integer (signExtend (← take 8) 8)) else
  if t = tFloat then return some (.real { bits := .ofNat (beNat (← take 8)) }) else
  if t = tText then text (← lengthPrefixed) else
  if t = tBlob then return some (.blob (← lengthPrefixed)) else
  throw (corrupt s!"unknown changeset value type {t}")

def value : Reader (Option Value) := do
  payload (← u8)

def fields (present : List Bool) : Reader (List (Option Value)) :=
  present.mapM fun p => if p then value else return none

def record (ncol : Nat) : Reader (List (Option Value)) :=
  fields (List.replicate ncol true)

def pkOnlyRecord (ncol : Nat) (pkFlags : Bytes) : Reader (List (Option Value)) :=
  fields ((List.range ncol).map (isPk pkFlags))

def untilNul : Bytes → Reader Bytes
  | [] => throw (corrupt "unexpected end of changeset")
  | b :: rest => do
      if b = 0 then
        set rest
        return []
      else return b :: (← untilNul rest)

def header : Reader TableChangeset := do
  let ncol ← varint
  if ncol = 0 then throw (corrupt "table has zero columns") else
  let pkFlags ← (List.replicate ncol ()).mapM fun _ => u8
  let name ← untilNul (← get)
  if !validUtf8 name then throw (corrupt "non-UTF-8 table name") else
  return { name, ncol, pkFlags, changes := [] }

/-- The record of an operation. A patchset's update has no old record: the primary key of the new
one stands in for it.
-/
def change (t : TableChangeset) (patchset : Bool) (op : UInt8) : Reader ChangeRecord := do
  if op = opInsert then return { op := .insert, old := [], new := ← record t.ncol } else
  if op = opDelete then
    if patchset then return { op := .delete, old := ← pkOnlyRecord t.ncol t.pkFlags, new := [] }
    else return { op := .delete, old := ← record t.ncol, new := [] } else
  if patchset then
    let new ← record t.ncol
    let old := new.zipIdx.map fun (f, i) => if isPk t.pkFlags i then f else none
    return { op := .update, old, new }
  else
    let old ← record t.ncol
    return { op := .update, old, new := ← record t.ncol }

end Reader

def splitLast (tables : List TableChangeset) : Option (List TableChangeset × TableChangeset) :=
  tables.getLast?.map fun t => (tables.dropLast, t)

/-- Read one table header or one change record; `patchset` tells how the last header was marked. -/
def parseStep (tables : List TableChangeset) (patchset : Bool)
    : Reader (List TableChangeset × Bool) := do
  let marker ← Reader.u8
  if marker = 0x54 ∨ marker = 0x50 then
    return (tables ++ [← Reader.header], marker == 0x50) else
  if marker = opInsert ∨ marker = opUpdate ∨ marker = opDelete then
    match splitLast tables with
    | none => throw (corrupt "change record before any table header")
    | some (before, t) =>
        let _indirect ← Reader.u8
        let c ← Reader.change t patchset marker
        return (before ++ [{ t with changes := t.changes ++ [c] }], patchset) else
  throw (corrupt s!"unexpected marker byte {hexByte marker}")

def parseLoop : (bound : Nat) → List TableChangeset → (patchset : Bool)
    → Reader (List TableChangeset)
  | 0, _, _ => throw .diverge
  | bound + 1, tables, patchset => do
      if (← get).isEmpty then return tables else
      let (tables, patchset) ← parseStep tables patchset
      parseLoop bound tables patchset

/-- Parse a changeset or patchset. Every step consumes a byte. -/
def parseChangeset (data : Bytes) : Result (List TableChangeset) :=
  match parseLoop (data.length + 1) [] false data with
  | .ok tables _ => .ok tables
  | .error e _ => .error e

end Session

end GraphiteSql
