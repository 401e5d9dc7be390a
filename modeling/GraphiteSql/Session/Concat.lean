import GraphiteSql.Session.Invert

/-! Concatenating two changesets on their bytes: the changes of each table are collected in a hash
by primary key, where a later change of a row is merged into the earlier one.
-/

namespace GraphiteSql.Session

open Lib

/-- A collected change. The record of an update is its old record followed by its new one. -/
structure ConcatChange where
  op : UInt8
  indirect : UInt8
  record : Bytes
deriving DecidableEq, Repr

structure ConcatTable where
  ncol : Nat
  pkFlags : Bytes
  name : Bytes
  hdr : Bytes
  buckets : List (List ConcatChange)
  nentry : Nat
deriving DecidableEq, Repr

def ConcatTable.new (hdr : TableHdr) : ConcatTable where
  ncol := hdr.ncol
  pkFlags := hdr.pkFlags
  name := hdr.name
  hdr := hdr.raw
  buckets := []
  nentry := 0

/-- Hash a key field: its type byte, then the value without the length of a text or blob. -/
def hashField (h : UInt32) : Bytes → Result UInt32
  | [] => .error (.panic "field[0]")
  | ty :: body =>
      if ty = tInt ∨ ty = tFloat then do
        let bytes ← orPanic "field[1..9]" (slice body 0 8)
        return hashI64 (hashAppend h ty.toUInt32) (.ofNat (beNat bytes))
      else if ty = tText ∨ ty = tBlob then
        match Reader.varint body with
        | .error e _ => .error e
        | .ok nb rest => do
            let bytes ← orPanic "field[pos..pos + nb]" (slice rest 0 nb)
            return hashBlob (hashAppend h ty.toUInt32) bytes
      else .ok (hashAppend h ty.toUInt32)

def hashColumn (pkFlags : Bytes) (i : Nat) (h : UInt32) (field : Bytes) : Result UInt32 :=
  if isPk pkFlags i then hashField h field else .ok h

def hashFields (pkFlags : Bytes) : (ncol i : Nat) → UInt32 → Bytes → Result UInt32
  | 0, _, h, _ => .ok h
  | ncol + 1, i, h, record => do
      let n ← serialLen record
      let h ← hashColumn pkFlags i h (record.take n)
      hashFields pkFlags ncol (i + 1) h (record.drop n)

def pkEqualFields (pkFlags : Bytes) : (ncol i : Nat) → Bytes → Bytes → Result Bool
  | 0, _, _, _ => .ok true
  | ncol + 1, i, a, b => do
      let na ← serialLen a
      let nb ← serialLen b
      if isPk pkFlags i && (na != nb || a.take na != b.take nb) then return false else
      pkEqualFields pkFlags ncol (i + 1) (a.drop na) (b.drop nb)

/-- Merge two records: the right field where it is present, else the left one. -/
def mergeRecord : (ncol : Nat) → (left right : Bytes) → Result Bytes
  | 0, _, _ => .ok []
  | ncol + 1, left, right => do
      let nl ← serialLen left
      let nr ← serialLen right
      let field := if right.head? != some tOmit then right.take nr else left.take nl
      return field ++ (← mergeRecord ncol (left.drop nl) (right.drop nr))

/-- The field to use for a column and what is left of the records: the field of `two` where it is
present, else that of `one`.
-/
def mergeValue (one : Bytes) : Option Bytes → Result (Bytes × Bytes × Option Bytes)
  | none => do
      let n₁ ← serialLen one
      return (one.take n₁, one.drop n₁, none)
  | some two => do
      let n₁ ← serialLen one
      let n₂ ← serialLen two
      let field := if two.head? != some tOmit then two.take n₂ else one.take n₁
      return (field, one.drop n₁, some (two.drop n₂))

def mergeColumns : (ncol : Nat) → (old₁ : Bytes) → (old₂ : Option Bytes) → (new₁ : Bytes)
    → (new₂ : Option Bytes) → Result (List (Bytes × Bytes))
  | 0, _, _, _, _ => .ok []
  | ncol + 1, old₁, old₂, new₁, new₂ => do
      let (old, old₁, old₂) ← mergeValue old₁ old₂
      let (new, new₁, new₂) ← mergeValue new₁ new₂
      return (old, new) :: (← mergeColumns ncol old₁ old₂ new₁ new₂)

/-- The records of a merged update, or nothing when no column outside the key changes. Both
records are written from the same columns.
-/
def mergeUpdate (ncol : Nat) (pkFlags old₁ : Bytes) (old₂ : Option Bytes) (new₁ : Bytes)
    (new₂ : Option Bytes) : Result (Option Bytes) := do
  let columns ← mergeColumns ncol old₁ old₂ new₁ new₂
  let cols := columns.zipIdx
  if cols.any (fun ((o, n), i) => !isPk pkFlags i && o != n) then
    let oldRec := cols.flatMap fun ((o, n), i) => if isPk pkFlags i || o != n then o else [tOmit]
    let newRec := cols.flatMap fun ((o, n), i) => if isPk pkFlags i || o == n then [tOmit] else n
    return some (oldRec ++ newRec)
  else return none

namespace ConcatTable

variable (t : ConcatTable)

def hash (record : Bytes) (nbucket : Nat) : Result Nat := do
  let h ← hashFields t.pkFlags t.ncol 0 0 record
  return (h % UInt32.ofNat nbucket).toNat

def pkEqual (a b : Bytes) : Result Bool :=
  pkEqualFields t.pkFlags t.ncol 0 a b

def place (buckets : List (List ConcatChange)) (c : ConcatChange)
    : Result (List (List ConcatChange)) := do
  let idx ← t.hash c.record buckets.length
  return buckets.modify idx (c :: ·)

def maybeGrow : Result ConcatTable :=
  let n := t.buckets.length
  if n = 0 ∨ n / 2 ≤ t.nentry then do
    let newN := if n = 0 then 256 else n * 2
    let buckets ← t.buckets.flatten.foldlM t.place (List.replicate newN [])
    return { t with buckets }
  else .ok t

def takeExisting (record : Bytes)
    : List ConcatChange → Result (Option ConcatChange × List ConcatChange)
  | [] => .ok (none, [])
  | c :: rest => do
      if ← t.pkEqual c.record record then return (some c, rest) else
      let (found, rest) ← takeExisting record rest
      return (found, c :: rest)

def mergeOps (e : ConcatChange) (op₂ : UInt8) (rec₂ : Bytes)
    : Result (Option (UInt8 × Bytes)) :=
  if e.op = opInsert then do
    let (_, half) ← splitRecord t.ncol rec₂
    let out ← mergeRecord t.ncol e.record (rec₂.drop half)
    return some (opInsert, out)
  else if e.op = opDelete then do
    let out ← mergeUpdate t.ncol t.pkFlags e.record none rec₂ none
    return out.map (opUpdate, ·)
  else if op₂ = opUpdate then do
    let (_, halfE) ← splitRecord t.ncol e.record
    let (_, halfI) ← splitRecord t.ncol rec₂
    let out ← mergeUpdate t.ncol t.pkFlags (rec₂.take halfI) (some (e.record.take halfE))
      (e.record.drop halfE) (some (rec₂.drop halfI))
    return out.map (opUpdate, ·)
  else do
    let (_, half) ← splitRecord t.ncol e.record
    let out ← mergeRecord t.ncol rec₂ (e.record.take half)
    return some (opDelete, out)

/-- Merge a change into the existing one of its row. Pairs that cannot follow each other keep the
existing change, and an insertion with a deletion leaves nothing.
-/
def merge (existing : Option ConcatChange) (op₂ indirect₂ : UInt8) (rec₂ : Bytes)
    : Result (Option ConcatChange) :=
  match existing with
  | none => .ok (some { op := op₂, indirect := indirect₂, record := rec₂ })
  | some e =>
      if e.op = opInsert ∧ op₂ = opInsert ∨ e.op = opUpdate ∧ op₂ = opInsert
          ∨ e.op = opDelete ∧ op₂ = opUpdate ∨ e.op = opDelete ∧ op₂ = opDelete then .ok (some e)
      else if e.op = opInsert ∧ op₂ = opDelete then .ok none
      else do
        let indirect := boolByte (indirect₂ != 0 && e.indirect != 0)
        let merged ← t.mergeOps e op₂ rec₂
        return merged.map fun (op, record) => { op, indirect, record }

def addGrown (op indirect : UInt8) (record : Bytes) : Result ConcatTable := do
  let idx ← t.hash record t.buckets.length
  let (existing, chain) ← t.takeExisting record (t.buckets.getD idx [])
  let nentry := t.nentry - existing.toList.length
  let merged ← t.merge existing op indirect record
  return { t with
    buckets := t.buckets.modify idx fun _ => merged.toList ++ chain
    nentry := nentry + merged.toList.length }

def add (op indirect : UInt8) (record : Bytes) : Result ConcatTable := do
  let t ← t.maybeGrow
  t.addGrown op indirect record

end ConcatTable

/-- The table of a header: one that is there must have its shape, a new one is added. -/
def absorbHeader (tables : List ConcatTable) (hdr : TableHdr)
    : Result (List ConcatTable × Option Nat) :=
  match tables.findIdx? (·.name == hdr.name) with
  | some i =>
      if tables[i]?.map (fun t => (t.ncol, t.pkFlags)) ≠ some (hdr.ncol, hdr.pkFlags) then
        .error (corrupt "incompatible table definition in concat")
      else .ok (tables, some i)
  | none => .ok (tables ++ [.new hdr], some tables.length)

def absorbChange (tables : List ConcatTable) (i : Nat) (t : ConcatTable) (op : UInt8)
    : Reader (List ConcatTable) := do
  let _op ← Reader.u8
  let indirect ← Reader.u8
  let nfields := if op = opUpdate then t.ncol * 2 else t.ncol
  let (_, consumed) ← Reader.onRest (splitRecord nfields)
  let record ← Reader.take consumed
  let t ← (t.add op indirect record : Result ConcatTable)
  return tables.set i t

def absorbStep (tables : List ConcatTable) (cur : Option Nat)
    : Reader (List ConcatTable × Option Nat) := do
  let marker ← Reader.peek
  if marker = 0x54 then
    let hdr ← Reader.tableHdr
    absorbHeader tables hdr else
  if marker = opInsert ∨ marker = opDelete ∨ marker = opUpdate then
    match cur with
    | none => throw (corrupt "change record before any table header")
    | some i =>
        match tables[i]? with
        | none => throw (.panic "tables[ti]")
        | some t => return (← absorbChange tables i t marker, cur) else
  throw (corrupt s!"unexpected marker byte {hexByte marker}")

def absorbLoop : (bound : Nat) → List ConcatTable → (cur : Option Nat) → Reader (List ConcatTable)
  | 0, _, _ => throw .diverge
  | bound + 1, tables, cur => do
      if (← get).isEmpty then return tables else
      let (tables, cur) ← absorbStep tables cur
      absorbLoop bound tables cur

/-- Collect every change of a changeset. Every step consumes a byte. -/
def concatAbsorb (changeset : Bytes) (tables : List ConcatTable) : Result (List ConcatTable) :=
  match absorbLoop (changeset.length + 1) tables none changeset with
  | .ok tables _ => .ok tables
  | .error e _ => .error e

def ConcatTable.output (t : ConcatTable) : Bytes :=
  if t.nentry = 0 then []
  else t.hdr ++ t.buckets.flatten.flatMap fun c => [c.op, c.indirect] ++ c.record

/-- Concatenate two changesets: the effect is that of `a` and then `b`. -/
def concat (a b : Bytes) : Result Bytes := do
  let tables ← concatAbsorb a []
  let tables ← concatAbsorb b tables
  return tables.flatMap ConcatTable.output

end GraphiteSql.Session
