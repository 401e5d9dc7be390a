import GraphiteSql.Session.RoundTrip
import GraphiteSql.Session.Apply

/-! Inverting a changeset on its bytes, with a length walker of its own in place of the parser. -/

namespace GraphiteSql.Session

open Lib

/-- The type byte of a field that is never written. -/
def tUndefined : UInt8 := 0xff

def serialLen (a : Bytes) : Result Nat :=
  match a with
  | [] => .error (corrupt "truncated record field")
  | e :: body =>
      if e = tOmit ∨ e = tUndefined ∨ e = tNull then .ok 1
      else if e = tInt ∨ e = tFloat then
        if a.length < 9 then .error (corrupt "truncated int/float field") else .ok 9
      else if e = tText ∨ e = tBlob then
        match Reader.varint body with
        | .error err _ => .error err
        | .ok n rest =>
            if rest.length < n then .error (corrupt "truncated text/blob field")
            else .ok (1 + (body.length - rest.length) + n)
      else .error (corrupt s!"unknown changeset value type {e}")

/-- Split the record of `ncol` fields at the start of `a`; also the number of bytes it takes. -/
def splitRecord : (ncol : Nat) → (a : Bytes) → Result (List Bytes × Nat)
  | 0, _ => .ok ([], 0)
  | ncol + 1, a => do
      let n ← serialLen a
      let (fields, off) ← splitRecord ncol (a.drop n)
      return (a.take n :: fields, n + off)

/-- A table header; `raw` is all of it, to be written again as it is. -/
structure TableHdr where
  ncol : Nat
  pkFlags : Bytes
  name : Bytes
  raw : Bytes
deriving DecidableEq, Repr

namespace Reader

def peek : Reader UInt8 := do
  match ← get with
  | [] => throw (corrupt "unexpected end of changeset")
  | b :: _ => return b

/-- A computation on the bytes that are left. -/
def onRest {α : Type} (f : Bytes → Result α) : Reader α := do
  match f (← get) with
  | .ok a => return a
  | .error e => throw e

def tableHdr : Reader TableHdr := do
  let start ← get
  let _marker ← u8
  let ncol ← varint
  if ncol = 0 then throw (corrupt "table has zero columns") else
  let pkFlags ← (List.replicate ncol ()).mapM fun _ => u8
  let name ← untilNul (← get)
  let rest ← get
  return { ncol, pkFlags, name, raw := start.take (start.length - rest.length) }

def splitFields (ncol : Nat) : Reader (List Bytes) := do
  let (fields, consumed) ← onRest (splitRecord ncol)
  let _record ← take consumed
  return fields

end Reader

def invertedOp (op : UInt8) : UInt8 :=
  if op = opInsert then opDelete else opInsert

def invertOld (pkFlags : Bytes) (old new : List Bytes) : Bytes :=
  (old.zip new).zipIdx.flatMap fun ((o, n), i) => if isPk pkFlags i then o else n

def invertNew (pkFlags : Bytes) (old : List Bytes) : Bytes :=
  old.zipIdx.flatMap fun (o, i) => if isPk pkFlags i then [tOmit] else o

/-- One table header or change record: the column count and key flags that hold after it, and
what is written for it.
-/
def invertStep (ncol : Nat) (pkFlags : Bytes) : Reader (Nat × Bytes × Bytes) := do
  let marker ← Reader.peek
  if marker = 0x54 then
    let hdr ← Reader.tableHdr
    return (hdr.ncol, hdr.pkFlags, hdr.raw) else
  if marker = opInsert ∨ marker = opDelete then
    let _op ← Reader.u8
    let indirect ← Reader.u8
    let (_, consumed) ← Reader.onRest (splitRecord ncol)
    let record ← Reader.take consumed
    return (ncol, pkFlags, [invertedOp marker, indirect] ++ record) else
  if marker = opUpdate then
    let _op ← Reader.u8
    let indirect ← Reader.u8
    let old ← Reader.splitFields ncol
    let new ← Reader.splitFields ncol
    return (ncol, pkFlags, [opUpdate, indirect] ++ invertOld pkFlags old new
      ++ invertNew pkFlags old) else
  throw (corrupt s!"unexpected marker byte {hexByte marker}")

def invertLoop : (bound : Nat) → (ncol : Nat) → (pkFlags out : Bytes) → Reader Bytes
  | 0, _, _, _ => throw .diverge
  | bound + 1, ncol, pkFlags, out => do
      if (← get).isEmpty then return out else
      let (ncol, pkFlags, written) ← invertStep ncol pkFlags
      invertLoop bound ncol pkFlags (out ++ written)

/-- Invert a changeset. Every step consumes a byte. -/
def invert (changeset : Bytes) : Result Bytes :=
  match invertLoop (changeset.length + 1) 0 [] [] changeset with
  | .ok out _ => .ok out
  | .error e _ => .error e

end GraphiteSql.Session
