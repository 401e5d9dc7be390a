import GraphiteSql.Btree.Serialize
import GraphiteSql.Pager.Alloc

/-! Splitting an over-full interior page into several, and handing the separators to the
parent. Table and index trees share the shape; they differ in their keys.
-/

namespace GraphiteSql

open Lib

abbrev InteriorPart (κ : Type) := List (UInt32 × κ) × UInt32

/-- A node split bubbling up to the parent: the separator of the reused page, and the new
pages from left to right with theirs. The key of the last one is a placeholder.
-/
structure Split (κ : Type) where
  firstKey : κ
  siblings : List (κ × UInt32)
deriving DecidableEq, Repr

/-- What a level of the insert recursion reports to its caller: the page absorbed the insert,
a leaf overflowed and hands up its cells unwritten, or an interior page split.
-/
inductive Up (cell κ : Type) where
  | fit
  | leafOverfull (cells : List cell)
  | split (s : Split κ)
deriving DecidableEq, Repr

section Packing

variable {κ : Type}

def fitsInterior (size : κ → Nat) (cells : List (UInt32 × κ)) (body usable : Nat) : Bool :=
  (cells.map fun cell => size cell.2).sum ≤ usable - body - 12

def fillGroup (size : κ → Nat) (cap : Nat)
    : (used : Nat) → List (UInt32 × κ) → List (UInt32 × κ) × List (UInt32 × κ)
  | _, [] => ([], [])
  | used, cell :: cells =>
      if used + size cell.2 ≤ cap then
        let (group, rest) := fillGroup size cap (used + size cell.2) cells
        (cell :: group, rest)
      else ([], cell :: cells)

/-- The cells of the next group, whose first one is taken whatever its size, and the cells
after it.
-/
def takeGroup (size : κ → Nat) (cap : Nat)
    : List (UInt32 × κ) → List (UInt32 × κ) × List (UInt32 × κ)
  | [] => ([], [])
  | cell :: cells =>
      let (group, rest) := fillGroup size cap (size cell.2) cells
      (cell :: group, rest)

/-- Where a group with cells after it is cut: the cells it keeps, the cell that is promoted
and the cells for later groups. The cut backs off by one cell when the last part would have
none.
-/
def cutGroup (group : List (UInt32 × κ)) (next : UInt32 × κ) (rest : List (UInt32 × κ))
    : List (UInt32 × κ) × (UInt32 × κ) × List (UInt32 × κ) :=
  if rest.isEmpty ∧ 1 < group.length then (group.dropLast, group.getLastD next, [next])
  else (group, next, rest)

/-- The parts and separators of the cells; the first part lies behind `body` bytes, the
others at the start of their page. Every round takes a cell, so `rounds` of them suffice.
-/
def packParts (size : κ → Nat) (right : UInt32) (usable : Nat)
    : (rounds body : Nat) → List (UInt32 × κ) → List (InteriorPart κ) × List κ
  | 0, _, _ => ([], [])
  | rounds + 1, body, cells =>
      match takeGroup size (usable - (body + 12)) cells with
      | (_, []) => ([(cells, right)], [])
      | (group, next :: rest) =>
          let (part, promoted, rest) := cutGroup group next rest
          let (parts, seps) := packParts size right usable rounds 0 rest
          ((part, promoted.1) :: parts, promoted.2 :: seps)

/-- Partition an over-full interior page into as many parts as are needed for each to fit.
Between two adjacent parts one key is promoted, and its child becomes the right pointer of the
left part.
-/
def packCells (size : κ → Nat) (cells : List (UInt32 × κ)) (right : UInt32) (body usable : Nat)
    : List (InteriorPart κ) × List κ :=
  packParts size right usable (cells.length + 1) body cells

end Packing

def interiorCellLen (key : Int64) : Nat :=
  4 + Varint.len key.toUInt64.toNat

def interiorFits (cells : List InteriorCell) (body usable : Nat) : Bool :=
  fitsInterior (fun key => interiorCellLen key + 2) cells body usable

def packInterior (cells : List InteriorCell) (right : UInt32) (body usable : Nat)
    : List (InteriorPart Int64) × List Int64 :=
  packCells (fun key => interiorCellLen key + 2) cells right body usable

def indexInteriorFits (cells : List InteriorEntry) (body usable : Nat) : Bool :=
  fitsInterior (fun key => 4 + key.2.length + 2) cells body usable

def packIndexInterior (cells : List InteriorEntry) (right : UInt32) (body usable : Nat)
    : List (InteriorPart IdxKey) × List IdxKey :=
  packCells (fun key => 4 + key.2.length + 2) cells right body usable

def splice {α : Type} (xs : List α) (start stop : Nat) (new : List α) : Result (List α) :=
  if start ≤ stop ∧ stop ≤ xs.length then .ok (xs.take start ++ new ++ xs.drop stop)
  else .error (.panic "range end index out of range for slice")

/-- Adopt the split of the child at `p` into the parent's lists. The reused child keeps its
slot and gets a new upper separator; the new pages follow it.
-/
def adoptSplit {κ : Type} (children : List UInt32) (dividers : List κ) (p : Nat) (s : Split κ)
    : Result (List UInt32 × List κ) :=
  match dividers[p]?, s.siblings.getLast? with
  | some _, none => .error (.panic "attempt to subtract with overflow")
  | some oldDiv, some _ => do
      -- the old separator bounds the last new page
      let newDivs := s.firstKey :: s.siblings.dropLast.map Prod.fst ++ [oldDiv]
      let children ← splice children (p + 1) (p + 1) (s.siblings.map Prod.snd)
      let dividers ← splice dividers p (p + 1) newDivs
      return (children, dividers)
  | none, none => .error (.panic "split always has a sibling")
  | none, some last =>
      -- the last new page becomes the right-most child
      .ok (children ++ s.siblings.dropLast.map Prod.snd ++ [last.2],
        dividers ++ s.firstKey :: s.siblings.dropLast.map Prod.fst)

/-- The cells and the right pointer of a root that has grown over a split: the relocated old
root, then the new pages.
-/
def grownRoot {κ : Type} (newLeft : UInt32) (s : Split κ)
    : Result (List (UInt32 × κ) × UInt32) :=
  match s.siblings.getLast? with
  | none => .error (.panic "split always has a sibling")
  | some last => .ok ((newLeft, s.firstKey) :: s.siblings.dropLast.map Prod.swap, last.2)

def interiorCells {κ : Type} (children : List UInt32) (dividers : List κ)
    : Result (List (UInt32 × κ) × UInt32) := do
  if children.length < dividers.length then throw (.panic "index out of bounds") else
  let right ← orPanic "interior always has a right child" children.getLast?
  return (children.zip dividers, right)

abbrev InteriorWriter (κ : Type) :=
  (pageSize usable body : Nat) → List (UInt32 × κ) → UInt32 → Option Bytes → Result Bytes

/-- Write the parts after the first one to fresh pages, each with the separator that follows
it or the placeholder.
-/
def writeSiblings {κ : Type} (serialize : InteriorWriter κ) (placeholder : κ)
    (pageSize usable : Nat) : List (InteriorPart κ) → List κ → PagerM (List (κ × UInt32))
  | [], _ => return []
  | part :: parts, seps => do
      let pg ← allocatePage
      let buf ← serialize pageSize usable 0 part.1 part.2 none
      writePage pg buf
      let siblings ← writeSiblings serialize placeholder pageSize usable parts seps.tail
      return (seps.headD placeholder, pg) :: siblings

/-- Rebuild an interior page from its lists: write it back if it fits, else split it and bubble
the split up.
-/
def finishInteriorWith {cell κ : Type} (size : κ → Nat) (serialize : InteriorWriter κ)
    (placeholder : κ) (pageNo : UInt32) (body pageSize usable : Nat) (children : List UInt32)
    (dividers : List κ) (headerPrefix : Option Bytes) : PagerM (Up cell κ) := do
  let (cells, right) ← interiorCells children dividers
  if fitsInterior size cells body usable then
    writePage pageNo (← serialize pageSize usable body cells right headerPrefix)
    return .fit
  else
    match packCells size cells right body usable with
    | ([part], _) =>
        writePage pageNo (← serialize pageSize usable body part.1 part.2 headerPrefix)
        return .fit
    | (part :: parts, firstKey :: seps) =>
        writePage pageNo (← serialize pageSize usable body part.1 part.2 headerPrefix)
        let siblings ← writeSiblings serialize placeholder pageSize usable parts seps
        return .split { firstKey, siblings }
    | _ => throw (.panic "index out of bounds")

def finishInterior (pageNo : UInt32) (body pageSize usable : Nat) (children : List UInt32)
    (dividers : List Int64) (headerPrefix : Option Bytes) : PagerM (Up LeafCell Int64) :=
  finishInteriorWith (fun key => interiorCellLen key + 2) serializeInterior Int64.maxValue pageNo
    body pageSize usable children dividers headerPrefix

def finishIndexInterior (pageNo : UInt32) (body pageSize usable : Nat) (children : List UInt32)
    (dividers : List IdxKey) (headerPrefix : Option Bytes) : PagerM (Up LeafEntry IdxKey) :=
  finishInteriorWith (fun key => 4 + key.2.length + 2) serializeIndexInterior ([], []) pageNo
    body pageSize usable children dividers headerPrefix

end GraphiteSql
