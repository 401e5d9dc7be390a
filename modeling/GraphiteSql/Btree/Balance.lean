import GraphiteSql.Error

/-! Redistributing pooled cells over sibling pages: the page-size arithmetic of a leaf balance. -/

namespace GraphiteSql.Balance

def index {α : Type} (xs : List α) (i : Nat) : Result α :=
  orPanic "index out of bounds" xs[i]?

def assign {α : Type} (xs : List α) (i : Nat) (a : α) : Result (List α) :=
  if i < xs.length then .ok (xs.set i a) else .error (.panic "index out of bounds")

/-- The size of each new page and the number of cells up to its end. Only the first `k` count. -/
structure Pages where
  szNew : List Int
  cntNew : List Nat
  k : Nat
deriving DecidableEq, Repr

section

variable (sz : List Nat) (leafData : Bool)

def cell (i : Nat) : Result Int := do
  let s ← index sz i
  return (s : Int)

def addCell (s : Int) (j : Nat) : Result Int := do
  let c ← cell sz j
  return s + (c + 2)

def sumCells (start stop : Nat) : Result Int :=
  (List.range' start (stop - start)).foldlM (addCell sz) 0

/-- The first cell of the page after one that ends at `c`: without leaf data the cell at `c` is
the divider.
-/
def startAfter (c : Nat) : Nat :=
  if leafData then c else c + 1

def seed : (i start : Nat) → List Nat → Pages → Result Pages
  | _, _, [], p => .ok p
  | i, start, c :: rest, p => do
      let s ← sumCells sz start c
      let szNew ← assign p.szNew i s
      let cntNew ← assign p.cntNew i c
      seed (i + 1) (startAfter leafData c) rest { p with szNew := szNew, cntNew := cntNew }

/-- What page `i + 1` gains or loses when its start moves over the cell at `c`: with leaf data the
cell `s` that page `i` gives up or takes, else the divider next to it.
-/
def neighbour (s : Int) (c : Nat) : Result Int :=
  if leafData then .ok s
  else if c < sz.length then do
    let d ← cell sz c
    return 2 + d
  else .ok 0

def grow (i : Nat) (p : Pages) : Result Pages :=
  if p.k ≤ i + 1 then
    if sz.length + 2 < i + 2 then .error (.panic "assertion failed: k <= cap")
    else do
      let szNew ← assign p.szNew (i + 1) 0
      let cntNew ← assign p.cntNew (i + 1) sz.length
      return { szNew := szNew, cntNew := cntNew, k := i + 2 }
  else .ok p

def pred : Nat → Result Nat
  | 0 => .error (.panic "attempt to subtract with overflow")
  | n + 1 => .ok n

def spill (usableSpace : Int) (i : Nat) : (fuel : Nat) → Pages → Result Pages
  | 0, _ => .error .diverge
  | fuel + 1, p => do
      let size ← index p.szNew i
      if size ≤ usableSpace then return p
      else
        let p ← grow sz i p
        let c ← index p.cntNew i
        let r ← pred c
        let s ← cell sz r
        let szNew ← assign p.szNew i (size - (2 + s))
        let gain ← neighbour sz leafData (2 + s) c
        let right ← index szNew (i + 1)
        let szNew ← assign szNew (i + 1) (right + gain)
        let cntNew ← assign p.cntNew i r
        spill usableSpace i fuel { p with szNew := szNew, cntNew := cntNew }

def fill (usableSpace : Int) (i : Nat) : (fuel : Nat) → Pages → Result Pages
  | 0, _ => .error .diverge
  | fuel + 1, p => do
      let c ← index p.cntNew i
      if sz.length ≤ c then return p
      else
        let s ← cell sz c
        let size ← index p.szNew i
        if usableSpace < size + (2 + s) then return p
        else
          let szNew ← assign p.szNew i (size + (2 + s))
          let cntNew ← assign p.cntNew i (c + 1)
          let loss ← neighbour sz leafData (2 + s) (c + 1)
          let right ← index szNew (i + 1)
          let szNew ← assign szNew (i + 1) (right - loss)
          fill usableSpace i fuel { p with szNew := szNew, cntNew := cntNew }

def close (i : Nat) (p : Pages) : Result Pages := do
  let c ← index p.cntNew i
  return if sz.length ≤ c then { p with k := i + 1 } else p

def pack (usableSpace : Int) : (fuel i : Nat) → Pages → Result Pages
  | 0, _, _ => .error .diverge
  | fuel + 1, i, p =>
      if i < p.k then do
        let p ← spill sz leafData usableSpace i (sz.length + 2) p
        let p ← fill sz leafData usableSpace i (sz.length + 2) p
        let p ← close sz i p
        pack usableSpace fuel (i + 1) p
      else .ok p

/-- Move cells from the end of page `i`, which has the given count, to the page on its right until
the two are balanced. `right` and `left` are their sizes.
-/
def shift (lastPair : Bool) (i : Nat)
    : (count : Nat) → (right left : Int) → List Nat → Result (Int × Int × List Nat)
  | 0, right, left, cntNew => .ok (right, left, cntNew)
  | r + 1, right, left, cntNew => do
      let szR ← cell sz r
      let szD ← cell sz (if leafData then r else r + 1)
      if right ≠ 0 ∧ left - (szR + if lastPair then 0 else 2) < right + szD + 2 then
        return (right, left, cntNew)
      else
        let cntNew ← assign cntNew i r
        shift lastPair i r (right + (szD + 2)) (left - (szR + 2)) cntNew

def rebalance : (i : Nat) → Pages → Result Pages
  | 0, p => .ok p
  | i + 1, p => do
      let right ← index p.szNew (i + 1)
      let left ← index p.szNew i
      let c ← index p.cntNew i
      let (right, left, cntNew) ← shift sz leafData (i + 1 == p.k - 1) i c right left p.cntNew
      let szNew ← assign p.szNew (i + 1) right
      let szNew ← assign szNew i left
      rebalance i { p with szNew := szNew, cntNew := cntNew }

end

/-- The boundaries of the new pages for cells of the given sizes. `cntOld` holds the boundaries of
the old siblings. Page `i` gets the cells from the end of page `i - 1` to before its own end, less
the divider if the pages have no leaf data.
-/
def distribute (sz cntOld : List Nat) (leaf leafData : Bool) (usable : Nat)
    : Result (List Nat) := do
  let usableSpace : Int := (usable + if leaf then 4 else 0 : Nat) - 12
  let start : Pages :=
    { szNew := List.replicate (sz.length + 2) 0, cntNew := List.replicate (sz.length + 2) 0,
      k := cntOld.length }
  let p ← seed sz leafData 0 0 cntOld start
  let p ← pack sz leafData usableSpace (sz.length + 3) 0 p
  let last ← pred p.k
  let p ← rebalance sz leafData last p
  return p.cntNew.take p.k

end GraphiteSql.Balance
