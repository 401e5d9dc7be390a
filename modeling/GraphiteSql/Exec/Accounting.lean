import GraphiteSql.Exec.Integrity
import Mathlib.Algebra.Order.Floor.Div

/-! What the pages of a database file are for: the freelist, the nodes of the listed trees and
the overflow chains of their cells, read from the file without any bitmap.
-/

namespace GraphiteSql

open Lib Ptrmap PageAccounting

/-- What a page is used for, with the page that refers to it. -/
inductive PageRole where
  | root
  | free
  | overflow1 (holder : UInt32)
  | overflow2 (previous : UInt32)
  | btree (parent : UInt32)
deriving DecidableEq, Repr

namespace PageRole

def kind : PageRole → PtrmapType
  | .root => .rootPage
  | .free => .freePage
  | .overflow1 _ => .overflow1
  | .overflow2 _ => .overflow2
  | .btree _ => .btree

def parent : PageRole → UInt32
  | .root | .free => 0
  | .overflow1 holder => holder
  | .overflow2 previous => previous
  | .btree parent => parent

def isNode : PageRole → Bool
  | .root | .btree _ => true
  | .free | .overflow1 _ | .overflow2 _ => false

end PageRole

structure PageUse where
  page : UInt32
  role : PageRole
deriving DecidableEq, Repr

namespace PageFile

variable (src : PageFile)

def pages : List UInt32 :=
  (List.range' 1 src.pageCount.toNat).map UInt32.ofNat

def lockPages : List UInt32 :=
  src.pages.filter fun pg => pg.toNat = src.pendingPage

def mapPages : List UInt32 :=
  src.pages.filter fun pg => src.autoVacuum && isPtrmapPage src.usableSize pg

def node (pg : UInt32) : Result BtreePage := do
  BtreePage.parse (← src.page pg)

/-- The pointer map has this entry for `pg`. -/
def HasEntry (pg : UInt32) (kind : PtrmapType) (parent : UInt32) : Prop :=
  ∃ map off page, ptrmapPageno src.usableSize pg = .ok map
    ∧ ptrmapEntryOffset src.usableSize pg = .ok off
    ∧ src.page map = .ok page
    ∧ slice page.data off entrySize = some (encodeEntry kind parent)

/-- The smallest page size less the largest reserved space. -/
theorem usable_large : 257 ≤ src.usableSize := by
  have hmin := src.valid.minimum
  have hreserved := src.header.reservedSpace.toNat_lt
  unfold usableSize DatabaseHeader.usableSize
  omega

/-- `uses` are the `n` pages of the overflow chain that starts at `pg`. -/
def Chain : (n : Nat) → PageRole → (pg : UInt32) → List PageUse → Prop
  | 0, _, pg, uses => pg = 0 ∧ uses = []
  | n + 1, role, pg, uses =>
      pg ≠ 0 ∧ ∃ page rest, src.page pg = .ok page ∧ uses = ⟨pg, role⟩ :: rest
        ∧ Chain n (.overflow2 pg) (beU32OrZero page.data 0) rest

/-- The references that a trunk page makes to its leaves; their count must fit the page. -/
def TrunkLeaves (data : Bytes) (uses : List PageUse) : Prop :=
  (beU32OrZero data 4).toNat ≤ src.usableSize / 4 - 2
    ∧ uses = (List.range (beU32OrZero data 4).toNat).map fun i =>
        ⟨beU32OrZero data (8 + i * 4), .free⟩

/-- The freelist of `trunks` trunk pages from `pg` on, and its references. -/
def Freelist : (trunks : Nat) → (pg : UInt32) → List PageUse → Prop
  | 0, pg, uses => pg = 0 ∧ uses = []
  | trunks + 1, pg, uses =>
      pg ≠ 0 ∧ ∃ page leaves rest, src.page pg = .ok page ∧ TrunkLeaves src page.data leaves
        ∧ uses = ⟨pg, .free⟩ :: (leaves ++ rest)
        ∧ Freelist trunks (beU32OrZero page.data 0) rest

section Trees

variable (need : Payload → Option Nat)

def PayloadChain (pg : UInt32) : Option Payload → List PageUse → Prop
  | none, uses => uses = []
  | some p, uses => ∃ n, need p = some n ∧ Chain src n (.overflow1 pg) p.overflow uses

def CellChain (bt : BtreePage) (pg : UInt32) (i : Nat) (uses : List PageUse) : Prop :=
  ∃ payload, cellPayload bt i src.usableSize = .ok payload ∧ src.PayloadChain need pg payload uses

/-- The tree of node `pg` whose leaves are all `height` levels below it, and the references to
its nodes and to the overflow pages of its cells.
-/
def Tree : (height : Nat) → PageRole → (pg : UInt32) → List PageUse → Prop
  | 0, role, pg, uses =>
      ∃ bt cells, src.node pg = .ok bt ∧ bt.pageType.isLeaf = true
        ∧ List.Forall₂ (src.CellChain need bt pg) (List.range bt.numCells) cells
        ∧ uses = ⟨pg, role⟩ :: cells.flatten
  | height + 1, role, pg, uses =>
      ∃ bt cells below, src.node pg = .ok bt ∧ bt.pageType.isLeaf = false
        ∧ List.Forall₂ (src.CellChain need bt pg) (List.range bt.numCells) cells
        ∧ List.Forall₂
            (fun i part => ∃ child, bt.childPointer i = .ok child
              ∧ Tree height (.btree pg) child part)
            (List.range (bt.numCells + 1)) below
        ∧ uses = ⟨pg, role⟩ :: (cells.flatten ++ below.flatten)

end Trees

end PageFile

/-- The pages of the freelist and of each tree. -/
structure Accounting where
  free : List PageUse
  trees : List (List PageUse)

def Accounting.uses (a : Accounting) : List PageUse :=
  a.free ++ a.trees.flatten

/-- `a` accounts for the whole file, given how many overflow pages a payload needs. -/
structure Accounted (src : PageFile) (need : Payload → Option Nat) (roots : List UInt32)
    (a : Accounting) : Prop where
  freelist : ∃ trunks, src.Freelist trunks src.freelistTrunk a.free
  freeCount : a.free.length = src.freelistCount.toNat
  trees : List.Forall₂ (fun root uses => ∃ height, src.Tree need height .root root uses)
    (1 :: roots) a.trees
  /-- Every page has exactly one purpose. -/
  partition : (src.lockPages ++ src.mapPages ++ a.uses.map PageUse.page).Perm src.pages
  entries : src.autoVacuum = true →
    ∀ u ∈ a.uses, u.page ≠ 1 → src.HasEntry u.page u.role.kind u.role.parent

def requiredPages (usable : Nat) (p : Payload) : Nat :=
  (p.totalLen - p.localLen) ⌈/⌉ (usable - 4)

def PageUse.NonEmpty (src : PageFile) (u : PageUse) : Prop :=
  ∀ parent, u.role = .btree parent →
    ∀ bt, src.node u.page = .ok bt → bt.pageType.isLeaf = true → bt.numCells ≠ 0

def NoEmptyLeaf (src : PageFile) (uses : List PageUse) : Prop :=
  ∀ u ∈ uses, u.NonEmpty src

def PageUse.Payloads (src : PageFile) (prop : Payload → Prop) (u : PageUse) : Prop :=
  u.role.isNode = true → ∀ bt, src.node u.page = .ok bt →
    ∀ i ∈ List.range bt.numCells, ∀ p, cellPayload bt i src.usableSize = .ok (some p) → prop p

/-- A payload that does not fit its page names a first overflow page and takes fewer than
`2 ^ 32` pages.
-/
def Linked (usable : Nat) (p : Payload) : Prop :=
  p.localLen < p.totalLen → p.overflow ≠ 0 ∧ requiredPages usable p < 2 ^ 32

/-- How many overflow pages the check asks for: none when the cell's pointer is 0. -/
def followedPages (usable : Nat) (p : Payload) : Option Nat :=
  if p.overflow = 0 then some 0
  else if p.totalLen - p.localLen + (usable - 5) < 2 ^ 64 then
    some (requiredPages usable p % 2 ^ 32)
  else none

end GraphiteSql
