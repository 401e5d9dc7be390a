import GraphiteSql.Error

/-! Pointer-map arithmetic and entry format of auto-vacuum databases. -/

namespace GraphiteSql.Ptrmap

open Lib

inductive PtrmapType where
  | rootPage
  | freePage
  | overflow1
  | overflow2
  | btree
deriving DecidableEq, Repr

def PtrmapType.asU8 : PtrmapType → UInt8
  | .rootPage => 1
  | .freePage => 2
  | .overflow1 => 3
  | .overflow2 => 4
  | .btree => 5

def entrySize : Nat := 5

def entriesPerPage (usable : Nat) : Nat :=
  usable / entrySize

def cycleStart (usable pgno : Nat) : Nat :=
  let cycle := entriesPerPage usable + 1
  (pgno - 2) / cycle * cycle + 2

/-- The pointer-map page that holds the entry of `pgno`; `pgno - 2` must not underflow. -/
def ptrmapPageno (usable : Nat) (pgno : UInt32) : Result UInt32 :=
  if pgno < 2 then .error (.panic "attempt to subtract with overflow")
  else .ok (.ofNat (cycleStart usable pgno.toNat))

def isPtrmapPage (usable : Nat) (pgno : UInt32) : Bool :=
  if pgno < 2 then false else cycleStart usable pgno.toNat == pgno.toNat

def ptrmapEntryOffset (usable : Nat) (pgno : UInt32) : Result Nat := do
  let map ← ptrmapPageno usable pgno
  if pgno.toNat < map.toNat + 1 then throw (.panic "attempt to subtract with overflow") else
  return (pgno.toNat - (map.toNat + 1)) * entrySize

def encodeEntry (kind : PtrmapType) (parent : UInt32) : Bytes :=
  kind.asU8 :: u32ToBytes parent

end GraphiteSql.Ptrmap
