import GraphiteSql.Format.Header

/-! The shared wal-index: the committed frames of the write-ahead log, the backfill mark of the
checkpointer and the marks of pinned readers.
-/

namespace GraphiteSql

open Lib Std

/-- Whether fresh log headers use big-endian checksums; false on little-endian targets. -/
def nativeBigEndian : Bool := false

structure Salt where
  salt1 : UInt32
  salt2 : UInt32
deriving DecidableEq, Repr

def Salt.zero : Salt := { salt1 := 0, salt2 := 0 }

def Salt.toBytes (salt : Salt) : Bytes :=
  u32ToBytes salt.salt1 ++ u32ToBytes salt.salt2

def checksumWord (bigEndian : Bool) (a b c d : UInt8) : UInt32 :=
  if bigEndian then u32OfBytes a b c d else u32OfBytes d c b a

/-- The running checksum, over pairs of words; a tail shorter than a pair is ignored. -/
def checksum (bigEndian : Bool) (s0 s1 : UInt32) : Bytes → UInt32 × UInt32
  | a :: b :: c :: d :: e :: f :: g :: h :: rest =>
      let s0 := s0 + checksumWord bigEndian a b c d + s1
      let s1 := s1 + checksumWord bigEndian e f g h + s0
      checksum bigEndian s0 s1 rest
  | _ => (s0, s1)

/-- One committed frame: the page it rewrites and, on the last frame of a transaction, the
database size in pages after that commit.
-/
structure IndexFrame where
  pageNo : UInt32
  commitDbSize : UInt32
  data : Bytes
deriving DecidableEq, Repr

/-- The process-shared wal-index. Frame numbers are 1-based positions in `log`. -/
structure WalIndex where
  log : List IndexFrame
  mxFrame : Nat
  salt : Salt
  nextOffset : Nat
  cksum : UInt32 × UInt32
  pageSize : Nat
  nBackfill : Nat
  ckptSeq : UInt32
  bigEndCksum : Bool
  generation : UInt64
  readers : List Nat
deriving DecidableEq, Repr

structure WalSnapshot where
  mxFrame : Nat
  generation : UInt64
deriving DecidableEq, Repr

namespace WalIndex

variable (ix : WalIndex)

def new : WalIndex where
  log := []
  mxFrame := 0
  salt := Salt.zero
  nextOffset := 0
  cksum := (0, 0)
  pageSize := 0
  nBackfill := 0
  ckptSeq := 0
  bigEndCksum := nativeBigEndian
  generation := 0
  readers := []

def setNBackfill (n : Nat) : WalIndex :=
  if ix.nBackfill < n then { ix with nBackfill := n } else ix

/-- The next salts of a log restart: salt-1 counts up, salt-2 is remixed. -/
def nextSalt (salt : Salt) : Salt :=
  let s2 := salt.salt2
  let s2 := s2 ^^^ (s2 <<< 13)
  let s2 := s2 ^^^ (s2 >>> 17)
  let s2 := s2 ^^^ (s2 <<< 5)
  { salt1 := salt.salt1 + 1, salt2 := s2 + 0x9E3779B9 }

def restartHdr : WalIndex :=
  { ix with
    ckptSeq := ix.ckptSeq + 1
    salt := nextSalt ix.salt
    log := []
    mxFrame := 0
    nBackfill := 0
    nextOffset := 0
    cksum := (0, 0)
    bigEndCksum := nativeBigEndian
    generation := ix.generation + 1 }

def newestFrames (frames : List IndexFrame) (start : Nat) : TreeMap UInt32 Nat :=
  (frames.zipIdx start).foldl (fun newest (frame, i) => newest.insert frame.pageNo i) ∅

/-- The pages a checkpoint may copy into the main file: for every page touched by a frame
past the backfill mark, its newest such frame, unless that frame lies beyond `mxSafe`.
-/
def backfillPages (mxSafe : Nat) : List (UInt32 × Bytes) :=
  let lo := ix.nBackfill
  let hi := min ix.mxFrame ix.log.length
  if hi ≤ lo then []
  else
    let newest := newestFrames ((ix.log.take hi).drop lo) lo
    (newest.toList.filter fun (_, i) => i + 1 ≤ mxSafe).filterMap fun (pageNo, i) =>
      ix.log[i]?.map fun frame => (pageNo, frame.data)

def writerState : Option (Nat × (UInt32 × UInt32) × Salt × Nat) :=
  if ix.mxFrame = 0 then none
  else some (ix.nextOffset, ix.cksum, ix.salt, ix.pageSize)

def findFrame (pageNo : UInt32) (snapshotMx : Nat) : Option Bytes :=
  ((ix.log.take (min snapshotMx ix.log.length)).reverse.find? fun f => f.pageNo == pageNo).map
    IndexFrame.data

def snapshotDbSize (snapshotMx : Nat) : Option UInt32 :=
  ((ix.log.take (min snapshotMx ix.log.length)).reverse.find? fun f => f.commitDbSize != 0).map
    IndexFrame.commitDbSize

def registerReader (mxFrame : Nat) : WalIndex :=
  { ix with readers := ix.readers ++ [mxFrame] }

/-- `Vec::swap_remove`: the last item takes the place of the removed one. -/
def swapRemove (xs : List Nat) (pos : Nat) : List Nat :=
  match xs.getLast? with
  | some last => (xs.set pos last).dropLast
  | none => xs

def unregisterReader (mxFrame : Nat) : WalIndex :=
  match ix.readers.findIdx? (· == mxFrame) with
  | some pos => { ix with readers := swapRemove ix.readers pos }
  | none => ix

def minReaderMark : Option Nat :=
  ix.readers.min?

def fullDbSize : UInt32 :=
  ((ix.log.reverse.find? fun f => f.commitDbSize != 0).map IndexFrame.commitDbSize).getD 0

def snapshot : WalSnapshot :=
  { mxFrame := ix.mxFrame, generation := ix.generation }

def append (frame : IndexFrame) (salt : Salt) (nextOffset : Nat)
    (cksum : UInt32 × UInt32) (pageSize : Nat) : WalIndex :=
  { ix with
    log := ix.log ++ [frame]
    mxFrame := (ix.log ++ [frame]).length
    salt
    nextOffset
    cksum
    pageSize }

def seed (frames : List IndexFrame) (salt : Salt) (nextOffset : Nat)
    (cksum : UInt32 × UInt32) (pageSize : Nat) (ckptSeq : UInt32) (bigEndCksum : Bool)
    : WalIndex :=
  { ix with
    log := frames
    mxFrame := frames.length
    salt
    nextOffset
    cksum
    pageSize
    nBackfill := 0
    ckptSeq
    bigEndCksum }

end WalIndex

end GraphiteSql
