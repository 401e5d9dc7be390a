import GraphiteSql.Error
import Mathlib.Order.Basic
import Mathlib.Data.Nat.Basic

/-! The files of one database: positioned reads and writes, and the shared lock state. -/

namespace GraphiteSql

open Lib List

inductive LockLevel where
  | unlocked
  | shared
  | reserved
  | pending
  | exclusive
deriving DecidableEq, Repr

def LockLevel.rank : LockLevel → Nat
  | .unlocked => 0
  | .shared => 1
  | .reserved => 2
  | .pending => 3
  | .exclusive => 4

theorem LockLevel.rank_injective : Function.Injective LockLevel.rank := by
  intro a b h
  cases a <;> cases b <;> first | rfl | cases h

instance : LinearOrder LockLevel := LinearOrder.lift' LockLevel.rank LockLevel.rank_injective

/-- The aggregate lock state of a file, shared by every open handle to it. -/
structure LockState where
  shared : Nat
  reserved : Bool
  pending : Bool
  exclusive : Bool
deriving DecidableEq, Repr

def LockState.default : LockState :=
  { shared := 0, reserved := false, pending := false, exclusive := false }

/-- Move a handle from lock level `source` up to `target`. A request at or below the level
already held succeeds without a change.
-/
def LockState.acquire (s : LockState) (source target : LockLevel) : Result LockState :=
  if target ≤ source then .ok s
  else
    match target with
    | .unlocked => .ok s
    | .shared =>
        -- No new readers while a writer is pending or exclusive.
        if s.pending || s.exclusive then .error .busy
        else .ok { s with shared := s.shared + 1 }
    | .reserved =>
        if s.reserved || s.exclusive then .error .busy
        else .ok { s with reserved := true }
    | .pending =>
        if s.pending || s.exclusive then .error .busy
        else .ok { s with pending := true }
    | .exclusive =>
        if s.exclusive then .error .busy
        else
          -- The handle's own shared lock does not block its upgrade.
          let ownShared := if LockLevel.shared ≤ source then 1 else 0
          if ownShared < s.shared then .error .busy
          else .ok { s with pending := true, exclusive := true }

def LockState.hasWriteIntent (s : LockState) : Bool :=
  s.reserved || s.pending || s.exclusive

def LockState.release (s : LockState) (source target : LockLevel) : LockState :=
  let s := if .exclusive ≤ source ∧ target < .exclusive then { s with exclusive := false } else s
  let s := if .pending ≤ source ∧ target < .pending then { s with pending := false } else s
  let s := if .reserved ≤ source ∧ target < .reserved then { s with reserved := false } else s
  if .shared ≤ source ∧ target < .shared then { s with shared := s.shared - 1 } else s

def readExactAt (data : Bytes) (len offset : Nat) : Result Bytes :=
  match slice data offset len with
  | some buf => .ok buf
  | none => .error (.io "read past end of file")

inductive FileId where
  | db
  | journal
  | wal
deriving DecidableEq, Repr

inductive FileOp where
  | writeAllAt (file : FileId) (buf : Bytes) (offset : Nat)
  | truncate (file : FileId) (size : Nat)
  | sync (file : FileId)
deriving DecidableEq, Repr

structure Disk where
  db : Bytes
  journal : Bytes
  wal : Bytes
deriving DecidableEq, Repr

variable (d : Disk)

def Disk.read : FileId → Bytes
  | .db => d.db
  | .journal => d.journal
  | .wal => d.wal

def Disk.replace (file : FileId) (data : Bytes) : Disk :=
  match file with
  | .db => { d with db := data }
  | .journal => { d with journal := data }
  | .wal => { d with wal := data }

/-- The effect of one file operation: writes extend the file with zeros when they must. -/
def Disk.apply : FileOp → Disk
  | .writeAllAt file buf offset => d.replace file (writeAt (d.read file) offset buf 0)
  | .truncate file size => d.replace file (resize (d.read file) size 0)
  | .sync _ => d

def Disk.run (ops : List FileOp) : Disk :=
  ops.foldl Disk.apply d

@[simp]
theorem Disk.run_nil : d.run [] = d := rfl

@[simp]
theorem Disk.run_cons (op : FileOp) (ops : List FileOp)
    : d.run (op :: ops) = (d.apply op).run ops := rfl

theorem Disk.run_append (ops ops' : List FileOp)
    : d.run (ops ++ ops') = (d.run ops).run ops' :=
  foldl_append

def FileOp.file : FileOp → FileId
  | .writeAllAt file _ _ => file
  | .truncate file _ => file
  | .sync file => file

theorem Disk.apply_read {op : FileOp} {file : FileId} (h : op.file ≠ file) (d : Disk)
    : (d.apply op).read file = d.read file := by
  have hreplace : ∀ {other : FileId} (data : Bytes), other ≠ file
      → (d.replace other data).read file = d.read file := by
    intro other data hother
    cases other <;> cases file <;> first | rfl | exact absurd rfl hother
  cases op with
  | writeAllAt other buf offset => exact hreplace _ h
  | truncate other size => exact hreplace _ h
  | sync other => rfl

theorem Disk.run_read {ops : List FileOp} {file : FileId} (h : ∀ op ∈ ops, op.file ≠ file)
    (d : Disk) : (d.run ops).read file = d.read file := by
  induction ops generalizing d with
  | nil => rfl
  | cons head tail ih =>
    rw [Disk.run_cons, ih fun op hop => h op (mem_cons_of_mem _ hop),
      Disk.apply_read (h head mem_cons_self)]

theorem Disk.run_take_keeps (keep : Disk → Prop) {ops : List FileOp}
    (hstep : ∀ op ∈ ops, ∀ d, keep d → keep (d.apply op)) {d : Disk} (hd : keep d) (k : Nat)
    : keep (d.run (ops.take k)) := by
  induction ops generalizing d k with
  | nil =>
    rw [take_nil]
    exact hd
  | cons head tail ih =>
    cases k with
    | zero => exact hd
    | succ k =>
      refine ih (fun op hop => hstep op (mem_cons_of_mem _ hop)) ?_ k
      exact hstep head mem_cons_self d hd

def pieceOps (file : FileId) : (off : Nat) → List Bytes → List FileOp
  | _, [] => []
  | off, piece :: rest => .writeAllAt file piece off :: pieceOps file (off + piece.length) rest

@[simp]
theorem Disk.read_replace_self (file : FileId) (data : Bytes)
    : (d.replace file data).read file = data := by
  cases file <;> rfl

@[simp]
theorem Disk.replace_replace (file : FileId) (data data' : Bytes)
    : (d.replace file data).replace file data' = d.replace file data' := by
  cases file <;> rfl

@[simp]
theorem Disk.replace_read_self (file : FileId) : d.replace file (d.read file) = d := by
  cases file <;> rfl

theorem Disk.run_pieceOps (file : FileId) (off : Nat) (pieces : List Bytes)
    (h : off ≤ (d.read file).length)
    : d.run (pieceOps file off pieces)
      = d.replace file (writeAt (d.read file) off pieces.flatten 0) := by
  induction pieces generalizing d off with
  | nil => simp [pieceOps, writeAt_nil h]
  | cons head tail ih =>
    rw [pieceOps, run_cons, ih]
    · simp [Disk.apply, writeAt_writeAt h]
    · simp only [Disk.apply, read_replace_self, writeAt_length]
      omega

theorem readExactAt_ok {data buf : Bytes} {len offset : Nat}
    : readExactAt data len offset = .ok buf ↔ slice data offset len = some buf := by
  unfold readExactAt
  split <;> simp_all

end GraphiteSql
