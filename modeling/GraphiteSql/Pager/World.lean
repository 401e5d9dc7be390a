import GraphiteSql.Lib.Script
import GraphiteSql.Pager.Open

/-! Several connections over the files of one database, and scripts of calls on them. -/

namespace GraphiteSql

open Lib List

/-- The files, locks and wal-index that connections share, and the pager of each connection. -/
structure World where
  vfs : Vfs
  conns : List WritePager

def World.state (w : World) (i : Nat) : Option PagerState :=
  w.conns[i]?.map fun wp => { vfs := w.vfs, wp }

def World.put (w : World) (i : Nat) (s : PagerState) : World :=
  { vfs := s.vfs, conns := w.conns.set i s.wp }

/-- One call of connection `i`. An error keeps the changes made before it. -/
def World.call {α : Type} (w : World) (i : Nat) (x : PagerM α) : World :=
  match w.state i with
  | none => w
  | some s =>
      match x s with
      | .ok _ s' => w.put i s'
      | .error _ s' => w.put i s'

theorem World.call_keeps {α : Type} {inv : World → Prop} {w : World} (hw : inv w) {i : Nat}
    {x : PagerM α}
    (hx : ∀ s, w.state i = some s
      → Runs x s (fun _ s' => inv (w.put i s')) (fun _ s' => inv (w.put i s')))
    : inv (w.call i x) := by
  cases hs : w.state i with
  | none =>
    simp only [World.call, hs]
    exact hw
  | some s =>
    have hrun := hx s hs
    cases hxs : x s with
    | ok a s' =>
      simp only [World.call, hs, hxs]
      exact hrun.ok hxs
    | error e s' =>
      simp only [World.call, hs, hxs]
      exact hrun.error hxs

/-- The other connections are left as they are. -/
theorem World.put_conns {w : World} {i : Nat} {s : PagerState} {wp : WritePager}
    (h : wp ∈ (w.put i s).conns) : wp = s.wp ∨ wp ∈ w.conns := by
  rcases mem_or_eq_of_mem_set h with hmem | rfl
  · exact .inr hmem
  · exact .inl rfl

theorem World.state_mem {w : World} {i : Nat} {s : PagerState} (h : w.state i = some s)
    : s.vfs = w.vfs ∧ s.wp ∈ w.conns := by
  obtain ⟨wp, hwp, rfl⟩ := Option.map_eq_some_iff.mp h
  exact ⟨rfl, mem_of_getElem? hwp⟩

inductive PageOp where
  | write (number : UInt32) (bytes : Bytes)
  | allocate
  | free (page : UInt32)
deriving DecidableEq, Repr

def PageOp.run : PageOp → PagerM Unit
  | .write number bytes => writePage number bytes
  | .allocate => do
      let _ ← allocatePage
  | .free page => freePage page

/-- Whole statements: page-writing transactions that end in a commit or a rollback, and the
header-only changes of `PRAGMA user_version` and `PRAGMA application_id`.
-/
inductive Statement where
  | pages (ops : List PageOp) (commits : Bool)
  | userVersion (v : UInt32)
  | applicationId (v : UInt32)
deriving DecidableEq, Repr

namespace Statement

def begin : Statement → PagerM Unit
  | pages _ _ => beginWrite
  | userVersion _ | applicationId _ => pure ()

def change : Statement → PagerM Unit
  | pages ops _ => ops.forM PageOp.run
  | userVersion v => headerMut fun header => { header with userVersion := v }
  | applicationId v => headerMut fun header => { header with applicationId := v }

def commits : Statement → Bool
  | pages _ commits => commits
  | userVersion _ | applicationId _ => true

def run (st : Statement) : PagerM Unit :=
  onError (do
    st.begin
    st.change
    if st.commits then commit else rollback) rollback

end Statement

def World.runStatement (w : World) (c : Nat × Statement) : World :=
  w.call c.1 c.2.run

end GraphiteSql
