import GraphiteSql.Pager.WalMoves

/-! What holds of all connections to a database in WAL mode, and that every call keeps it. -/

namespace GraphiteSql

open Lib List WritePager

section Worlds

variable {w : World} {i : Nat} {s t : PagerState}

/-- The connections around connection `i`. -/
theorem World.split (h : w.state i = some s)
    : ∃ before after, w.conns = before ++ s.wp :: after
      ∧ ∀ t, (w.put i t).conns = before ++ t.wp :: after := by
  obtain ⟨wp, hget, rfl⟩ := Option.map_eq_some_iff.mp h
  obtain ⟨hlt, hwp⟩ := List.getElem?_eq_some_iff.mp hget
  refine ⟨w.conns.take i, w.conns.drop (i + 1), ?_, fun t => ?_⟩
  · conv_lhs => rw [← take_append_drop i w.conns, drop_eq_getElem_cons hlt, hwp]
  · exact set_eq_take_append_cons_drop.trans (if_pos hlt)

/-- A call puts the state it ends in, of which all its postconditions hold. -/
theorem World.call_put {α : Type} (x : PagerM α) (h : w.state i = some s)
    : ∃ t, w.call i x = w.put i t
      ∧ ∀ q : PagerState → Prop, Ends x s q → q t := by
  unfold World.call
  rw [h]
  dsimp only
  cases hxs : x s with
  | ok a t => exact ⟨t, rfl, fun q hx => hx.ok hxs⟩
  | error e t => exact ⟨t, rfl, fun q hx => hx.error hxs⟩

theorem World.put_state_self (h : w.state i = some s) : (w.put i t).state i = some t := by
  obtain ⟨wp, hget, rfl⟩ := Option.map_eq_some_iff.mp h
  obtain ⟨hlt, -⟩ := List.getElem?_eq_some_iff.mp hget
  simp [World.state, World.put, hlt]

theorem World.put_state_other {j : Nat} (hne : i ≠ j)
    : (w.put i t).state j = (w.state j).map fun s => { s with vfs := t.vfs } := by
  simp only [World.state, World.put, getElem?_set_ne hne]
  cases w.conns[j]? <;> rfl

theorem World.state_pin {j : Nat} {r : PagerState} (h : w.state j = some r)
    : w.conns[j]?.bind pin = r.wp.pin := by
  obtain ⟨wp, hget, rfl⟩ := Option.map_eq_some_iff.mp h
  rw [hget]
  rfl

end Worlds

/-- Every connection is attached, and the marks of the index are those of the open read
transactions.
-/
structure World.Inv (ps : Nat) (db : Db) (w : World) : Prop where
  tracks : Tracks ps db w.vfs
  attached : ∀ wp ∈ w.conns, Attached ps wp ∧ wp.Guarded
    ∧ (wp.pin ≠ none → LockLevel.shared ≤ wp.held)
  readers : w.vfs.index.readers.Perm (w.conns.flatMap WritePager.marks)

/-- No connection has a transaction, and nothing reads the log. -/
structure World.AtRest (ps : Nat) (db : Db) (w : World) : Prop where
  tracks : Tracks ps db w.vfs
  attached : ∀ wp ∈ w.conns, Attached ps wp
  idle : ∀ wp ∈ w.conns, wp.overlay.isEmpty = true ∧ wp.pin = none
  readers : w.vfs.index.readers = []

section Invariant

variable {ps : Nat} {db db' : Db} {w : World} {i : Nat} {s u : PagerState}

/-- The state that connection `i` is called in, with the marks of the others. -/
theorem World.Inv.calls (h : w.Inv ps db) {before after : List WritePager}
    (hstate : w.state i = some s) (hconns : w.conns = before ++ s.wp :: after)
    : Calls ps db ((before ++ after).flatMap marks) s := by
  obtain ⟨hvfs, hmem⟩ := World.state_mem hstate
  obtain ⟨hattached, hguarded, hlocks⟩ := h.attached s.wp hmem
  refine ⟨by rw [hvfs]; exact h.tracks, hattached, hguarded, hlocks, ?_⟩
  have hreaders := h.readers
  rw [hconns, flatMap_append, flatMap_cons] at hreaders
  rw [hvfs, flatMap_append]
  refine hreaders.trans ?_
  rw [← append_assoc, ← append_assoc]
  exact perm_append_comm.append_right _

/-- The invariant is kept by a call that ends in the state `u`. -/
theorem World.Inv.put (h : w.Inv ps db) {before after : List WritePager}
    (hput : (w.put i u).conns = before ++ u.wp :: after)
    (hafter : Calls ps db' ((before ++ after).flatMap marks) u)
    : (w.put i u).Inv ps db' where
  tracks := hafter.tracks
  attached := by
    intro wp hwp
    rcases World.put_conns hwp with rfl | hold
    · exact ⟨hafter.attached, hafter.guarded, hafter.locksPin⟩
    · exact h.attached wp hold
  readers := by
    have hreaders := hafter.readers
    rw [hput, flatMap_append, flatMap_cons]
    rw [flatMap_append] at hreaders
    refine hreaders.trans ?_
    rw [← append_assoc, ← append_assoc]
    exact perm_append_comm.append_right _

theorem World.Inv.registered (h : w.Inv ps db) (hstate : w.state i = some s) {pin : Pin}
    (hpin : s.wp.pin = some pin) : pin.mark ∈ w.vfs.index.readers := by
  obtain ⟨-, hmem⟩ := World.state_mem hstate
  refine h.readers.mem_iff.mpr (mem_flatMap.mpr ⟨s.wp, hmem, ?_⟩)
  rw [marks_some hpin]
  exact mem_singleton_self _

/-- Idle connections to a database without readers. -/
theorem World.AtRest.inv (h : w.AtRest ps db) : w.Inv ps db where
  tracks := h.tracks
  attached := by
    intro wp hwp
    obtain ⟨hclean, hpin⟩ := h.idle wp hwp
    refine ⟨h.attached wp hwp, fun hdirty => ?_, fun hopen => absurd hpin hopen⟩
    rw [hclean] at hdirty
    cases hdirty
  readers := by
    have hnone : w.conns.flatMap marks = [] :=
      flatMap_eq_nil_iff.mpr fun wp hwp => marks_none (h.idle wp hwp).2
    rw [h.readers, hnone]

end Invariant

end GraphiteSql
