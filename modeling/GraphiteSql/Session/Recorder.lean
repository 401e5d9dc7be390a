import GraphiteSql.Lib.Buckets
import GraphiteSql.Session.Apply

/-! The recorder of a session as a set of first changes: hashing, growing and the indirect flag
do not show in which rows have a change, and with which operation and old values.
-/

namespace GraphiteSql.Session

open Lib List

theorem bucketOf_lt (pk : List Value) {n : Nat} (hn : 0 < n)
    : bucketOf pk n < n := by
  unfold bucketOf
  rw [UInt32.toNat_mod, UInt32.toNat_ofNat']
  have hhash : (hashPk pk).toNat < 2 ^ 32 := (hashPk pk).toNat_lt
  have hle : n % 2 ^ 32 ≤ n := Nat.mod_le _ _
  by_cases hzero : n % 2 ^ 32 = 0
  · rw [hzero]
    omega
  · exact (Nat.mod_lt _ (Nat.pos_of_ne_zero hzero)).trans_le hle

def Change.core (c : Change) : Change :=
  { c with indirect := false }

@[simp] theorem Change.core_pk (c : Change) : c.core.pk = c.pk := rfl

namespace TableChanges

def recorded (t : TableChanges) : List Change :=
  t.buckets.flatten.map Change.core

/-- Every change is in the bucket of its key, and is counted. -/
structure Hashed (t : TableChanges) : Prop where
  inSlot : Buckets.InSlot Change.pk (bucketOf · t.buckets.length) t.buckets
  counted : t.nentry = t.buckets.flatten.length

theorem map_pk_recorded (t : TableChanges)
    : t.recorded.map (·.pk) = t.buckets.flatten.map (·.pk) := by
  simp [recorded, Function.comp_def]

/-- `t'` has the changes of `t`, hashed anew. -/
structure Regrown (t t' : TableChanges) : Prop where
  hashed : t'.Hashed
  items : t'.buckets.flatten.Perm t.buckets.flatten
  nonempty : 0 < t'.buckets.length
  name : t'.name = t.name
  ncol : t'.ncol = t.ncol
  pkFlags : t'.pkFlags = t.pkFlags

theorem regrown_placeAll {t : TableChanges} (h : t.Hashed) {n : Nat} (hn : 0 < n)
    : Regrown t { t with
      buckets := Buckets.placeAll Change.pk (bucketOf · n) t.buckets.flatten
        (replicate n []) } := by
  have hempty : Buckets.InSlot Change.pk (bucketOf · n) (replicate n []) :=
    Buckets.inSlot_replicate n
  obtain ⟨hin, hperm⟩ := Buckets.placeAll_spec t.buckets.flatten
    (by simpa using fun k => bucketOf_lt k hn) hempty
  have hitems : (Buckets.placeAll Change.pk (bucketOf · n) t.buckets.flatten
      (replicate n [])).flatten.Perm t.buckets.flatten := by
    simpa using hperm
  refine ⟨⟨?_, ?_⟩, hitems, by simpa using hn, rfl, rfl, rfl⟩
  · simpa using hin
  · exact h.counted.trans hitems.length_eq.symm

theorem regrown_maybeGrow {t : TableChanges} (h : t.Hashed)
    : Regrown t t.maybeGrow := by
  unfold maybeGrow
  dsimp only
  split_ifs with hgrow hzero
  · exact regrown_placeAll h (by decide)
  · exact regrown_placeAll h (by omega)
  · exact ⟨h, .refl _, by omega, rfl, rfl, rfl⟩

theorem core_makeDirect (pk : List Value) (changes : List Change)
    : (makeDirect pk changes).map Change.core = changes.map Change.core := by
  induction changes with
  | nil => rfl
  | cons c rest ih =>
    unfold makeDirect
    split_ifs
    · rfl
    · simp only [map_cons, ih]

/-- `t'` has one more change, unless the key had one. -/
structure Recorded (t t' : TableChanges) (op : ChangeOp) (pk old : List Value) : Prop where
  hashed : t'.Hashed
  items : t'.recorded.Perm
    (if pk ∈ t.recorded.map (·.pk) then t.recorded
      else { op, pk, old, indirect := false } :: t.recorded)
  name : t'.name = t.name
  ncol : t'.ncol = t.ncol
  pkFlags : t'.pkFlags = t.pkFlags

theorem record_recorded {t : TableChanges} (h : t.Hashed) (op : ChangeOp) (pk old : List Value)
    (indirect : Bool)
    : Recorded t (t.record op pk old indirect) op pk old := by
  have hgrown := regrown_maybeGrow h
  unfold record
  dsimp only
  generalize t.maybeGrow = g at hgrown
  have hslot : bucketOf pk g.buckets.length < g.buckets.length := bucketOf_lt pk hgrown.nonempty
  have hitems : g.recorded.Perm t.recorded := hgrown.items.map Change.core
  have hfound := hgrown.hashed.inSlot.any_chain (k := pk)
    (p := fun c => pkEq c.pk pk) (fun c => by simp [pkEq])
  rw [← map_pk_recorded, (hitems.map (·.pk)).mem_iff] at hfound
  split_ifs with hmem hindirect
  · exact { hgrown with items := by rwa [if_pos (hfound.mp hmem)] }
  · have hcore : (makeDirect pk (g.buckets.getD (bucketOf pk g.buckets.length) [])).map Change.core
        = (g.buckets.getD (bucketOf pk g.buckets.length) []).map Change.core := core_makeDirect _ _
    have hsame := Buckets.map_flatten_modify g.buckets hslot hcore
    refine ⟨⟨?_, ?_⟩, ?_, hgrown.name, hgrown.ncol, hgrown.pkFlags⟩
    · rw [length_modify]
      refine hgrown.hashed.inSlot.modify hslot fun c hc => .inr ?_
      have hpk : c.pk ∈ (g.buckets.getD (bucketOf pk g.buckets.length) []).map (·.pk) := by
        have hmap := congrArg (map (·.pk)) hcore
        simp only [map_map, Function.comp_def, Change.core_pk] at hmap
        exact hmap ▸ mem_map_of_mem hc
      obtain ⟨d, hd, hdpk⟩ := mem_map.mp hpk
      exact hdpk ▸ hgrown.hashed.inSlot _ d hd
    · have hlen := congrArg length hsame
      simp only [length_map] at hlen
      exact hgrown.hashed.counted.trans hlen.symm
    · rw [if_pos (hfound.mp hmem)]
      exact (List.Perm.of_eq hsame).trans hitems
  · have hperm := Buckets.flatten_modify_cons g.buckets hslot { op, pk, old, indirect }
    refine ⟨⟨?_, ?_⟩, ?_, hgrown.name, hgrown.ncol, hgrown.pkFlags⟩
    · rw [length_modify]
      exact hgrown.hashed.inSlot.modify hslot fun c hc =>
        (mem_cons.mp hc).elim (fun heq => .inr (heq ▸ rfl)) .inl
    · simp [hperm.length_eq, hgrown.hashed.counted]
    · rw [if_neg (fun hin => hmem (hfound.mpr hin))]
      exact (hperm.map Change.core).trans (hitems.cons _)

end TableChanges

end GraphiteSql.Session
