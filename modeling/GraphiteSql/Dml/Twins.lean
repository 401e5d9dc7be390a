import GraphiteSql.Dml.Removing
import GraphiteSql.Dml.Replacing

/-! A rowid table with an INTEGER PRIMARY KEY and its WITHOUT ROWID version: the rule gives both the
same rows.
-/

namespace GraphiteSql.Dml

open Lib.Replacement List

variable {m m' : TableMeta} {k : Nat} {t : RowTable}

/-- `m'` is the WITHOUT ROWID version of `m`, whose INTEGER PRIMARY KEY is column `k`. -/
structure Twin (m : TableMeta) (k : Nat) (m' : TableMeta) : Prop where
  ipk : m.ipk = some k
  collation : ∀ i, m'.collation i = m.collation i
  unique : ∀ set, (∃ oc, (set, oc) ∈ m'.unique) ↔ set = [k] ∨ ∃ oc, (set, oc) ∈ m.unique
  standalone : m'.standalone = m.standalone
  inIndex : ∀ idx ∈ m.standalone, ∀ (rowid : Int64) (row : Row),
    row.getD k .null = .integer rowid → idx.inIndex none row = idx.inIndex (some rowid) row
  keyValues : ∀ idx ∈ m.standalone, ∀ (rowid : Int64) (row : Row),
    row.getD k .null = .integer rowid → idx.keyValues 0 row = idx.keyValues rowid row

/-- An UPDATE does the same on both: rows hold their rowids, WHERE and SET do not look at the rowid
otherwise, and every new row passes as it is.
-/
structure SameUpdate (m : TableMeta) (k : Nat) (m' : TableMeta) (u : Update) (t : RowTable)
    : Prop where
  order : u.orderLimit = none
  stored : ∀ x ∈ t.rows, x.2.getD k .null = .integer x.1
  selects : ∀ x ∈ t.rows, u.selects none x.2 = u.selects (some x.1) x.2
  assign : ∀ x ∈ t.rows, u.assign none x.2 = u.assign (some x.1) x.2
  passes : ∀ p ∈ prepare u t,
    WrPasses m' p.new ∧ ∃ rowid, newRow m u p = .ok (some (rowid, p.new))

theorem sameSet_congr (h : ∀ i, m'.collation i = m.collation i) (set : List Nat) (a b : Row)
    : sameSet m' set a b = sameSet m set a b := by
  unfold sameSet
  simp only [h]

theorem setConflict_key {a b : Int64 × Row}
    (ha : a.2.getD k .null = .integer a.1) (hb : b.2.getD k .null = .integer b.1)
    : setConflict m [k] a.2 b.2 = (b.1 == a.1) := by
  unfold setConflict sameSet
  simp only [any_cons, any_nil, all_cons, all_nil, ha, hb, cmpValuesColl,
    cmpValues]
  rw [Bool.eq_iff_iff]
  simp [Int64.toInt_inj]

/-- Rows conflict in the one table exactly if they conflict in the other. -/
theorem wrConflict_twin (h : Twin m k m') {a b : Int64 × Row}
    (ha : a.2.getD k .null = .integer a.1) (hb : b.2.getD k .null = .integer b.1)
    : wrConflict m' a.2 b.2 = rowConflict m a b := by
  have hindex : ∀ idx ∈ m.standalone, idx.wrConflict a.2 b.2 = idx.conflict a b :=
    fun idx hidx => by
      unfold IndexMeta.wrConflict IndexMeta.conflict IndexMeta.keyed
      rw [h.inIndex idx hidx _ _ ha, h.inIndex idx hidx _ _ hb, h.keyValues idx hidx _ _ ha,
        h.keyValues idx hidx _ _ hb]
  have hset : ∀ set, setConflict m' set a.2 b.2 = setConflict m set a.2 b.2 := fun set => by
    unfold setConflict
    rw [sameSet_congr h.collation]
  rw [Bool.eq_iff_iff, rowConflict_iff]
  unfold wrConflict
  rw [Bool.or_eq_true, any_eq_true, any_eq_true, h.standalone]
  constructor
  · intro hconflict
    rcases hconflict with ⟨idx, hidx, hc⟩ | ⟨⟨set, oc⟩, hs, hc⟩
    · exact .inr (.inl ⟨idx, hidx, hindex idx hidx ▸ hc⟩)
    rw [hset] at hc
    rcases (h.unique set).mp ⟨oc, hs⟩ with rfl | ⟨oc', hs'⟩
    · rw [setConflict_key ha hb] at hc
      exact .inl (beq_iff_eq.mp hc)
    · exact .inr (.inr ⟨(set, oc'), hs', hc⟩)
  intro hconflict
  rcases hconflict with hrowid | ⟨idx, hidx, hc⟩ | ⟨⟨set, oc⟩, hs, hc⟩
  · obtain ⟨oc, hkey⟩ := (h.unique [k]).mpr (.inl rfl)
    refine .inr ⟨([k], oc), hkey, ?_⟩
    rw [setConflict_key ha hb]
    exact beq_iff_eq.mpr hrowid
  · exact .inl ⟨idx, hidx, (hindex idx hidx).symm ▸ hc⟩
  · obtain ⟨oc', hs'⟩ := (h.unique set).mpr (.inr ⟨oc, hs⟩)
    exact .inr ⟨(set, oc'), hs', (hset set).symm ▸ hc⟩

theorem newRow_stored (hipk : m.ipk = some k) {u : Update} {p : Prepared}
    {new : Int64 × Row} (h : newRow m u p = .ok (some new))
    : new.2.getD k .null = .integer new.1 := by
  obtain ⟨_, -, h⟩ := Lib.except_bind_eq_ok.mp h
  obtain ⟨values, -, h⟩ := Lib.except_bind_eq_ok.mp h
  cases values with
  | none => cases h
  | some values =>
    obtain ⟨rowid, hrowid, h⟩ := Lib.except_bind_eq_ok.mp h
    cases h
    unfold rowidOf at hrowid
    rw [hipk] at hrowid
    dsimp only at hrowid ⊢
    cases hvalue : values.getD k .null
    all_goals
      rw [hvalue] at hrowid
      cases hrowid
    rfl

def RowTable.rowidAt (t : RowTable) (i : Nat) : Int64 :=
  (t.rows[i]?.map (·.1)).getD 0

theorem rowidAt_eq {i : Nat} {x : Int64 × Row} (h : t.rows[i]? = some x)
    : t.rowidAt i = x.1 := by
  unfold RowTable.rowidAt
  rw [h]
  rfl

theorem rowidAt_inj {i j : Nat} (hi : i < t.rows.length) (hj : j < t.rows.length)
    (h : t.rowidAt i = t.rowidAt j)
    : i = j := by
  have hxi := getElem?_eq_getElem hi
  have hxj := getElem?_eq_getElem hj
  rw [rowidAt_eq hxi, rowidAt_eq hxj] at h
  have hrow := RowTable.unique (getElem_mem hi) (getElem_mem hj) h
  exact (List.Nodup.of_map _ t.rowids_nodup).getElem_inj_iff.mp hrow

theorem slotsOf_rowidAt {i : Nat} (hi : i < t.rows.length)
    : slotsOf t (t.rowidAt i) = t.rows[i]? := by
  have hx := getElem?_eq_getElem hi
  rw [hx]
  exact slotsOf_eq_some.mpr ⟨getElem_mem hi, (rowidAt_eq hx).symm⟩

def newOf (m : TableMeta) (u : Update) (x : Int64 × Row) : Int64 × Row :=
  match newRow m u { rowid := x.1, old := x.2, new := u.assign (some x.1) x.2 } with
  | .ok (some new) => new
  | _ => x

section Visits

variable {u : Update} (h : SameUpdate m k m' u t)

include h

theorem newOf_spec {x : Int64 × Row} (hx : x ∈ t.rows) (hselects : u.selects (some x.1) x.2 = true)
    : newRow m u { rowid := x.1, old := x.2, new := u.assign (some x.1) x.2 }
        = .ok (some (newOf m u x))
      ∧ (newOf m u x).2 = u.assign none x.2 ∧ WrPasses m' (u.assign none x.2) := by
  have hp : ({ rowid := x.1, old := x.2, new := u.assign (some x.1) x.2 } : Prepared)
      ∈ prepare u t := by
    unfold prepare targets
    rw [h.order]
    exact mem_map.mpr ⟨x, mem_filter.mpr ⟨hx, hselects⟩, rfl⟩
  obtain ⟨hpasses, rowid, hnew⟩ := h.passes _ hp
  unfold newOf
  rw [hnew, h.assign x hx]
  exact ⟨rfl, rfl, hpasses⟩

theorem visits_eq
    : visits m u (prepare u t)
      = ((t.rows.zipIdx.filter fun p => u.selects (some p.1.1) p.1.2).map fun p =>
          (p.2, newOf m u p.1)).map fun v => (t.rowidAt v.1, v.2) := by
  have hrows : (t.rows.filter fun x => u.selects (some x.1) x.2)
      = (t.rows.zipIdx.filter fun p => u.selects (some p.1.1) p.1.2).map (·.1) := by
    conv_lhs => rw [← zipIdx_map_fst 0 t.rows]
    rw [filter_map]
    rfl
  unfold visits prepare targets
  rw [h.order]
  rw [hrows, filterMap_map, filterMap_map, map_map, ← filterMap_eq_map]
  refine filterMap_congr fun p hp => ?_
  obtain ⟨hmem, hselects⟩ := mem_filter.mp hp
  have hget := mem_zipIdx_iff_getElem?.mp hmem
  dsimp only [Function.comp_apply]
  rw [(newOf_spec h (mem_of_getElem? hget) hselects).1, rowidAt_eq hget]

theorem wrVisits_eq
    : wrVisits u (t.rows.map (·.2)).zipIdx
      = ((t.rows.zipIdx.filter fun p => u.selects (some p.1.1) p.1.2).map fun p =>
          (p.2, newOf m u p.1)).map fun v => (v.1, v.2.2) := by
  have hrow : ∀ p ∈ t.rows.zipIdx, p.1 ∈ t.rows := fun p hp =>
    mem_of_getElem? (mem_zipIdx_iff_getElem?.mp hp)
  unfold wrVisits
  rw [zipIdx_map, filter_map, map_map, map_map]
  have hfilter : t.rows.zipIdx.filter ((fun p => u.selects none p.1) ∘ Prod.map (·.2) id)
      = t.rows.zipIdx.filter fun p => u.selects (some p.1.1) p.1.2 :=
    filter_congr fun p hp => h.selects p.1 (hrow p hp)
  rw [hfilter]
  refine map_congr_left fun p hp => ?_
  obtain ⟨hmem, hselects⟩ := mem_filter.mp hp
  exact congrArg (Prod.mk p.2) (newOf_spec h (hrow p hmem) hselects).2.1.symm

/-- The rule leaves the same rows by rowid and by position. -/
theorem visitAll_twin (htwin : Twin m k m') {row : Row}
    : (∃ i, visitAll (wrConflict m') ((t.rows.map (·.2))[·]?)
        (wrVisits u (t.rows.map (·.2)).zipIdx) i = some row)
      ↔ ∃ i rowid, visitAll (rowConflict m) (slotsOf t) (visits m u (prepare u t)) i
          = some (rowid, row) := by
  have hvalid : ∀ i < t.rows.length,
      visitAll (wrConflict m') ((t.rows.map (·.2))[·]?) (wrVisits u (t.rows.map (·.2)).zipIdx) i
        = (visitAll (rowConflict m) (slotsOf t) (visits m u (prepare u t)) (t.rowidAt i)).map
            (·.2) := fun i hi => by
    rw [visits_eq h, wrVisits_eq h]
    refine visitAll_transport t.rowidAt (· < t.rows.length) (·.2)
      (fun x => x.2.getD k .null = .integer x.1)
      (fun i j hi hj => rowidAt_inj hi hj) (fun a b ha hb => wrConflict_twin htwin ha hb)
      (fun i x hx => h.stored x (slotsOf_eq_some.mp hx).1) (fun v hv => ?_) (fun i hi => ?_) hi
    · obtain ⟨p, hp, rfl⟩ := mem_map.mp hv
      obtain ⟨hmem, hselects⟩ := mem_filter.mp hp
      have hget := mem_zipIdx_iff_getElem?.mp hmem
      exact ⟨(List.getElem?_eq_some_iff.mp hget).1,
        newRow_stored htwin.ipk (newOf_spec h (mem_of_getElem? hget) hselects).1⟩
    · rw [getElem?_map, slotsOf_rowidAt hi]
  constructor
  · intro ⟨i, hi⟩
    by_cases hlt : i < t.rows.length
    · rw [hvalid i hlt] at hi
      obtain ⟨x, hx, rfl⟩ := Option.map_eq_some_iff.mp hi
      exact ⟨_, x.1, hx⟩
    have hnone : (t.rows.map (·.2))[i]? = none := by
      rw [List.getElem?_eq_none_iff, length_map]
      omega
    rw [visitAll_gone hnone] at hi
    cases hi
  · intro ⟨rowid, id, hslot⟩
    have hstart : slotsOf t rowid ≠ none := fun hnone => by
      rw [visitAll_gone hnone] at hslot
      cases hslot
    obtain ⟨x, hx⟩ := Option.ne_none_iff_exists'.mp hstart
    obtain ⟨hmem, rfl⟩ := slotsOf_eq_some.mp hx
    obtain ⟨i, hi⟩ := getElem?_of_mem hmem
    refine ⟨i, ?_⟩
    rw [hvalid i (List.getElem?_eq_some_iff.mp hi).1, rowidAt_eq hi, hslot]
    rfl

end Visits

end GraphiteSql.Dml
