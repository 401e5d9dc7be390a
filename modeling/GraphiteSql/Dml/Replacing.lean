import GraphiteSql.Dml.Keys
import GraphiteSql.Lib.Lockstep
import GraphiteSql.Lib.Replacement

/-! UPDATE OR REPLACE on a rowid table against the rule that a row which an earlier row replaced is
not updated any more: one step of the write pass, and when it does what the rule says.
-/

namespace GraphiteSql.Dml

open Lib.Replacement Lib.Lockstep List

variable {m : TableMeta} {u : Update} {s : DmlState} {rest todo : List Prepared}
  {indexed : List (Int64 × Row)} {t : RowTable} {x : Int64 × Row} {p : Prepared}

-- The rule

/-- Where the rows of a table are now, by the rowids they had before the statement. -/
abbrev Slots := Int64 → Option (Int64 × Row)

variable {slots : Slots}

def slotsOf (t : RowTable) : Slots :=
  fun i => (t.get? i).map (i, ·)

def Holds (t : RowTable) (slots : Slots) : Prop :=
  ∀ x, x ∈ t.rows ↔ ∃ i, slots i = some x

/-- One target under the rule: a removed row is skipped, another one removes the rows it conflicts
with.
-/
def visitRow (m : TableMeta) (u : Update) (slots : Slots) (p : Prepared) : Except DmlError Slots :=
  if (slots p.rowid).isNone then .ok slots
  else match newRow m u p with
    | .error e => .error e
    | .ok none => .ok slots
    | .ok (some new) => .ok (visit (rowConflict m) slots p.rowid new)

def visits (m : TableMeta) (u : Update) (todo : List Prepared) : List (Int64 × (Int64 × Row)) :=
  todo.filterMap fun p =>
    match newRow m u p with
    | .ok (some new) => some (p.rowid, new)
    | _ => none

theorem slotsOf_eq_some {i : Int64}
    : slotsOf t i = some x ↔ x ∈ t.rows ∧ x.1 = i := by
  unfold slotsOf
  rw [Option.map_eq_some_iff]
  constructor
  · intro ⟨row, hrow, hx⟩
    rw [← hx]
    exact ⟨RowTable.get?_eq_some.mp hrow, rfl⟩
  · intro ⟨hx, hi⟩
    exact ⟨x.2, RowTable.get?_eq_some.mpr (hi ▸ hx), by rw [← hi]⟩

theorem slotsOf_holds (t : RowTable)
    : Holds t (slotsOf t) := by
  intro x
  simp only [slotsOf_eq_some]
  exact ⟨fun hx => ⟨x.1, hx, rfl⟩, fun ⟨_, hx, _⟩ => hx⟩

theorem visitRow_removed (h : slots p.rowid = none)
    : visitRow m u slots p = .ok slots := by
  unfold visitRow
  rw [h]
  rfl

theorem visitRow_present (h : slots p.rowid ≠ none)
    : visitRow m u slots p = match newRow m u p with
      | .error e => .error e
      | .ok none => .ok slots
      | .ok (some new) => .ok (visit (rowConflict m) slots p.rowid new) := by
  unfold visitRow
  rw [if_neg (by simpa using h)]

/-- A run under the rule that does not fail makes its visits. -/
theorem foldlM_visitRow {slots' : Slots} (h : todo.foldlM (visitRow m u) slots = .ok slots')
    : slots' = visitAll (rowConflict m) slots (visits m u todo) := by
  induction todo generalizing slots with
  | nil => exact (Except.ok.inj h).symm
  | cons p rest ih =>
    obtain ⟨mid, hmid, hrest⟩ := Lib.except_bind_eq_ok.mp h
    rw [ih hrest]
    by_cases hgone : slots p.rowid = none
    · rw [visitRow_removed hgone] at hmid
      cases hmid
      unfold visits
      rw [filterMap_cons]
      cases newRow m u p with
      | error e => rfl
      | ok new =>
        cases new with
        | none => rfl
        | some new =>
          rw [visitAll_cons, visit_of_none hgone]
    · rw [visitRow_present hgone] at hmid
      unfold visits
      rw [filterMap_cons]
      cases hnew : newRow m u p with
      | error e =>
        rw [hnew] at hmid
        cases hmid
      | ok new =>
        rw [hnew] at hmid
        cases new with
        | none =>
          cases hmid
          rfl
        | some new =>
          cases hmid
          rfl

def updateRow (m : TableMeta) (u : Update) (s : DmlState) (p : Prepared)
    : Except DmlError DmlState :=
  match planUpdate m u s p with
  | .error e => .error e
  | .ok none => .ok s
  | .ok (some plan) => .ok (s.write p plan)

theorem updateRows_ok {n : Nat} {s' : DmlState} (h : todo.foldlM (updateRow m u) s = .ok s')
    : ∃ n', updateRows m u todo n s = .ok n' s' := by
  induction todo generalizing s n with
  | nil => exact ⟨n, by rw [← Except.ok.inj h]; rfl⟩
  | cons p rest ih =>
    obtain ⟨mid, hmid, hrest⟩ := Lib.except_bind_eq_ok.mp h
    unfold updateRow at hmid
    unfold updateRows
    cases hplan : planUpdate m u s p with
    | error e =>
      rw [hplan] at hmid
      cases hmid
    | ok plan =>
      rw [hplan] at hmid
      cases plan <;> cases hmid <;> exact ih hrest

theorem updateRows_error {n : Nat} {e : DmlError} (h : todo.foldlM (updateRow m u) s = .error e)
    : ∃ s', updateRows m u todo n s = .error e s' := by
  induction todo generalizing s n with
  | nil => cases h
  | cons p rest ih =>
    rw [foldlM_cons] at h
    unfold updateRow at h
    unfold updateRows
    cases hplan : planUpdate m u s p with
    | error e' =>
      rw [hplan] at h
      cases h
      exact ⟨s, rfl⟩
    | ok plan =>
      rw [hplan] at h
      cases plan <;> exact ih h

theorem mem_deleteAll {ids : List Int64}
    : x ∈ (ids.foldl RowTable.delete t).rows ↔ x ∈ t.rows ∧ x.1 ∉ ids := by
  induction ids generalizing t with
  | nil => simp
  | cons id ids ih =>
    rw [foldl_cons, ih, RowTable.mem_delete, mem_cons, not_or, and_assoc]

/-- What a step leaves: the new row, and the rows that are neither at its places nor found to
conflict with it.
-/
theorem updateRow_replace (hreplace : u.override = some .replace) {new : Int64 × Row}
    (hnew : newRow m u p = .ok (some new))
    : ∃ s', updateRow m u s p = .ok s' ∧ s'.indexed = s.indexed
      ∧ ∀ x, x ∈ s'.table.rows ↔ x = new ∨ x ∈ s.table.rows ∧ x.1 ≠ p.rowid ∧ x.1 ≠ new.1
          ∧ ¬(rowConflict m new x = true ∧ m.Finds s.indexed new x.1) := by
  obtain ⟨replaced, hplan, hrows⟩ := resolveConflict_replace (m := m)
    (findConflictsOrdered m s.indexed s.table new.1 new.2 (some p.rowid))
    fun replaced => ({ rowid := new.1, values := new.2, replaced } : UpdatePlan)
  unfold updateRow planUpdate
  rw [hnew, hreplace, Lib.except_ok_bind]
  dsimp only
  rw [hplan]
  refine ⟨_, rfl, rfl, fun x => ?_⟩
  unfold DmlState.write
  rw [RowTable.mem_insert, RowTable.mem_delete, mem_deleteAll, hrows, mem_found]
  refine or_congr Iff.rfl ?_
  constructor
  · intro ⟨⟨⟨hx, hkept⟩, hrowid⟩, hne⟩
    exact ⟨hx, hrowid, hne, fun h => hkept ⟨x.2, hx, hrowid, h.1, h.2⟩⟩
  · intro ⟨hx, hrowid, hne, hkept⟩
    refine ⟨⟨⟨hx, fun ⟨row, hrow, _, hconflict, hfinds⟩ => hkept ⟨?_, hfinds⟩⟩, hrowid⟩, hne⟩
    rwa [RowTable.unique hx hrow rfl]

-- When a step follows the rule

/-- What a target must meet for the write pass to do with it as the rule says. A removed row is
written again, unless the new row is there already and stands in no one's way. A row that the
statement changed is not replaced, unless an index still leads to it.
-/
structure Follows (m : TableMeta) (u : Update) (indexed : List (Int64 × Row)) (slots : Slots)
    (p : Prepared) : Prop where
  failed : ∀ e, newRow m u p = .error e → slots p.rowid ≠ none
  removed : ∀ new, newRow m u p = .ok (some new) → slots p.rowid = none →
    (∃ i, slots i = some new) ∧ ∀ i x, slots i = some x → x.1 = p.rowid → x = new
  written : ∀ new, newRow m u p = .ok (some new) → slots p.rowid ≠ none →
    ∀ i x, i ≠ p.rowid → slots i = some x → rowConflict m new x = true → m.Finds indexed new x.1

/-- What holds while UPDATE OR REPLACE goes through its targets. -/
structure Visiting (m : TableMeta) (todo : List Prepared) (slots : Slots) : Prop where
  free : Free (rowConflict m) slots
  unmoved : ∀ p ∈ todo, ∀ x, slots p.rowid = some x → x.1 = p.rowid
  distinct : todo.Pairwise fun p q => p.rowid ≠ q.rowid

/-- The write pass has the rows of the slots, and indexes from before the statement. -/
def Matches (indexed : List (Int64 × Row)) (s : DmlState) (slots : Slots) : Prop :=
  Holds s.table slots ∧ s.indexed = indexed

theorem rowConflict_rowid {a b : Int64 × Row} (h : b.1 = a.1)
    : rowConflict m a b = true :=
  rowConflict_iff.mpr (.inl h)

theorem Visiting.place (h : Visiting m todo slots) {i j : Int64}
    {y : Int64 × Row} (hx : slots i = some x) (hy : slots j = some y) (hrowid : x.1 = y.1)
    : i = j := by
  by_contra hne
  have hfree := h.free hne hx hy
  rw [rowConflict_rowid hrowid.symm] at hfree
  cases hfree

theorem visiting_step (hm : m.Lawful) {slots' : Slots}
    (h : Visiting m (p :: rest) slots) (hstep : visitRow m u slots p = .ok slots')
    : Visiting m rest slots' := by
  obtain ⟨hp, hrest⟩ := pairwise_cons.mp h.distinct
  have hskip : Visiting m rest slots :=
    ⟨h.free, fun q hq => h.unmoved q (mem_cons_of_mem _ hq), hrest⟩
  by_cases hgone : slots p.rowid = none
  · rw [visitRow_removed hgone] at hstep
    cases hstep
    exact hskip
  rw [visitRow_present hgone] at hstep
  cases hnew : newRow m u p with
  | error e =>
    rw [hnew] at hstep
    cases hstep
  | ok new =>
    rw [hnew] at hstep
    cases new with
    | none =>
      cases hstep
      exact hskip
    | some new =>
      cases hstep
      refine ⟨visit_free (rowConflict_symm hm) h.free, fun q hq x hx => ?_, hrest⟩
      cases visit_eq_some hx with
      | inl hold => exact hskip.unmoved q hq x hold.1
      | inr hplace => exact absurd hplace.1.symm (hp q hq)

/-- The rows after a visit to a row that is there. -/
theorem visit_rows
    (h : Visiting m (p :: rest) slots) {old new : Int64 × Row} (hold : slots p.rowid = some old)
    : (∃ i, visit (rowConflict m) slots p.rowid new i = some x)
      ↔ x = new ∨ (∃ i, slots i = some x) ∧ x.1 ≠ p.rowid ∧ rowConflict m new x = false := by
  have hrowid := h.unmoved p mem_cons_self old hold
  constructor
  · intro ⟨i, hi⟩
    rw [visit_of_some hold] at hi
    split_ifs at hi with hp
    · exact .inl (Option.some.inj hi).symm
    · obtain ⟨hslot, hfree⟩ := Option.filter_eq_some_iff.mp hi
      refine .inr ⟨⟨i, hslot⟩, fun hx => hp ?_, by simpa using hfree⟩
      exact h.place hslot hold (hx.trans hrowid.symm)
  intro hx
  rcases hx with rfl | ⟨⟨i, hi⟩, hne, hfree⟩
  · exact ⟨p.rowid, by rw [visit_of_some hold, if_pos rfl]⟩
  refine ⟨i, ?_⟩
  have hp : i ≠ p.rowid := fun heq => by
    rw [heq] at hi
    exact hne (h.unmoved p mem_cons_self x hi)
  rw [visit_of_some hold, if_neg hp, hi]
  simp [hfree]

section Step

variable (hreplace : u.override = some .replace)
  (h : Visiting m (p :: rest) slots) (hmatch : Matches indexed s slots) {new : Int64 × Row}
  (hnew : newRow m u p = .ok (some new))

include hreplace h hmatch hnew

/-- A removed row is written again, which shows unless its new row is there already. -/
theorem agree_removed (hgone : slots p.rowid = none)
    : Agree (Matches indexed) (updateRow m u s p) (visitRow m u slots p)
      ↔ (∃ i, slots i = some new) ∧ ∀ i x, slots i = some x → x.1 = p.rowid → x = new := by
  obtain ⟨hholds, hindexed⟩ := hmatch
  obtain ⟨s', hs', hindexed', hrows⟩ := updateRow_replace hreplace hnew
  rw [hs', visitRow_removed hgone]
  constructor
  · intro ⟨hagree, _⟩
    have hpresent := (hagree new).mp ((hrows new).mpr (.inl rfl))
    refine ⟨hpresent, fun i x hx hrowid => ?_⟩
    rcases (hrows x).mp ((hagree x).mpr ⟨i, hx⟩) with heq | ⟨_, hne, _⟩
    · exact heq
    · exact absurd hrowid hne
  intro ⟨hpresent, halone⟩
  refine ⟨fun x => ?_, hindexed'.trans hindexed⟩
  rw [hrows]
  constructor
  · intro hx
    rcases hx with rfl | ⟨hx, _⟩
    · exact hpresent
    · exact (hholds x).mp hx
  intro ⟨i, hi⟩
  obtain ⟨j, hj⟩ := hpresent
  by_cases hij : i = j
  · rw [hij, hj] at hi
    exact .inl (Option.some.inj hi).symm
  have hfree := h.free (Ne.symm hij) hj hi
  refine .inr ⟨(hholds x).mpr ⟨i, hi⟩, fun hrowid => ?_, fun hrowid => ?_, fun hconflict => ?_⟩
  · rw [halone i x hi hrowid, rowConflict_rowid rfl] at hfree
    cases hfree
  · rw [rowConflict_rowid hrowid] at hfree
    cases hfree
  · rw [hconflict.1] at hfree
    cases hfree

/-- A row that is there replaces what the indexes find, which must be all it conflicts with. -/
theorem agree_written (hpresent : slots p.rowid ≠ none)
    : Agree (Matches indexed) (updateRow m u s p) (visitRow m u slots p)
      ↔ ∀ i x, i ≠ p.rowid → slots i = some x → rowConflict m new x = true →
          m.Finds indexed new x.1 := by
  obtain ⟨hholds, hindexed⟩ := hmatch
  obtain ⟨s', hs', hindexed', hrows⟩ := updateRow_replace (s := s) hreplace hnew
  obtain ⟨old, hold⟩ := Option.ne_none_iff_exists'.mp hpresent
  rw [hs', visitRow_present hpresent, hnew]
  rw [hindexed] at hrows
  constructor
  · intro ⟨hagree, _⟩ i x hne hx hconflict
    by_contra hmissed
    have hrowid : x.1 ≠ p.rowid := fun heq =>
      hne (h.place hx hold (heq.trans (h.unmoved p mem_cons_self old hold).symm))
    have hkept : x ∈ s'.table.rows := (hrows x).mpr (.inr ⟨(hholds x).mpr ⟨i, hx⟩, hrowid,
      fun heq => hmissed (.inl heq), fun hfound => hmissed hfound.2⟩)
    rcases (visit_rows h hold).mp ((hagree x).mp hkept) with heq | ⟨_, _, hfree⟩
    · exact hmissed (.inl (congrArg Prod.fst heq))
    · rw [hconflict] at hfree
      cases hfree
  · intro hfinds
    refine ⟨fun x => ?_, hindexed'.trans hindexed⟩
    rw [hrows, visit_rows h hold, hholds]
    refine or_congr Iff.rfl (and_congr_right fun ⟨i, hi⟩ => and_congr_right fun hrowid => ?_)
    have hne : i ≠ p.rowid := fun heq => by
      rw [heq] at hi
      exact hrowid (h.unmoved p mem_cons_self x hi)
    constructor
    · intro ⟨_, hkept⟩
      exact Bool.eq_false_iff.mpr fun hconflict => hkept ⟨hconflict, hfinds i x hne hi hconflict⟩
    intro hfree
    refine ⟨fun heq => ?_, fun hfound => ?_⟩
    · rw [rowConflict_rowid heq] at hfree
      cases hfree
    · rw [hfound.1] at hfree
      cases hfree

end Step

/-- A step of the write pass does what the rule says exactly if the target meets the condition. -/
theorem agree_step (hreplace : u.override = some .replace)
    (h : Visiting m (p :: rest) slots) (hmatch : Matches indexed s slots)
    : Agree (Matches indexed) (updateRow m u s p) (visitRow m u slots p)
      ↔ Follows m u indexed slots p := by
  cases hr : newRow m u p with
  | error e =>
    have hupdate : updateRow m u s p = .error e := by
      unfold updateRow planUpdate
      rw [hr]
      rfl
    rw [hupdate]
    by_cases hgone : slots p.rowid = none
    · rw [visitRow_removed hgone]
      exact ⟨False.elim, fun hfollows => hfollows.failed e hr hgone⟩
    rw [visitRow_present hgone, hr]
    refine ⟨fun _ => ⟨fun _ _ => hgone, fun new h => ?_, fun new h => ?_⟩, fun _ => rfl⟩
    all_goals
      rw [hr] at h
      cases h
  | ok r =>
    cases r with
    | none =>
      have hupdate : updateRow m u s p = .ok s := by
        unfold updateRow planUpdate
        rw [hr]
        rfl
      have hvisit : visitRow m u slots p = .ok slots := by
        unfold visitRow
        rw [hr]
        split_ifs <;> rfl
      rw [hupdate, hvisit]
      refine ⟨fun _ => ⟨fun e h => ?_, fun new h => ?_, fun new h => ?_⟩, fun _ => hmatch⟩
      all_goals
        rw [hr] at h
        cases h
    | some new =>
      have hsame : ∀ {new'}, newRow m u p = .ok (some new') → new' = new := fun hnew' => by
        rw [hr] at hnew'
        exact (Option.some.inj (Except.ok.inj hnew')).symm
      have hok : ∀ e, newRow m u p ≠ .error e := fun e he => by
        rw [hr] at he
        cases he
      by_cases hgone : slots p.rowid = none
      · rw [agree_removed hreplace h hmatch hr hgone]
        constructor
        · intro hremoved
          exact ⟨fun e he => absurd he (hok e), fun new' hnew' _ => hsame hnew' ▸ hremoved,
            fun _ _ hpresent => absurd hgone hpresent⟩
        · exact fun hfollows => hfollows.removed new hr hgone
      rw [agree_written hreplace h hmatch hr hgone]
      constructor
      · intro hwritten
        exact ⟨fun e he => absurd he (hok e), fun _ _ hnone => absurd hnone hgone,
          fun new' hnew' _ => hsame hnew' ▸ hwritten⟩
      · exact fun hfollows => hfollows.written new hr hgone

/-- No two rows conflict. -/
def RowTable.ConflictFree (m : TableMeta) (t : RowTable) : Prop :=
  ∀ x ∈ t.rows, ∀ y ∈ t.rows, x.1 ≠ y.1 → rowConflict m x y = false

theorem takeKept_sublist (kept : List Int64) {rows : List (Int64 × Row)}
    (hrows : (rows.map (·.1)).Nodup)
    : (∀ r ∈ takeKept kept rows, r ∈ rows) ∧ ((takeKept kept rows).map (·.1)).Nodup := by
  induction kept generalizing rows with
  | nil => exact ⟨fun r hr => (not_mem_nil hr).elim, nodup_nil⟩
  | cons id kept ih =>
    unfold takeKept
    cases hfind : rows.find? fun r => r.1 == id with
    | none => exact ih hrows
    | some r =>
      have hid : r.1 = id := by simpa using find?_some hfind
      have hothers : ((rows.filter fun r => r.1 != id).map (·.1)).Nodup :=
        hrows.sublist (filter_sublist.map _)
      obtain ⟨hmem, hnodup⟩ := ih hothers
      constructor
      · intro x hx
        cases mem_cons.mp hx with
        | inl heq => exact heq ▸ mem_of_find?_eq_some hfind
        | inr htail => exact (mem_filter.mp (hmem x htail)).1
      · refine nodup_cons.mpr ⟨fun h => ?_, hnodup⟩
        obtain ⟨x, hx, hxid⟩ := mem_map.mp h
        exact bne_iff_ne.mp (mem_filter.mp (hmem x hx)).2 (hxid.trans hid)

theorem targets_rows (u : Update) (t : RowTable)
    : (∀ r ∈ targets u t, r ∈ t.rows) ∧ ((targets u t).map (·.1)).Nodup := by
  have hfound : ((t.rows.filter fun r => u.selects (some r.1) r.2).map (·.1)).Nodup :=
    t.rowids_nodup.sublist (filter_sublist.map _)
  unfold targets
  cases u.orderLimit with
  | none => exact ⟨fun r hr => (mem_filter.mp hr).1, hfound⟩
  | some keep =>
    obtain ⟨hmem, hnodup⟩ := takeKept_sublist (keep _) hfound
    exact ⟨fun r hr => (mem_filter.mp (hmem r hr)).1, hnodup⟩

theorem slotsOf_free (h : t.ConflictFree m)
    : Free (rowConflict m) (slotsOf t) := by
  intro i j a b hne ha hb
  obtain ⟨hrow, rfl⟩ := slotsOf_eq_some.mp ha
  obtain ⟨hrow', rfl⟩ := slotsOf_eq_some.mp hb
  exact h a hrow b hrow' hne

theorem visiting_start (h : t.ConflictFree m)
    : Visiting m (prepare u t) (slotsOf t) where
  free := slotsOf_free h
  unmoved := fun _ _ _ hx => (slotsOf_eq_some.mp hx).2
  distinct := by
    exact pairwise_map.mpr (pairwise_map.mp (targets_rows u t).2)

theorem writePass_agrees (hm : m.Lawful) (hreplace : u.override = some .replace)
    (hindexed : s.indexed = s.table.rows) (hfree : s.table.ConflictFree m)
    : (∀ k, Agree (Matches s.table.rows)
        (((prepare u s.table).take k).foldlM (updateRow m u) s)
        (((prepare u s.table).take k).foldlM (visitRow m u) (slotsOf s.table)))
      ↔ Throughout (Follows m u s.table.rows) (visitRow m u) (slotsOf s.table)
          (prepare u s.table) :=
  agree_iff (I := Visiting m) (fun _ _ _ _ h hstep => visiting_step hm h hstep)
    (fun _ _ _ _ h hmatch => agree_step hreplace h hmatch) (visiting_start hfree)
    ⟨slotsOf_holds _, hindexed⟩

end GraphiteSql.Dml
