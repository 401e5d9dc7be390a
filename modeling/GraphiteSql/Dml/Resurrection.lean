import GraphiteSql.Dml.Twins

/-! UPDATE OR REPLACE against its rule: a row that an earlier row replaced is not updated any more.
A WITHOUT ROWID table follows the rule; a rowid table does if no target was replaced before its turn
and no new row conflicts with a row that the statement has changed.
-/

namespace GraphiteSql.Dml

open Lib.Replacement Lib.Lockstep List

variable {m : TableMeta} {u : Update}

def ruleAfter (m : TableMeta) (u : Update) (t : RowTable) (k : Nat) : Except DmlError Slots :=
  ((prepare u t).take k).foldlM (visitRow m u) (slotsOf t)

def rule (m : TableMeta) (u : Update) (t : RowTable) : Except DmlError Slots :=
  (prepare u t).foldlM (visitRow m u) (slotsOf t)

/-- The write pass has the rows of the rule after every target. -/
def StepsByRule (m : TableMeta) (u : Update) (s : DmlState) : Prop :=
  ∀ k, Agree (Matches s.table.rows) (((prepare u s.table).take k).foldlM (updateRow m u) s)
    (ruleAfter m u s.table k)

/-- Every visit follows the rule. -/
def MeetsRule (m : TableMeta) (u : Update) (t : RowTable) : Prop :=
  Throughout (Follows m u t.rows) (visitRow m u) (slotsOf t) (prepare u t)

/-- What UPDATE OR REPLACE leaves of `t`: the rows of the rule, no two of them in conflict, no row
at a rowid that was replaced unless another target took it, and the rows that the WITHOUT ROWID
version of the table is left with.
-/
structure LeftByRule (m : TableMeta) (u : Update) (t : RowTable) (slots : Slots) (after : RowTable)
    : Prop where
  rows : Holds after slots
  conflictFree : after.ConflictFree m
  gone : ∀ k before i x y, ruleAfter m u t k = .ok before → before i = some x → slots i = none →
    y ∈ after.rows → y.1 = x.1 →
    ∃ q ∈ prepare u t, q.rowid ≠ i ∧ newRow m u q = .ok (some y)
  twin : ∀ k m' log, Twin m k m' → SameUpdate m k m' u t →
    ∃ n s', execUpdateWithoutRowid m' u { rows := t.rows.map (·.2), log } = .ok n s'
      ∧ ∀ row, row ∈ s'.rows ↔ ∃ rowid, (rowid, row) ∈ after.rows

theorem mem_visits {todo : List Prepared} {i : Int64} {new : Int64 × Row}
    : (i, new) ∈ visits m u todo ↔ ∃ p ∈ todo, p.rowid = i ∧ newRow m u p = .ok (some new) := by
  unfold visits
  rw [mem_filterMap]
  refine exists_congr fun p => and_congr_right fun _ => ?_
  cases newRow m u p with
  | error e => simp
  | ok r => cases r <;> simp

theorem rule_twin {m' : TableMeta} (hreplace : u.override = some .replace) {t after : RowTable}
    {slots : Slots} (hrule : rule m u t = .ok slots) (hafter : Holds after slots) {k : Nat}
    (htwin : Twin m k m') (hsame : SameUpdate m k m' u t) (log : List Report)
    : ∃ n s', execUpdateWithoutRowid m' u { rows := t.rows.map (·.2), log } = .ok n s'
      ∧ ∀ row, row ∈ s'.rows ↔ ∃ rowid, (rowid, row) ∈ after.rows := by
  obtain ⟨n, s', hrun, hrows⟩ := @execUpdateWithoutRowid_visits m' u hreplace
    { rows := t.rows.map (·.2), log } fun row hrow hselects => by
      obtain ⟨x, hx, rfl⟩ := mem_map.mp hrow
      rw [hsame.selects x hx] at hselects
      exact (newOf_spec hsame hx hselects).2.2
  refine ⟨n, s', hrun, fun row => ?_⟩
  rw [hrows, visitAll_twin hsame htwin, ← foldlM_visitRow hrule, exists_comm]
  exact exists_congr fun rowid => (hafter (rowid, row)).symm

section Rule

variable (hm : m.Lawful) {t : RowTable} (hfree : t.ConflictFree m)
  {slots : Slots} (hrule : rule m u t = .ok slots) {after : RowTable} (hafter : Holds after slots)

include hm hfree

theorem ruleAfter_free {k : Nat} {before : Slots} (h : ruleAfter m u t k = .ok before)
    : Free (rowConflict m) before := by
  rw [foldlM_visitRow h]
  exact visitAll_free (rowConflict_symm hm) (slotsOf_free hfree)

include hrule hafter

theorem rule_conflictFree
    : after.ConflictFree m := by
  have hslots : Free (rowConflict m) slots := by
    rw [foldlM_visitRow hrule]
    exact visitAll_free (rowConflict_symm hm) (slotsOf_free hfree)
  intro x hx y hy hne
  obtain ⟨i, hi⟩ := (hafter x).mp hx
  obtain ⟨j, hj⟩ := (hafter y).mp hy
  refine hslots (fun hij => hne ?_) hi hj
  rw [hij, hj] at hi
  rw [Option.some.inj hi]

/-- The rowid of a row that was removed is taken by another target only. -/
theorem rule_gone {k : Nat} {before : Slots} {i : Int64} {x y : Int64 × Row}
    (hbefore : ruleAfter m u t k = .ok before) (hx : before i = some x) (hgone : slots i = none)
    (hy : y ∈ after.rows) (hrowid : y.1 = x.1)
    : ∃ q ∈ prepare u t, q.rowid ≠ i ∧ newRow m u q = .ok (some y) := by
  obtain ⟨j, hj⟩ := (hafter y).mp hy
  have hne : j ≠ i := fun heq => by
    rw [heq, hgone] at hj
    cases hj
  have hrest : slots = visitAll (rowConflict m) before (visits m u ((prepare u t).drop k)) := by
    refine foldlM_visitRow ?_
    unfold rule at hrule
    rw [← take_append_drop k (prepare u t), foldlM_append] at hrule
    obtain ⟨mid, hmid, hdrop⟩ := Lib.except_bind_eq_ok.mp hrule
    have heq := hmid.symm.trans hbefore
    cases heq
    exact hdrop
  rw [hrest] at hj
  cases visitAll_eq_some hj with
  | inl hold =>
    have hclash := ruleAfter_free hm hfree hbefore hne hold hx
    rw [rowConflict_rowid hrowid.symm] at hclash
    cases hclash
  | inr hvisit =>
    obtain ⟨q, hq, rfl, hnew⟩ := mem_visits.mp hvisit
    exact ⟨q, mem_of_mem_drop hq, hne, hnew⟩

theorem rule_left (hreplace : u.override = some .replace)
    : LeftByRule m u t slots after where
  rows := hafter
  conflictFree := rule_conflictFree hm hfree hrule hafter
  gone := fun _ _ _ _ _ => rule_gone hm hfree hrule hafter
  twin := fun _ _ log htwin hsame => rule_twin hreplace hrule hafter htwin hsame log

end Rule

theorem execUpdate_ok {s mid : DmlState}
    (h : (prepare u s.table).foldlM (updateRow m u) s = .ok mid)
    : ∃ n s', execUpdate m u s = .ok n s' ∧ s'.table = mid.table := by
  obtain ⟨n, hrun⟩ := updateRows_ok (n := 0) h
  unfold execUpdate
  rw [Lib.estate_get_bind, Lib.estate_bind_ok hrun]
  by_cases hn : 0 < n
  · rw [if_pos hn]
    exact ⟨n, { mid with indexed := mid.table.rows }, rfl, rfl⟩
  · rw [if_neg hn]
    exact ⟨n, mid, rfl, rfl⟩

theorem execUpdate_error {s : DmlState} {e : DmlError}
    (h : (prepare u s.table).foldlM (updateRow m u) s = .error e)
    : ∃ s', execUpdate m u s = .error e s' := by
  obtain ⟨s', hrun⟩ := updateRows_error (n := 0) h
  unfold execUpdate
  rw [Lib.estate_get_bind, Lib.estate_bind_error hrun]
  exact ⟨s', rfl⟩

/-- UPDATE OR REPLACE on a rowid table goes by the rule exactly if every target meets the condition
when the rule comes to it. Then it fails as the rule does, or it leaves what the rule leaves.
-/
theorem updateReplace_byRule {m : TableMeta} (hm : m.Lawful) {u : Update}
    (hreplace : u.override = some .replace) {s : DmlState} (hindexed : s.indexed = s.table.rows)
    (hfree : s.table.ConflictFree m)
    : (StepsByRule m u s ↔ MeetsRule m u s.table)
      ∧ (MeetsRule m u s.table →
        (∀ e, rule m u s.table = .error e → ∃ s', execUpdate m u s = .error e s')
        ∧ ∀ slots, rule m u s.table = .ok slots →
          ∃ n s', execUpdate m u s = .ok n s' ∧ LeftByRule m u s.table slots s'.table) := by
  have hiff := writePass_agrees hm hreplace hindexed hfree
  refine ⟨hiff, fun hmeets => ?_⟩
  have hall := hiff.mpr hmeets (prepare u s.table).length
  rw [take_length] at hall
  constructor
  · intro e he
    refine execUpdate_error ?_
    unfold rule at he
    rw [he] at hall
    cases hrun : (prepare u s.table).foldlM (updateRow m u) s with
    | ok mid =>
      rw [hrun] at hall
      exact hall.elim
    | error e' =>
      rw [hrun] at hall
      exact congrArg _ hall
  · intro slots hslots
    have hrule := hslots
    unfold rule at hrule
    rw [hrule] at hall
    obtain ⟨mid, hrun, hholds, -⟩ := hall.ok
    obtain ⟨n, s', hexec, htable⟩ := execUpdate_ok hrun
    exact ⟨n, s', hexec, rule_left hm hfree hslots (htable ▸ hholds) hreplace⟩

def columnIndex (i : Nat) : IndexMeta where
  name := "sqlite_autoindex_t_1"
  unique := true
  auto := true
  cols := [i]
  hasExprs := false
  collations := [.binary]
  inIndex := fun _ _ => true
  keyValues := fun _ row => [row.getD i .null]

/-- `CREATE TABLE t(a INTEGER PRIMARY KEY, b UNIQUE)`. -/
def pairMeta : TableMeta where
  columns := ["a", "b"].map fun name =>
    { table := "t", name, collation := .binary, notNull := none, default := none }
  ipk := some 0
  ipkOnConflict := .abort
  unique := [([1], .abort)]
  indexes := [columnIndex 1]
  check := fun _ _ => .ok ()
  pk := []

/-- `CREATE TABLE t(a INTEGER PRIMARY KEY, b UNIQUE) WITHOUT ROWID`. -/
def wrPairMeta : TableMeta where
  columns := pairMeta.columns
  ipk := none
  ipkOnConflict := .abort
  unique := [([0], .abort), ([1], .abort)]
  indexes := [columnIndex 0, columnIndex 1]
  check := fun _ _ => .ok ()
  pk := [(0, false)]

/-- The rows (1, 10) and (2, 20). -/
def pairState : DmlState where
  table := ⟨[(1, [.integer 1, .integer 10]), (2, [.integer 2, .integer 20])], by decide⟩
  indexed := [(1, [.integer 1, .integer 10]), (2, [.integer 2, .integer 20])]
  log := []

/-- `UPDATE OR REPLACE t SET b = 20 WHERE a <= last`. -/
def setTwenty (last : Int64) : Update where
  onConflict := .replace
  explicit := true
  selects := fun _ row => decide (cmpValues (row.getD 0 .null) (.integer last) ≠ .gt)
  orderLimit := none
  assign := fun _ row => row.set 1 (.integer 20)

theorem pairMeta_lawful : pairMeta.Lawful where
  columns := by
    intro i
    have hbinary : pairMeta.collation i = .binary := by
      match i with
      | 0 => rfl
      | 1 => rfl
      | _ + 2 => rfl
    rw [hbinary]
    exact builtIn_symmetric mem_cons_self
  indexes := by
    intro idx hidx c hc
    rw [mem_singleton.mp hidx] at hc
    rw [mem_singleton.mp hc]
    exact builtIn_symmetric mem_cons_self
  keys := by
    intro idx hidx _ _
    rw [mem_singleton.mp hidx]
    rfl
  auto := by
    intro s hs
    rw [mem_singleton.mp hs]
    exact ⟨columnIndex 1, mem_singleton_self _, rfl, fun _ _ => rfl, fun _ _ => rfl, rfl⟩

theorem setTwenty_meets : MeetsRule pairMeta (setTwenty 1) pairState.table := by
  refine ⟨⟨fun e he => ?_, fun new _ hgone => ?_, fun new hnew _ i x _ hx hconflict => ?_⟩,
    fun _ _ => trivial⟩
  · cases he
  · cases hgone
  · exact finds_indexed pairMeta_lawful (slotsOf_eq_some.mp hx).1 hconflict

theorem pairMeta_twin : Twin pairMeta 0 wrPairMeta where
  ipk := rfl
  collation := fun _ => rfl
  unique := by simp [wrPairMeta, pairMeta, exists_or]
  standalone := rfl
  inIndex := fun _ hidx => (not_mem_nil hidx).elim
  keyValues := fun _ hidx => (not_mem_nil hidx).elim

theorem setTwenty_same : SameUpdate pairMeta 0 wrPairMeta (setTwenty 1) pairState.table where
  order := rfl
  stored := by decide
  selects := fun _ _ => rfl
  assign := fun _ _ => rfl
  passes := by
    intro p hp
    rw [mem_singleton.mp (show p ∈ [_] from hp)]
    exact ⟨⟨rfl, rfl, rfl⟩, 1, rfl⟩

theorem updateReplace_byRule_pair
    : Twin pairMeta 0 wrPairMeta ∧ SameUpdate pairMeta 0 wrPairMeta (setTwenty 1) pairState.table
      ∧ MeetsRule pairMeta (setTwenty 1) pairState.table
      ∧ StepsByRule pairMeta (setTwenty 1) pairState
      ∧ ∃ n s' slots, execUpdate pairMeta (setTwenty 1) pairState = .ok n s'
        ∧ LeftByRule pairMeta (setTwenty 1) pairState.table slots s'.table := by
  obtain ⟨hiff, hleft⟩ := updateReplace_byRule pairMeta_lawful (u := setTwenty 1) rfl
    (s := pairState) rfl (by unfold RowTable.ConflictFree; decide)
  obtain ⟨n, s', hrun, hrule⟩ := (hleft setTwenty_meets).2 _ rfl
  exact ⟨pairMeta_twin, setTwenty_same, setTwenty_meets, hiff.mpr setTwenty_meets, n, s', _, hrun,
    hrule⟩

def rowsLeft {σ α : Type} (rows : σ → α) : EStateM.Result DmlError σ Nat → Option α
  | .ok _ s => some (rows s)
  | .error _ _ => none

/-- Both rows are targets. Row 1 replaces row 2, which is then written again beside it: two rows
with the same `b`. The WITHOUT ROWID version is left with one row.
-/
theorem updateReplace_resurrects
    : rowsLeft (·.table.rows) (execUpdate pairMeta (setTwenty 2) pairState)
        = some [(1, [.integer 1, .integer 20]), (2, [.integer 2, .integer 20])]
      ∧ rowConflict pairMeta (1, [.integer 1, .integer 20]) (2, [.integer 2, .integer 20]) = true
      ∧ rowsLeft (·.rows) (execUpdateWithoutRowid wrPairMeta (setTwenty 2)
          { rows := pairState.table.rows.map (·.2), log := [] })
        = some [[.integer 1, .integer 20]] := by
  decide +kernel

end GraphiteSql.Dml
