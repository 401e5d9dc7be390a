import GraphiteSql.Dml.Keys
import GraphiteSql.Lib.Replacement

/-! UPDATE OR REPLACE on a WITHOUT ROWID table: with its flags for removed rows, the row loop visits
the rows by the rule.
-/

namespace GraphiteSql.Dml

open Lib.Replacement List

variable {m : TableMeta} {i : Nat} {slots : WrSlots} {row : Row} {u : Update}

def IndexMeta.wrConflict (idx : IndexMeta) (new old : Row) : Bool :=
  (idx.inIndex none new && !hasNull (idx.keyValues 0 new)) && (idx.inIndex none old
    && sameKey idx.collations (idx.keyValues 0 old) (idx.keyValues 0 new))

def wrConflict (m : TableMeta) (new old : Row) : Bool :=
  m.standalone.any (·.wrConflict new old) || m.unique.any fun s => setConflict m s.1 new old

/-- The rows of the violations are the existing rows that conflict. -/
theorem mem_wrConflicts {existing : List (Nat × Row)} {values : Row}
    : i ∈ (wrConflictsOrdered m existing values).flatMap (·.rows)
      ↔ ∃ row, (i, row) ∈ existing ∧ wrConflict m values row = true := by
  have hindex : ∀ idx : IndexMeta,
      i ∈ (if idx.inIndex none values && !hasNull (idx.keyValues 0 values)
      then (existing.filter fun r => idx.inIndex none r.2
        && sameKey idx.collations (idx.keyValues 0 r.2) (idx.keyValues 0 values)).map (·.1) else [])
      ↔ ∃ row, (i, row) ∈ existing ∧ idx.wrConflict values row = true := fun idx => by
    unfold IndexMeta.wrConflict
    split_ifs with hkeyed
    · simp [hkeyed]
    · simp [hkeyed]
  have hset : ∀ set : List Nat, i ∈ (if set.any fun i => values.getD i .null == .null then []
        else (existing.filter fun r => sameSet m set r.2 values).map (·.1))
      ↔ ∃ row, (i, row) ∈ existing ∧ setConflict m set values row = true := fun set => by
    unfold setConflict
    generalize (set.any fun i => values.getD i .null == .null) = null
    cases null <;> simp
  have hconflict : ∀ row, wrConflict m values row = true
      ↔ (∃ idx ∈ m.standalone, idx.wrConflict values row = true)
        ∨ ∃ s ∈ m.unique, setConflict m s.1 values row = true := fun row => by
    unfold wrConflict
    rw [Bool.or_eq_true, any_eq_true, any_eq_true]
  unfold wrConflictsOrdered
  simp only [flatMap_append, mem_append, mem_violations, hindex, hset, hconflict]
  constructor
  · intro h
    rcases h with ⟨idx, hidx, row, hrow, h⟩ | ⟨s, hs, row, hrow, h⟩
    · exact ⟨row, hrow, .inl ⟨idx, hidx, h⟩⟩
    · exact ⟨row, hrow, .inr ⟨s, hs, h⟩⟩
  intro ⟨row, hrow, h⟩
  rcases h with ⟨idx, hidx, h⟩ | ⟨s, hs, h⟩
  · exact .inl ⟨idx, hidx, row, hrow, h⟩
  · exact .inr ⟨s, hs, row, hrow, h⟩

namespace WrSlots

def row? (slots : WrSlots) (i : Nat) : Option Row :=
  (slots[i]?).bind fun p => if p.2 then none else some p.1

theorem row?_eq_some
    : slots.row? i = some row ↔ slots[i]? = some (row, false) := by
  unfold row?
  rw [Option.bind_eq_some_iff]
  constructor
  · intro ⟨⟨r, removed⟩, hslot, h⟩
    cases removed with
    | false =>
      cases h
      exact hslot
    | true => cases h
  · intro h
    exact ⟨_, h, rfl⟩

theorem mem_others {j : Nat}
    : (j, row) ∈ slots.others i ↔ j ≠ i ∧ slots.row? j = some row := by
  unfold others
  simp only [mem_map, mem_filter, Prod.exists, mem_zipIdx_iff_getElem?, row?_eq_some]
  constructor
  · intro ⟨r, removed, k, ⟨hslot, hkeep⟩, heq⟩
    cases heq
    simp only [Bool.and_eq_true, bne_iff_ne, Bool.not_eq_true'] at hkeep
    exact ⟨hkeep.1, hkeep.2 ▸ hslot⟩
  · intro ⟨hne, hslot⟩
    exact ⟨row, false, j, ⟨hslot, by simpa using hne⟩, rfl⟩

theorem mem_kept
    : row ∈ slots.kept ↔ ∃ i, slots.row? i = some row := by
  unfold kept
  simp only [mem_map, mem_filter, row?_eq_some]
  constructor
  · intro ⟨⟨r, removed⟩, ⟨hmem, hkeep⟩, heq⟩
    obtain ⟨i, hi⟩ := getElem?_of_mem hmem
    have hlive : removed = false := by simpa using hkeep
    rw [hlive] at hi
    cases heq
    exact ⟨i, hi⟩
  · intro ⟨i, hi⟩
    exact ⟨(row, false), ⟨mem_of_getElem? hi, rfl⟩, rfl⟩

theorem flag_length (removed : List Nat) (slots : WrSlots)
    : (removed.foldl (fun slots j => slots.modify j fun p => (p.1, true)) slots).length
      = slots.length := by
  induction removed generalizing slots with
  | nil => rfl
  | cons j removed ih => rw [foldl_cons, ih, length_modify]

theorem flag_getElem? (removed : List Nat) (slots : WrSlots) (k : Nat)
    : (removed.foldl (fun slots j => slots.modify j fun p => (p.1, true)) slots)[k]?
      = (slots[k]?).map fun p => if k ∈ removed then (p.1, true) else p := by
  induction removed generalizing slots with
  | nil => simp
  | cons j removed ih =>
    rw [foldl_cons, ih, getElem?_modify]
    cases slots[k]? with
    | none => rfl
    | some p => by_cases hk : k ∈ removed <;> by_cases hj : j = k <;> simp [hk, hj, @eq_comm _ k j]

theorem length_write (slots : WrSlots) (i : Nat) (row : Row) (removed : List Nat)
    : (slots.write i row removed).length = slots.length := by
  unfold write
  rw [length_set, flag_length]

theorem row?_write (hi : i < slots.length) (row : Row) (removed : List Nat) (j : Nat)
    : (slots.write i row removed).row? j
      = if j = i then some row else if j ∈ removed then none else slots.row? j := by
  unfold row? write
  rw [getElem?_set, flag_getElem?, flag_length]
  by_cases hj : j = i
  · simp [hj, hi]
  rw [if_neg (Ne.symm hj), if_neg hj]
  cases slots[j]? with
  | none => simp
  | some p => by_cases hmem : j ∈ removed <;> simp [hmem]

theorem row?_visit {old : Row} (hold : slots.row? i = some old) {removed : List Nat}
    (hremoved : ∀ j, j ∈ removed ↔ ∃ r, (j, r) ∈ slots.others i ∧ wrConflict m row r = true)
    : (slots.write i row removed).row? = visit (wrConflict m) slots.row? i row := by
  have hi : i < slots.length := (List.getElem?_eq_some_iff.mp (row?_eq_some.mp hold)).1
  funext j
  rw [row?_write hi, visit_of_some hold]
  by_cases hj : j = i
  · rw [if_pos hj, if_pos hj]
  have hiff : j ∈ removed ↔ ∃ r, slots.row? j = some r ∧ wrConflict m row r = true := by
    simp only [hremoved, mem_others, hj, ne_eq, not_false_eq_true, true_and]
  cases hrow : slots.row? j with
  | none => simp
  | some r =>
    rw [Option.filter_some]
    by_cases hc : wrConflict m row r = true <;> simp [hiff, hrow, hc]

end WrSlots

def WrPasses (m : TableMeta) (row : Row) : Prop :=
  checkPkNotNull m row = .ok () ∧ checkNotNull m.columns row = .ok () ∧ m.check none row = .ok ()

def wrVisits (u : Update) (todo : List (Row × Nat)) : List (Nat × Row) :=
  (todo.filter fun p => u.selects none p.1).map fun p => (p.2, u.assign none p.1)

theorem wrVisits_cons (u : Update) (p : Row × Nat) (rest : List (Row × Nat))
    : wrVisits u (p :: rest) = if u.selects none p.1 = true
      then (p.2, u.assign none p.1) :: wrVisits u rest else wrVisits u rest := by
  unfold wrVisits
  rw [filter_cons]
  split_ifs <;> rfl

theorem wrPlanUpdate_replace (hreplace : u.override = some .replace) {original : Row}
    (hselects : u.selects none original = true) (hpasses : WrPasses m (u.assign none original))
    : ∃ removed, wrPlanUpdate m u slots i original = .ok (some (u.assign none original, removed))
      ∧ ∀ j, j ∈ removed ↔ ∃ r, (j, r) ∈ slots.others i
          ∧ wrConflict m (u.assign none original) r = true := by
  obtain ⟨hpk, hnull, hcheck⟩ := hpasses
  obtain ⟨removed, hplan, hrows⟩ := resolveConflict_replace (m := m)
    (wrConflictsOrdered m (slots.others i) (u.assign none original))
    fun removed => (u.assign none original, removed)
  refine ⟨removed, ?_, fun j => (hrows j).trans mem_wrConflicts⟩
  unfold wrPlanUpdate
  rw [hselects, hreplace]
  dsimp only
  rw [hpk, hnull, hcheck]
  exact hplan

theorem wrPlanUpdate_other {original : Row} (hselects : u.selects none original ≠ true)
    : wrPlanUpdate m u slots i original = .ok none := by
  unfold wrPlanUpdate
  rw [Bool.eq_false_iff.mpr hselects]
  rfl

/-- The row loop visits the matching rows by the rule. -/
theorem wrUpdateRows_visits (hreplace : u.override = some .replace)
    {todo : List (Row × Nat)} (n : Nat) (s : WrState)
    (hpasses : ∀ p ∈ todo, u.selects none p.1 = true → WrPasses m (u.assign none p.1))
    (hbound : ∀ p ∈ todo, p.2 < slots.length)
    : ∃ slots' n' s', wrUpdateRows m u todo slots n s = .ok (slots', n') s'
      ∧ slots'.row? = visitAll (wrConflict m) slots.row? (wrVisits u todo)
      ∧ s'.rows = s.rows ∧ n ≤ n' ∧ (n' = n → slots' = slots) := by
  induction todo generalizing slots n s with
  | nil => exact ⟨slots, n, s, rfl, rfl, rfl, le_rfl, fun _ => rfl⟩
  | cons p rest ih =>
    obtain ⟨original, i⟩ := p
    have hrest := fun p hp => hpasses p (mem_cons_of_mem _ hp)
    have hi : i < slots.length := hbound _ mem_cons_self
    have hlater := fun p hp => hbound p (mem_cons_of_mem _ hp)
    unfold wrUpdateRows
    rw [wrVisits_cons]
    by_cases hremoved : (slots[i]?).any (·.2) = true
    · rw [if_pos hremoved]
      have hgone : slots.row? i = none := by
        unfold WrSlots.row?
        rw [getElem?_eq_getElem hi] at hremoved ⊢
        simpa using hremoved
      obtain ⟨slots', n', s', hrun, hrow, hkeep⟩ := ih n s hrest hlater
      refine ⟨slots', n', s', hrun, hrow.trans ?_, hkeep⟩
      split_ifs
      · rw [visitAll_cons, visit_of_none hgone]
      · rfl
    · rw [if_neg hremoved]
      by_cases hselects : u.selects none original = true
      · obtain ⟨removed, hplan, hmem⟩ := @wrPlanUpdate_replace m i slots u hreplace original
          hselects (hpasses _ mem_cons_self hselects)
        have hpresent : slots.row? i = some (slots.get ⟨i, hi⟩).1 := by
          unfold WrSlots.row?
          rw [getElem?_eq_getElem hi] at hremoved ⊢
          simpa using hremoved
        rw [hplan, if_pos hselects, visitAll_cons, ← WrSlots.row?_visit hpresent hmem]
        obtain ⟨slots', n', s', hrun, hrow, hrows, hle, -⟩ := ih (n + 1)
          { s with log := s.log ++ wrUpdateReports slots original (u.assign none original) removed }
          hrest fun p hp => (slots.length_write ..).symm ▸ hlater p hp
        exact ⟨slots', n', s', hrun, hrow, hrows, by omega, fun heq => by omega⟩
      · rw [wrPlanUpdate_other hselects, if_neg hselects]
        exact ih n s hrest hlater

/-- A WITHOUT ROWID table holds the rows of the rule after the statement. -/
theorem execUpdateWithoutRowid_visits (hreplace : u.override = some .replace) {s : WrState}
    (hpasses : ∀ row ∈ s.rows, u.selects none row = true → WrPasses m (u.assign none row))
    : ∃ n s', execUpdateWithoutRowid m u s = .ok n s'
      ∧ ∀ row, row ∈ s'.rows
        ↔ ∃ i, visitAll (wrConflict m) (s.rows[·]?) (wrVisits u s.rows.zipIdx) i = some row := by
  have hstart : WrSlots.row? (s.rows.map (·, false)) = (s.rows[·]?) := by
    funext i
    unfold WrSlots.row?
    rw [getElem?_map]
    cases s.rows[i]? <;> rfl
  have hkept : WrSlots.kept (s.rows.map (·, false)) = s.rows := by
    simp [WrSlots.kept, filter_map, Function.comp_def]
  have hzip : ∀ p ∈ s.rows.zipIdx, p.1 ∈ s.rows ∧ p.2 < s.rows.length := fun p hp => by
    have hget := mem_zipIdx_iff_getElem?.mp hp
    exact ⟨mem_of_getElem? hget, (List.getElem?_eq_some_iff.mp hget).1⟩
  obtain ⟨slots, n, s', hrun, hrow, hrows, -, hsame⟩ := @wrUpdateRows_visits m
    (s.rows.map (·, false)) u hreplace s.rows.zipIdx 0 s (fun p hp => hpasses p.1 (hzip p hp).1)
    (fun p hp => by simpa using (hzip p hp).2)
  rw [hstart] at hrow
  by_cases hn : 0 < n
  · refine ⟨n, { s' with rows := wrRewrite m slots.kept }, ?_, fun row => ?_⟩
    · unfold execUpdateWithoutRowid
      rw [Lib.estate_get_bind, Lib.estate_bind_ok hrun]
      dsimp only
      rw [if_pos hn]
      rfl
    · rw [← hrow]
      exact (mem_insertionSort _).trans WrSlots.mem_kept
  refine ⟨n, s', ?_, fun row => ?_⟩
  · unfold execUpdateWithoutRowid
    rw [Lib.estate_get_bind, Lib.estate_bind_ok hrun]
    dsimp only
    rw [if_neg hn]
    rfl
  · rw [← hrow, ← WrSlots.mem_kept, hsame (by omega), hkept, hrows]

end GraphiteSql.Dml
