import GraphiteSql.Session.Groups

/-! Merging two changes of one row: the merged record does in one step what the two do one after
the other.
-/

namespace GraphiteSql.Session

open Lib List ChangeRecord

variable {pkFlags : Bytes} {c : ChangeRecord} {row changed : List Value}
  {row' : Option (List Value)}

def mergeFields (one two : List (Option Value)) : List (Option Value) :=
  List.zipWith (fun f g => g.or f) one two

def updateBetween (pkFlags : Bytes) (old new : List (Option Value)) : ChangeRecord where
  op := .update
  old := (old.zip new).zipIdx.map fun p =>
    if isPk pkFlags p.2 || p.1.1 != p.1.2 then p.1.1 else none
  new := (old.zip new).zipIdx.map fun p =>
    if isPk pkFlags p.2 || p.1.1 == p.1.2 then none else p.1.2

def mergedUpdate (pkFlags : Bytes) (old new : List (Option Value)) : Option ChangeRecord :=
  if (old.zip new).zipIdx.any (fun p => !isPk pkFlags p.2 && p.1.1 != p.1.2) then
    some (updateBetween pkFlags old new)
  else none

def mergeChange (pkFlags : Bytes) (e c : ChangeRecord) : Option ChangeRecord :=
  match e.op, c.op with
  | .insert, .delete => none
  | .insert, .update => some { op := .insert, old := [], new := mergeFields e.new c.new }
  | .delete, .insert => mergedUpdate pkFlags e.old c.new
  | .update, .update =>
      mergedUpdate pkFlags (mergeFields c.old e.old) (mergeFields e.new c.new)
  | .update, .delete => some { op := .delete, old := mergeFields c.old e.old, new := [] }
  | _, _ => some e

/-- What records need to be merged: full, complete, and with the key of their row only. -/
structure ChangeRecord.Mergeable (c : ChangeRecord) (pkFlags : Bytes) : Prop where
  full : c.Full pkFlags.length
  complete : c.Complete pkFlags
  sameKey : c.KeySame pkFlags

theorem getElem?_mergeFields (one two : List (Option Value)) (i : Nat)
    : (mergeFields one two)[i]?
      = (one[i]?).bind fun f => (two[i]?).map fun g => g.or f := by
  rw [mergeFields, getElem?_zipWith]
  cases one[i]? with
  | none => rfl
  | some f => cases two[i]? <;> rfl

-- The columns of an update

def ColumnStep (pkFlags : Bytes) (i : Nat) (o n : Option Value) (x y : Value) : Prop :=
  if isPk pkFlags i then o = some x ∧ (n = none ∨ n = some x) ∧ y = x
  else o = none ∧ n = none ∧ y = x ∨ o = some x ∧ n = some y

theorem ColumnStep.differs {i : Nat} {o n : Option Value} {x y : Value}
    (hstep : ColumnStep pkFlags i o n x y) (hpk : isPk pkFlags i = false)
    : o ≠ n ∧ o = some x ∧ n = some y ∨ o = n ∧ y = x := by
  rw [ColumnStep, hpk] at hstep
  rcases hstep with ⟨rfl, rfl, rfl⟩ | ⟨rfl, rfl⟩
  · exact .inr ⟨rfl, rfl⟩
  · by_cases hxy : x = y
    · exact .inr ⟨congrArg some hxy, hxy.symm⟩
    · exact .inl ⟨fun heq => hxy (Option.some.inj heq), rfl, rfl⟩

/-- The fields of an update that leads from `row` to `changed`. -/
structure Leads (pkFlags : Bytes) (old new : List (Option Value)) (row changed : List Value)
    : Prop where
  oldLength : old.length = pkFlags.length
  newLength : new.length = pkFlags.length
  rowLength : row.length = pkFlags.length
  changedLength : changed.length = pkFlags.length
  column : ∀ (i : Nat) (o n : Option Value) (x y : Value), old[i]? = some o → new[i]? = some n →
    row[i]? = some x → changed[i]? = some y → ColumnStep pkFlags i o n x y

variable {old new : List (Option Value)}

section

variable (h : Leads pkFlags old new row changed)

include h

/-- A column is there in all four, or in none. -/
theorem Leads.cases (i : Nat)
    : (old[i]? = none ∧ new[i]? = none ∧ row[i]? = none ∧ changed[i]? = none)
      ∨ ∃ o n x y, old[i]? = some o ∧ new[i]? = some n ∧ row[i]? = some x ∧ changed[i]? = some y
          ∧ ColumnStep pkFlags i o n x y := by
  have h₁ := h.oldLength
  have h₂ := h.newLength
  have h₃ := h.rowLength
  have h₄ := h.changedLength
  by_cases hi : i < pkFlags.length
  · have ho := getElem?_eq_getElem (show i < old.length by omega)
    have hn := getElem?_eq_getElem (show i < new.length by omega)
    have hx := getElem?_eq_getElem (show i < row.length by omega)
    have hy := getElem?_eq_getElem (show i < changed.length by omega)
    exact .inr ⟨_, _, _, _, ho, hn, hx, hy, h.column i _ _ _ _ ho hn hx hy⟩
  · simp only [getElem?_eq_none_iff]
    omega

/-- One update after another. -/
theorem Leads.trans {old' new' : List (Option Value)}
    {final : List Value} (h' : Leads pkFlags old' new' changed final)
    : Leads pkFlags (mergeFields old' old) (mergeFields new new') row final where
  oldLength := by simp [mergeFields, h.oldLength, h'.oldLength]
  newLength := by simp [mergeFields, h.newLength, h'.newLength]
  rowLength := h.rowLength
  changedLength := h'.changedLength
  column := fun i o n x z ho hn hx hz => by
    rw [getElem?_mergeFields] at ho hn
    obtain ⟨-, -, hnone, -⟩ | ⟨o₁, n₁, x₁, y₁, ho₁, hn₁, hx₁, hy₁, hstep⟩ := h.cases i
    · simp [hnone] at hx
    obtain ⟨-, -, hnone, -⟩ | ⟨o₂, n₂, x₂, y₂, ho₂, hn₂, hx₂, hy₂, hstep'⟩ := h'.cases i
    · simp [hnone] at hy₁
    simp only [ho₁, hn₁, ho₂, hn₂, Option.bind_some, Option.map_some, Option.some.injEq] at ho hn
    cases hx₁.symm.trans hx
    cases hy₂.symm.trans hz
    cases hy₁.symm.trans hx₂
    subst ho hn
    unfold ColumnStep at hstep hstep' ⊢
    split_ifs at hstep hstep' ⊢
    · obtain ⟨rfl, hn₁, rfl⟩ := hstep
      obtain ⟨-, hn₂, rfl⟩ := hstep'
      refine ⟨rfl, ?_, rfl⟩
      rcases hn₁ with rfl | rfl <;> rcases hn₂ with rfl | rfl <;> simp
    · rcases hstep with ⟨rfl, rfl, rfl⟩ | ⟨rfl, rfl⟩ <;>
        rcases hstep' with ⟨rfl, rfl, rfl⟩ | ⟨rfl, rfl⟩ <;> simp

theorem Leads.key
    : keyOf pkFlags changed = keyOf pkFlags row := by
  refine map_congr_left fun p hp => ?_
  obtain ⟨-, hpk⟩ := mem_keyPositions.mp hp
  obtain ⟨-, -, hx, hy⟩ | ⟨o, n, x, y, -, -, hx, hy, hstep⟩ := h.cases p
  · simp [getD_eq_getElem?_getD, hx, hy]
  · rw [ColumnStep, if_pos hpk] at hstep
    simp [getD_eq_getElem?_getD, hx, hy, hstep.2.2]

end

/-- An update that applies leads from the row to the changed row. -/
theorem leads_update (h : c.Mergeable pkFlags) (hop : c.op = .update)
    (hact : c.act (some row) = some (some changed))
    : Leads pkFlags c.old c.new row changed := by
  have hold : c.old.length = pkFlags.length := h.full.old (by simp [hop])
  have hnew : c.new.length = pkFlags.length := h.full.new (by simp [hop])
  simp only [act, hop] at hact
  split_ifs at hact with hagrees
  cases hact
  obtain ⟨hlen, hrow⟩ := agrees_iff.mp hagrees
  refine ⟨hold, hnew, hlen ▸ hold, by simp [← hlen, hold], fun i o n x y ho hn hx hy => ?_⟩
  have hcomplete := h.complete
  simp only [ChangeRecord.Complete, hop] at hcomplete
  have hfield := hcomplete i o n ho hn
  rw [getElem?_overlay, hx, hn] at hy
  simp only [Option.map_some, Option.join_some, Option.some.injEq] at hy
  have hox : ∀ v, o = some v → v = x := fun v hv => by
    have hv := hrow i v (ho.trans (congrArg some hv))
    exact Option.some.inj (hv.symm.trans hx)
  unfold UpdateField at hfield
  unfold ColumnStep
  split_ifs at hfield ⊢ with hpk
  · obtain ⟨v, rfl⟩ := Option.ne_none_iff_exists'.mp hfield
    cases hox v rfl
    cases n with
    | none => exact ⟨rfl, .inl rfl, hy.symm⟩
    | some w =>
      have hw := h.sameKey hop i w hpk hn
      rw [ho] at hw
      cases hw
      exact ⟨rfl, .inr rfl, hy.symm⟩
  cases o with
  | none =>
    cases hfield.mp rfl
    exact .inl ⟨rfl, rfl, hy.symm⟩
  | some v =>
    cases hox v rfl
    cases n with
    | none => cases hfield.mpr rfl
    | some w => exact .inr ⟨rfl, congrArg some hy⟩

-- What the merged records do

/-- `c` is a change of the row `key` that leads from `row` to `row'`. -/
structure ChangeRecord.Does (c : ChangeRecord) (pkFlags : Bytes) (key : List Value)
    (row row' : Option (List Value)) : Prop extends c.Mergeable pkFlags where
  keyed : c.key pkFlags = key
  acts : c.act row = some row'

/-- A merged change, or none where nothing is left to do. -/
structure MergeDoes (m : Option ChangeRecord) (pkFlags : Bytes) (key : List Value)
    (row row' : Option (List Value)) : Prop where
  change : ∀ c ∈ m, c.Does pkFlags key row row'
  nothing : m = none → row' = row

section Rows

variable (hrow : row.length = pkFlags.length)
include hrow

theorem insert_does
    : ({ op := .insert, old := [], new := row.map some } : ChangeRecord).Does pkFlags
        (keyOf pkFlags row) none (some row) where
  full := ⟨absurd rfl, fun _ => by simp [hrow]⟩
  complete := ⟨rfl, by simp⟩
  sameKey := nofun
  keyed := recordKey_map_some pkFlags row
  acts := by simp [act]

theorem delete_does
    : ({ op := .delete, old := row.map some, new := [] } : ChangeRecord).Does pkFlags
        (keyOf pkFlags row) (some row) none where
  full := ⟨fun _ => by simp [hrow], absurd rfl⟩
  complete := ⟨rfl, by simp⟩
  sameKey := nofun
  keyed := recordKey_map_some pkFlags row
  acts := by simp [act]

end Rows

/-- An update whose columns lead from one row to another does so. -/
theorem Leads.does (h : Leads pkFlags c.old c.new row changed) (hop : c.op = .update)
    : c.Does pkFlags (keyOf pkFlags row) (some row) (some changed) := by
  have hagrees : agrees c.old row = true := by
    refine agrees_iff.mpr ⟨h.oldLength.trans h.rowLength.symm, fun i v hv => ?_⟩
    obtain ⟨hnone, -⟩ | ⟨o, n, x, y, ho, -, hx, -, hstep⟩ := h.cases i
    · simp [hnone] at hv
    cases ho.symm.trans hv
    rw [hx]
    unfold ColumnStep at hstep
    split_ifs at hstep
    · exact hstep.1.symm
    · obtain ⟨hnone, -⟩ | ⟨hsome, -⟩ := hstep
      · cases hnone
      · exact hsome.symm
  have hoverlay : overlay c.new row = changed := by
    refine ext_getElem? fun i => ?_
    rw [getElem?_overlay]
    obtain ⟨-, -, hx, hy⟩ | ⟨o, n, x, y, -, hn, hx, hy, hstep⟩ := h.cases i
    · rw [hx, hy]
      rfl
    rw [hx, hy, hn]
    unfold ColumnStep at hstep
    split_ifs at hstep
    · obtain ⟨-, rfl | rfl, rfl⟩ := hstep <;> rfl
    · obtain ⟨-, rfl, rfl⟩ | ⟨-, rfl⟩ := hstep <;> rfl
  exact {
    full := ⟨fun _ => h.oldLength, fun _ => h.newLength⟩
    complete := by
      simp only [ChangeRecord.Complete, hop]
      intro i o n ho hn
      obtain ⟨hnone, -⟩ | ⟨o', n', x, y, ho', hn', -, -, hstep⟩ := h.cases i
      · simp [hnone] at ho
      cases ho'.symm.trans ho
      cases hn'.symm.trans hn
      unfold ColumnStep at hstep
      unfold UpdateField
      split_ifs at hstep ⊢
      · simp [hstep.1]
      · obtain ⟨rfl, rfl, -⟩ | ⟨rfl, rfl⟩ := hstep <;> simp
    sameKey := fun _ i v hpk hv => by
      obtain ⟨-, hnone, -⟩ | ⟨o, n, x, y, ho, hn, -, -, hstep⟩ := h.cases i
      · simp [hnone] at hv
      cases hn.symm.trans hv
      rw [ColumnStep, if_pos hpk] at hstep
      rw [ho, hstep.1, hstep.2.1.resolve_left nofun]
    keyed := by
      have hkey : c.key pkFlags = recordKey pkFlags c.old := by
        simp [ChangeRecord.key, hop]
      rw [hkey]
      refine recordKey_of_agrees hagrees fun p hp => ?_
      obtain ⟨hp, hpk⟩ := mem_keyPositions.mp hp
      obtain ⟨hnone, -⟩ | ⟨o, n, x, y, ho, -, -, -, hstep⟩ := h.cases p
      · rw [getElem?_eq_none_iff, h.oldLength] at hnone
        omega
      · rw [ColumnStep, if_pos hpk] at hstep
        exact ⟨x, by rw [ho, hstep.1]⟩
    acts := by simp only [act, hop, hagrees, if_true, hoverlay] }

section Merged

variable (h : Leads pkFlags old new row changed)
include h

theorem mergeFields_new
    : mergeFields (row.map some) new = changed.map some := by
  refine ext_getElem? fun i => ?_
  rw [getElem?_mergeFields, getElem?_map, getElem?_map]
  obtain ⟨-, hn, hx, hy⟩ | ⟨o, n, x, y, -, hn, hx, hy, hstep⟩ := h.cases i
  · rw [hx, hy]
    rfl
  rw [hx, hn, hy]
  unfold ColumnStep at hstep
  split_ifs at hstep
  · obtain ⟨-, rfl | rfl, rfl⟩ := hstep <;> rfl
  · obtain ⟨-, rfl, rfl⟩ | ⟨-, rfl⟩ := hstep <;> rfl

theorem mergeFields_old
    : mergeFields (changed.map some) old = row.map some := by
  refine ext_getElem? fun i => ?_
  rw [getElem?_mergeFields, getElem?_map, getElem?_map]
  obtain ⟨ho, -, hx, hy⟩ | ⟨o, n, x, y, ho, -, hx, hy, hstep⟩ := h.cases i
  · rw [hx, hy]
    rfl
  rw [hx, ho, hy]
  unfold ColumnStep at hstep
  split_ifs at hstep
  · obtain ⟨rfl, -, rfl⟩ := hstep
    rfl
  · obtain ⟨rfl, -, rfl⟩ | ⟨rfl, -⟩ := hstep <;> rfl

/-- Leaving out the columns that do not differ, and the new key, leads to the same row. -/
theorem leads_updateBetween
    : Leads pkFlags (updateBetween pkFlags old new).old (updateBetween pkFlags old new).new row
        changed where
  oldLength := by simp [updateBetween, h.oldLength, h.newLength]
  newLength := by simp [updateBetween, h.oldLength, h.newLength]
  rowLength := h.rowLength
  changedLength := h.changedLength
  column := fun i o' n' x y ho' hn' hx hy => by
    obtain ⟨-, -, hnone, -⟩ | ⟨o, n, x₁, y₁, ho, hn, hx₁, hy₁, hstep⟩ := h.cases i
    · simp [hnone] at hx
    cases hx₁.symm.trans hx
    cases hy₁.symm.trans hy
    simp only [updateBetween, getElem?_map, getElem?_columns, ho, hn, Option.bind_some,
      Option.map_some, Option.some.injEq] at ho' hn'
    subst ho' hn'
    cases hpk : isPk pkFlags i with
    | true =>
      rw [ColumnStep, if_pos hpk] at hstep ⊢
      exact ⟨hstep.1, .inl rfl, hstep.2.2⟩
    | false =>
      rw [ColumnStep, hpk]
      obtain ⟨hne, rfl, rfl⟩ | ⟨rfl, rfl⟩ := hstep.differs hpk
      · exact .inr (by simpa using hne)
      · exact .inl (by simp)

/-- The update between two records does what they lead to. -/
theorem mergedUpdate_does
    : MergeDoes (mergedUpdate pkFlags old new) pkFlags (keyOf pkFlags row) (some row)
      (some changed) := by
  unfold mergedUpdate
  split_ifs with hany
  · refine ⟨fun c hc => ?_, nofun⟩
    cases hc
    exact (leads_updateBetween h).does rfl
  refine ⟨nofun, fun _ => congrArg some ?_⟩
  refine ext_getElem? fun i => ?_
  obtain ⟨-, -, hx, hy⟩ | ⟨o, n, x, y, ho, hn, hx, hy, hstep⟩ := h.cases i
  · rw [hx, hy]
  rw [hx, hy]
  cases hpk : isPk pkFlags i with
  | true =>
    rw [ColumnStep, if_pos hpk] at hstep
    rw [hstep.2.2]
  | false =>
    obtain ⟨hne, -, -⟩ | ⟨-, rfl⟩ := hstep.differs hpk
    · refine absurd (any_eq_true.mpr ⟨((o, n), i), ?_, ?_⟩) hany
      · exact mem_of_getElem? (i := i) (by rw [getElem?_columns, ho, hn]; rfl)
      · simp [hpk, hne]
    · rfl

end Merged

/-- The changes a row admits, with the row before and after. -/
inductive Applied (pkFlags : Bytes) : ChangeRecord → Option (List Value) → Option (List Value)
    → Prop
  | insert {row : List Value} (length : row.length = pkFlags.length)
      : Applied pkFlags { op := .insert, old := [], new := row.map some } none (some row)
  | delete {row : List Value} (length : row.length = pkFlags.length)
      : Applied pkFlags { op := .delete, old := row.map some, new := [] } (some row) none
  | update {old new : List (Option Value)} {row changed : List Value}
      (leads : Leads pkFlags old new row changed)
      : Applied pkFlags { op := .update, old, new } (some row) (some changed)

theorem map_some_of_complete {fields : List (Option Value)} (h : none ∉ fields)
    : (fields.map (·.getD .null)).map some = fields := by
  rw [map_map]
  refine (map_congr_left fun f hf => ?_).trans (map_id fields)
  cases f with
  | none => exact absurd hf h
  | some v => rfl

theorem ChangeRecord.Mergeable.applied
    (h : c.Mergeable pkFlags) {row : Option (List Value)} (hact : c.act row = some row')
    : Applied pkFlags c row row' := by
  obtain ⟨op, old, new⟩ := c
  cases op with
  | insert =>
    obtain ⟨hold, hnew⟩ : old = [] ∧ none ∉ new := h.complete
    have hlen : new.length = pkFlags.length := h.full.new nofun
    cases row with
    | some row => cases hact
    | none =>
      cases hact
      have happlied := @Applied.insert pkFlags (new.map (·.getD .null)) (by simpa using hlen)
      rw [map_some_of_complete hnew] at happlied
      rwa [hold]
  | delete =>
    obtain ⟨hnew, hold⟩ : new = [] ∧ none ∉ old := h.complete
    have hlen : old.length = pkFlags.length := h.full.old nofun
    cases row with
    | none => cases hact
    | some row =>
      simp only [act] at hact
      split_ifs at hact with hrow
      cases hact
      cases map_getD_of_agrees hrow hold
      have happlied := @Applied.delete pkFlags (old.map (·.getD .null)) (by simpa using hlen)
      rw [map_some_of_complete hold] at happlied
      rwa [hnew]
  | update =>
    cases row with
    | none => cases hact
    | some row =>
      cases row' with
      | none =>
        simp only [act] at hact
        split_ifs at hact
        cases hact
      | some changed => exact .update (leads_update h rfl hact)

/-- The deleted and the inserted row of one key, as an update. -/
theorem leads_rows {row' : List Value} (hrow : row.length = pkFlags.length)
    (hrow' : row'.length = pkFlags.length) (hkey : keyOf pkFlags row' = keyOf pkFlags row)
    : Leads pkFlags (row.map some) (row'.map some) row row' where
  oldLength := by simpa using hrow
  newLength := by simpa using hrow'
  rowLength := hrow
  changedLength := hrow'
  column := fun i o n x y ho hn hx hy => by
    rw [getElem?_map, hx] at ho
    rw [getElem?_map, hy] at hn
    cases ho
    cases hn
    unfold ColumnStep
    split_ifs with hpk
    · have hp : i ∈ keyPositions pkFlags :=
        mem_keyPositions.mpr ⟨hrow ▸ (List.getElem?_eq_some_iff.mp hx).1, hpk⟩
      have hsame := map_inj_left.mp hkey i hp
      simp only [getD_eq_getElem?_getD, hx, hy, Option.getD_some] at hsame
      exact ⟨rfl, .inr (congrArg some hsame), hsame⟩
    · exact .inr ⟨rfl, rfl⟩

/-- The merge of two changes of a row does what they do one after the other. -/
theorem mergeChange_does {e : ChangeRecord} {key : List Value} {row mid : Option (List Value)}
    (he : e.Does pkFlags key row mid) (hc : c.Does pkFlags key mid row')
    : MergeDoes (mergeChange pkFlags e c) pkFlags key row row' := by
  have hone : ∀ {m : ChangeRecord} {k : List Value} {r r' : Option (List Value)},
      m.Does pkFlags k r r' → k = key → MergeDoes (some m) pkFlags key r r' := fun hm hk => by
    subst hk
    exact ⟨fun d hd => by cases hd; exact hm, nofun⟩
  have hekey := he.keyed
  have hckey := hc.keyed
  cases he.applied he.acts with
  | insert hlen =>
    rw [ChangeRecord.key, if_pos rfl, recordKey_map_some] at hekey
    cases hc.applied hc.acts with
    | delete => exact ⟨nofun, fun _ => rfl⟩
    | update leads =>
      simp only [mergeChange, mergeFields_new leads]
      exact hone (insert_does leads.changedLength) (leads.key.trans hekey)
  | delete hlen =>
    rw [ChangeRecord.key, if_neg nofun, recordKey_map_some] at hekey
    cases hc.applied hc.acts with
    | insert hlen' =>
      rw [ChangeRecord.key, if_pos rfl, recordKey_map_some] at hckey
      subst hekey
      exact mergedUpdate_does (leads_rows hlen hlen' hckey)
  | update leads =>
    have hkey := (leads.does (c := { op := .update, old := _, new := _ }) rfl).keyed
    have hrow := hkey.symm.trans hekey
    cases hc.applied hc.acts with
    | delete =>
      simp only [mergeChange, mergeFields_old leads]
      exact hone (delete_does leads.rowLength) hrow
    | update leads' =>
      subst hrow
      exact mergedUpdate_does (leads.trans leads')

end GraphiteSql.Session
