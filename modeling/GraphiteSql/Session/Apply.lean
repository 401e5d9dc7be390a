import GraphiteSql.Lib.PointEdits
import GraphiteSql.Session.Emission

/-! What a changeset is for: each of its records is an edit of the row with one primary key. An
insertion requires that the row is absent, an update and a deletion that the row holds the old
values that are recorded.
-/

namespace GraphiteSql.Session

open Lib List

variable {fields : List (Option Value)} {row : List Value}

abbrev RowKey := Bytes × List Value

abbrev Rows := RowKey → Option (List Value)

def keyPositions (pkFlags : Bytes) : List Nat :=
  (List.range pkFlags.length).filter (isPk pkFlags)

def keyOf (pkFlags : Bytes) (row : List Value) : List Value :=
  (keyPositions pkFlags).map (row.getD · .null)

def recordKey (pkFlags : Bytes) (fields : List (Option Value)) : List Value :=
  keyOf pkFlags (fields.map (·.getD .null))

def agrees : List (Option Value) → List Value → Bool
  | [], [] => true
  | f :: fields, v :: row => (f == none || f == some v) && agrees fields row
  | _, _ => false

def overlay : List (Option Value) → List Value → List Value
  | f :: fields, v :: row => f.getD v :: overlay fields row
  | _, row => row

namespace ChangeRecord

def key (c : ChangeRecord) (pkFlags : Bytes) : List Value :=
  recordKey pkFlags (if c.op = .insert then c.new else c.old)

def act (c : ChangeRecord) (row : Option (List Value)) : Option (Option (List Value)) :=
  match c.op, row with
  | .insert, none => some (some (c.new.map (·.getD .null)))
  | .update, some row => if agrees c.old row then some (some (overlay c.new row)) else none
  | .delete, some row => if agrees c.old row then some none else none
  | _, _ => none

def edit (c : ChangeRecord) (name pkFlags : Bytes) : PointEdit RowKey (List Value) where
  key := (name, c.key pkFlags)
  act := c.act

end ChangeRecord

def TableChangeset.edits (g : TableChangeset) : List (PointEdit RowKey (List Value)) :=
  g.changes.map (·.edit g.name g.pkFlags)

def changesetEdits (groups : List TableChangeset) : List (PointEdit RowKey (List Value)) :=
  groups.flatMap TableChangeset.edits

/-- A row agrees with a record when it has every field of it that is present. -/
theorem agrees_iff
    : agrees fields row = true
      ↔ fields.length = row.length
        ∧ ∀ (p : Nat) (v : Value), fields[p]? = some (some v) → row[p]? = some v := by
  induction fields generalizing row with
  | nil => cases row <;> simp [agrees]
  | cons f fields ih =>
    cases row with
    | nil => simp [agrees]
    | cons v row =>
      simp only [agrees, Bool.and_eq_true, Bool.or_eq_true, beq_iff_eq, ih, length_cons,
        Nat.add_right_cancel_iff]
      constructor
      · intro ⟨hhead, hlen, hrest⟩
        refine ⟨hlen, fun p w hw => ?_⟩
        cases p with
        | zero =>
          cases hhead with
          | inl hnone => simp [hnone] at hw
          | inr hsome => simpa [hsome] using hw
        | succ p => exact hrest p w hw
      intro ⟨hlen, hall⟩
      refine ⟨?_, hlen, fun p w hw => hall (p + 1) w hw⟩
      cases f with
      | none => exact .inl rfl
      | some w =>
        have hhead := hall 0 w rfl
        exact .inr (congrArg some (Option.some.inj hhead).symm)

@[simp] theorem agrees_map_some (row : List Value)
    : agrees (row.map some) row = true := by
  induction row with
  | nil => rfl
  | cons v row ih => simp [agrees, ih]

theorem agrees_map_getD (fields : List (Option Value))
    : agrees fields (fields.map (·.getD .null)) = true := by
  induction fields with
  | nil => rfl
  | cons f fields ih => cases f <;> simp [agrees, ih]

/-- A complete record that agrees with a row is the row. -/
theorem map_getD_of_agrees (h : agrees fields row = true) (hcomplete : none ∉ fields)
    : fields.map (·.getD .null) = row := by
  obtain ⟨hlen, hagrees⟩ := agrees_iff.mp h
  refine ext_getElem? fun i => ?_
  rw [getElem?_map]
  cases hf : fields[i]? with
  | none =>
    rw [getElem?_eq_none_iff] at hf
    exact (getElem?_eq_none (hlen ▸ hf)).symm
  | some f =>
    cases f with
    | none => exact absurd (mem_of_getElem? hf) hcomplete
    | some v => exact (hagrees i v hf).symm

@[simp] theorem length_overlay (fields : List (Option Value)) (row : List Value)
    : (overlay fields row).length = row.length := by
  induction fields generalizing row with
  | nil => rfl
  | cons f fields ih => cases row <;> simp [overlay, ih]

theorem getElem?_overlay (fields : List (Option Value)) (row : List Value) (p : Nat)
    : (overlay fields row)[p]? = row[p]?.map fun v => (fields[p]?.join).getD v := by
  induction fields generalizing row p with
  | nil => simp [overlay]
  | cons f fields ih =>
    cases row with
    | nil => simp [overlay]
    | cons v row =>
      cases p with
      | zero => simp [overlay]
      | succ p => simpa [overlay] using ih row p

@[simp] theorem recordKey_map_some (pkFlags : Bytes) (row : List Value)
    : recordKey pkFlags (row.map some) = keyOf pkFlags row := by
  simp [recordKey]

/-- A numbered column of two records. -/
theorem getElem?_columns {α β : Type} (old : List α) (new : List β) (p : Nat)
    : (old.zip new).zipIdx[p]?
      = (old[p]?).bind fun o => (new[p]?).map fun n => ((o, n), p) := by
  rw [getElem?_zipIdx, zip, getElem?_zipWith]
  cases old[p]? with
  | none => rfl
  | some o => cases new[p]? <;> simp

theorem mem_keyPositions {pkFlags : Bytes} {p : Nat}
    : p ∈ keyPositions pkFlags ↔ p < pkFlags.length ∧ isPk pkFlags p = true := by
  simp [keyPositions]

/-- A record that agrees with a row and has all its key columns has the row's key. -/
theorem recordKey_of_agrees {pkFlags : Bytes} (hfields : agrees fields row = true)
    (hkey : ∀ p ∈ keyPositions pkFlags, ∃ v, fields[p]? = some (some v))
    : recordKey pkFlags fields = keyOf pkFlags row := by
  obtain ⟨-, hagree⟩ := agrees_iff.mp hfields
  refine map_congr_left fun p hp => ?_
  obtain ⟨v, hv⟩ := hkey p hp
  simp [getD_eq_getElem?_getD, hv, hagree p v hv]

end GraphiteSql.Session
