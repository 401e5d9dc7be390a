import GraphiteSql.Session.Tracking

/-! A changeset is the difference of two states: what a session emits at the end of a history
turns the state at its start into the state at its end.
-/

namespace GraphiteSql.Session

open Lib List Option ChangeRecord

variable {l : Layout} {start : TableRows} {t : TableChanges}

def inTable (table : Bytes) (rows : TableRows) : Rows :=
  fun key => if key.1 = table then rows key.2 else none

def readTable (table : Bytes) (rows : TableRows) : RowReader :=
  fun name pk => inTable table rows (name, pk)

/-- The same value, or the two zeros of a real: what the comparison of an update sees. -/
def SameValue (a b : Value) : Prop :=
  a = b ∨ a.partialEq b = true

/-- The same keys, and rows that are equal but for the sign of a zero. -/
def SameRows (rows rows' : Rows) : Prop :=
  ∀ key, Option.Rel (List.Forall₂ SameValue) (rows key) (rows' key)

-- The row an update leads to

/-- The new row, but with the old value of every column that compares equal. -/
def mergeRow (old row : List Value) : List Value :=
  List.zipWith (fun o n => if o.partialEq n then o else n) old row

/-- What applying the emitted change of a row leads to. -/
def settle : Option (List Value) → Option (List Value) → Option (List Value)
  | some old, some row => some (mergeRow old row)
  | _, row => row

theorem mergeRow_self (row : List Value)
    : mergeRow row row = row := by
  induction row with
  | nil => rfl
  | cons v row ih =>
    simp only [mergeRow, zipWith_cons_cons, ite_self] at ih ⊢
    rw [ih]

theorem settle_self (row : Option (List Value))
    : settle row row = row := by
  cases row with
  | none => rfl
  | some row => exact congrArg some (mergeRow_self row)

theorem forall₂_mergeRow {old row : List Value} (hlen : old.length = row.length)
    : List.Forall₂ SameValue (mergeRow old row) row := by
  induction old generalizing row with
  | nil =>
    cases row with
    | nil => exact .nil
    | cons n row => cases hlen
  | cons o old ih =>
    cases row with
    | nil => cases hlen
    | cons n row =>
      refine .cons ?_ (ih (Nat.succ.inj hlen))
      dsimp only
      split_ifs with heq
      · exact .inr heq
      · exact .inl rfl

theorem settle_same {rows : TableRows} (hstart : l.Keyed start)
    (hrows : l.Keyed rows) (k : List Value)
    : Option.Rel (List.Forall₂ SameValue) (settle (start k) (rows k)) (rows k) := by
  cases hrow : rows k with
  | none => cases start k <;> exact .none
  | some row =>
    cases hold : start k with
    | none => exact .some (forall₂_same.mpr fun _ _ => .inl rfl)
    | some old =>
      have hlen := (hstart k old hold).1.length.trans (hrows k row hrow).1.length.symm
      exact .some (forall₂_mergeRow hlen)

section Update

variable {pkFlags : Bytes} {old row : List Value} (hlen : old.length = row.length)

include hlen

theorem emitUpdate_agrees
    : agrees (emitUpdate (old.zip row).zipIdx pkFlags false).old old = true := by
  refine agrees_iff.mpr ⟨by simp [emitUpdate, hlen], fun p v hv => ?_⟩
  simp only [emitUpdate, getElem?_map, getElem?_columns] at hv
  cases ho : old[p]? with
  | none => simp [ho] at hv
  | some o =>
    cases hn : row[p]? with
    | none => simp [ho, hn] at hv
    | some n =>
      simp only [ho, hn, bind_some, map_some, Bool.false_eq_true, if_false,
        Option.some.injEq] at hv
      split_ifs at hv
      exact hv

theorem emitUpdate_key (hflags : old.length = pkFlags.length)
    : (emitUpdate (old.zip row).zipIdx pkFlags false).key pkFlags = keyOf pkFlags old := by
  change recordKey pkFlags (emitUpdate (old.zip row).zipIdx pkFlags false).old = _
  refine recordKey_of_agrees (emitUpdate_agrees hlen) fun p hp => ?_
  obtain ⟨hp, hpk⟩ := mem_keyPositions.mp hp
  have ho : p < old.length := hflags ▸ hp
  have hn : p < row.length := hlen ▸ ho
  refine ⟨old[p], ?_⟩
  simp only [emitUpdate, getElem?_map, getElem?_columns, getElem?_eq_getElem ho,
    getElem?_eq_getElem hn]
  simp [hpk]

theorem emitUpdate_overlay
    : overlay (emitUpdate (old.zip row).zipIdx pkFlags false).new old = mergeRow old row := by
  refine ext_getElem? fun p => ?_
  rw [getElem?_overlay]
  simp only [emitUpdate, getElem?_map, getElem?_columns, mergeRow, getElem?_zipWith]
  cases ho : old[p]? with
  | none => rfl
  | some o =>
    have hp : p < row.length := hlen ▸ (List.getElem?_eq_some_iff.mp ho).1
    rw [getElem?_eq_getElem hp]
    generalize row[p] = n
    simp only [map_some, bind_some, UpdateColumn.changed]
    by_cases heq : o.partialEq n = true <;> simp [heq]

theorem mergeRow_unchanged (hsame : ¬ (old.zip row).zipIdx.any UpdateColumn.changed = true)
    : mergeRow old row = old := by
  refine ext_getElem? fun p => ?_
  rw [mergeRow, getElem?_zipWith]
  cases ho : old[p]? with
  | none => rfl
  | some o =>
    have hp : p < row.length := hlen ▸ (List.getElem?_eq_some_iff.mp ho).1
    have hn := getElem?_eq_getElem hp
    have hcol : (old.zip row).zipIdx[p]? = some ((o, row[p]), p) := by
      rw [getElem?_columns, ho, hn]
      rfl
    have hequal : o.partialEq row[p] = true := by
      by_contra hne
      refine hsame (any_eq_true.mpr ⟨_, mem_of_getElem? hcol, ?_⟩)
      simpa [UpdateColumn.changed] using hne
    simp [hn, hequal]

end Update

section Rows

variable (hstart : l.Keyed start) {k old : List Value}
  (hold : start k = some old)
include hstart hold

theorem delete_settles
    : (∀ r ∈ some (emitDelete old l.pkFlags false),
        r.key l.pkFlags = k ∧ r.act (start k) = some (settle (start k) none))
      ∧ (some (emitDelete old l.pkFlags false) = none → settle (start k) none = start k) := by
  have hfields : (emitDelete old l.pkFlags false).old = old.map some := by
    refine ext_getElem? fun p => ?_
    cases ho : old[p]? <;> simp [emitDelete, ho]
  refine ⟨fun r hr => ?_, fun hnone => by cases hnone⟩
  cases hr
  have hkey : (emitDelete old l.pkFlags false).key l.pkFlags = recordKey l.pkFlags (old.map some) :=
    congrArg (recordKey l.pkFlags) hfields
  have hact : (emitDelete old l.pkFlags false).act (some old)
      = if agrees (emitDelete old l.pkFlags false).old old then some none else none := rfl
  rw [hkey, recordKey_map_some, (hstart k old hold).2, hold, hact, hfields, agrees_map_some]
  exact ⟨rfl, rfl⟩

theorem update_settles {row : List Value} (hrow : l.IsRow row)
    : (∀ r ∈ (if (old.zip row).zipIdx.any UpdateColumn.changed then
          some (emitUpdate (old.zip row).zipIdx l.pkFlags false) else none),
        r.key l.pkFlags = k ∧ r.act (start k) = some (settle (start k) (some row)))
      ∧ ((if (old.zip row).zipIdx.any UpdateColumn.changed then
          some (emitUpdate (old.zip row).zipIdx l.pkFlags false) else none) = none
        → settle (start k) (some row) = start k) := by
  obtain ⟨hisRow, hkey⟩ := hstart k old hold
  have hlen : old.length = row.length := hisRow.length.trans hrow.length.symm
  rw [hold]
  split_ifs with hchanged
  · refine ⟨fun r hr => ?_, fun hnone => by cases hnone⟩
    cases hr
    have hact : (emitUpdate (old.zip row).zipIdx l.pkFlags false).act (some old)
        = if agrees (emitUpdate (old.zip row).zipIdx l.pkFlags false).old old then
            some (some (overlay (emitUpdate (old.zip row).zipIdx l.pkFlags false).new old))
          else none := rfl
    rw [hact, emitUpdate_agrees hlen, emitUpdate_overlay hlen, emitUpdate_key hlen hisRow.length]
    exact ⟨hkey, rfl⟩
  · exact ⟨by simp, fun _ => congrArg some (mergeRow_unchanged hlen hchanged)⟩

end Rows

/-- The emitted record of a change leads from the row at the start to the settled one; if none
is emitted, they are the same.
-/
theorem emitChange_settles {rows : TableRows} (hstart : l.Keyed start) (hrows : l.Keyed rows)
    (hflags : t.pkFlags = l.pkFlags) {c : Change} (hc : c.Started start)
    : (∀ r ∈ emitChange t false (readTable t.name rows) c,
        r.key l.pkFlags = c.pk ∧ r.act (start c.pk) = some (settle (start c.pk) (rows c.pk)))
      ∧ (emitChange t false (readTable t.name rows) c = none
          → settle (start c.pk) (rows c.pk) = start c.pk) := by
  have hread : readTable t.name rows t.name c.pk = rows c.pk := by
    simp [readTable, inTable]
  have hkept : c.op ≠ .insert → start c.pk = some c.old := fun hop => by
    rw [hc, if_neg hop]
  unfold emitChange
  rw [hread, hflags]
  cases hrow : rows c.pk with
  | none =>
    cases hop : c.op with
    | insert =>
      have habsent : start c.pk = none := by rw [hc, if_pos hop]
      simp [habsent, settle]
    | update => exact delete_settles hstart (hkept (by simp [hop]))
    | delete => exact delete_settles hstart (hkept (by simp [hop]))
  | some row =>
    have hkeyed := hrows c.pk row hrow
    cases hop : c.op with
    | insert =>
      have habsent : start c.pk = none := by rw [hc, if_pos hop]
      simp [habsent, settle, key, act, hkeyed.2]
    | update => exact update_settles hstart (hkept (by simp [hop])) hkeyed.1
    | delete => exact update_settles hstart (hkept (by simp [hop])) hkeyed.1

-- The whole changeset

def emittedEdits (table pkFlags : Bytes) (emit : Change → Option ChangeRecord)
    (changes : List Change) : List (PointEdit RowKey (List Value)) :=
  (changes.filterMap emit).map (·.edit table pkFlags)

/-- If every emitted record edits the row of its change, the changeset has the effect of all. -/
theorem emittedEdits_effect {table pkFlags : Bytes} {emit : Change → Option ChangeRecord}
    {changes : List Change} {goal : TableRows} (hdistinct : (changes.map (·.pk)).Nodup)
    (hrecord : ∀ c ∈ changes, ∀ r ∈ emit c,
      r.key pkFlags = c.pk ∧ r.act (start c.pk) = some (goal c.pk))
    (hnone : ∀ c ∈ changes, emit c = none → goal c.pk = start c.pk)
    (huntouched : ∀ k, k ∉ changes.map (·.pk) → goal k = start k)
    : ((emittedEdits table pkFlags emit changes).map (·.key)).Nodup
      ∧ PointEdit.Effect (emittedEdits table pkFlags emit changes) (inTable table start)
          (inTable table goal) := by
  have hkeys : ((emittedEdits table pkFlags emit changes).map (·.key)).Sublist
      ((changes.map (·.pk)).map (Prod.mk table)) := by
    clear hdistinct hnone huntouched
    induction changes with
    | nil => exact .slnil
    | cons c rest ih =>
      have htail := ih fun d hd => hrecord d (mem_cons_of_mem _ hd)
      unfold emittedEdits at htail ⊢
      cases hemit : emit c with
      | none =>
        rw [filterMap_cons_none hemit]
        exact htail.cons _
      | some r =>
        have hkey := (hrecord c mem_cons_self r hemit).1
        simp only [filterMap_cons_some hemit, map_cons]
        rw [show (r.edit table pkFlags).key = (table, c.pk) from congrArg (Prod.mk table) hkey]
        exact htail.cons_cons _
  refine ⟨hkeys.nodup (hdistinct.map (Prod.mk_right_injective table)), fun e he => ?_,
    fun key hkey => ?_⟩
  · obtain ⟨r, hr, rfl⟩ := mem_map.mp he
    obtain ⟨c, hc, hemit⟩ := mem_filterMap.mp hr
    obtain ⟨hpk, hact⟩ := hrecord c hc r hemit
    simpa [edit, inTable, hpk] using hact
  obtain ⟨name, k⟩ := key
  by_cases hname : name = table
  · subst hname
    simp only [inTable, if_true]
    by_cases htouched : k ∈ changes.map (·.pk)
    · obtain ⟨c, hc, rfl⟩ := mem_map.mp htouched
      refine hnone c hc (eq_none_iff_forall_not_mem.mpr fun r hr => hkey ?_)
      refine mem_map.mpr ⟨r.edit name pkFlags, ?_, ?_⟩
      · exact mem_map_of_mem (mem_filterMap.mpr ⟨c, hc, hr⟩)
      · exact congrArg (Prod.mk name) (hrecord c hc r hr).1
    · exact huntouched k htouched
  · simp [inTable, hname]

/-- The edits of what is emitted for a table, which is nothing when no change is emitted. -/
theorem edits_emitTable (hhashed : t.Hashed) (readRow : RowReader)
    : changesetEdits (emitTable false readRow t).toList
      = emittedEdits t.name t.pkFlags (emitChange t false readRow) t.recorded := by
  have hcore : t.recorded.filterMap (emitChange t false readRow)
      = t.buckets.flatten.filterMap (emitChange t false readRow) := by
    rw [TableChanges.recorded, filterMap_map]
    rfl
  have hcount : t.isEmpty = true → t.buckets.flatten = [] := fun hempty => by
    rw [← length_eq_zero_iff, ← hhashed.counted]
    exact beq_iff_eq.mp hempty
  unfold emittedEdits emitTable
  rw [hcore]
  cases hempty : t.isEmpty with
  | true => simp [hcount hempty, changesetEdits]
  | false =>
    generalize t.buckets.flatten.filterMap (emitChange t false readRow) = changes
    cases changes <;> simp [changesetEdits, TableChangeset.edits]

/-- The edits of what a session emits for its one table. -/
theorem changesetEdits_emitted {table : Bytes} {s : SessionState}
    (h : Tracks table l s) (readRow : RowReader)
    : ∃ t : TableChanges, t.name = table ∧ t.pkFlags = l.pkFlags
      ∧ changesetEdits (emitted s false readRow)
        = emittedEdits table l.pkFlags (emitChange t false readRow) s.recorded := by
  cases h.single with
  | inl hnone =>
    refine ⟨{ name := table, ncol := 0, pkFlags := l.pkFlags, buckets := [], nentry := 0 },
      rfl, rfl, ?_⟩
    simp [emitted, changesetEdits, emittedEdits, SessionState.recorded, hnone]
  | inr hone =>
    obtain ⟨t, ht⟩ := hone
    obtain ⟨rfl, -, hflags, hhashed⟩ := h.fits t (by simp [ht])
    refine ⟨t, rfl, hflags, ?_⟩
    have hgroups : emitted s false readRow = (emitTable false readRow t).toList := by
      rw [emitted, ht]
      cases hemit : emitTable false readRow t <;> simp [hemit]
    have hrecorded : s.recorded = t.recorded := by
      simp [SessionState.recorded, ht]
    rw [hgroups, edits_emitTable hhashed, hflags, hrecorded]

/-- The changeset of a session at the end of a history changes every row at most once. Applied in
any order to the state at the start it gives the state at the end, except that an updated row keeps
the columns whose values compare equal: the two zeros of a real. Rows with a NULL in their key are
not tracked.
-/
theorem changeset_is_difference {table : Bytes} {l : Layout} {start rows : TableRows}
    {s : SessionState} {seen : List TableRows} (h : History table l start s seen rows)
    (hstart : l.Keyed start) (hnull : ∀ rows ∈ seen, KeysNotNull rows)
    : let groups := emittedGroups s (readTable table rows)
      let edits := changesetEdits (groups.map Group.changeset)
      let reached := inTable table fun k => settle (start k) (rows k)
      serialize s (readTable table rows) = groups.flatMap Group.bytes
      ∧ (edits.map (·.key)).Nodup
      ∧ (∀ order : List (PointEdit RowKey (List Value)), order.Perm edits →
          PointEdit.applyAll order (inTable table start) = some reached)
      ∧ SameRows reached (inTable table rows) := by
  have htracked := h.tracked hstart hnull
  have hrows := htracked.keyed rows h.last_mem
  obtain ⟨t, rfl, hflags, hedits⟩ :=
    changesetEdits_emitted htracked.toTracks (readTable table rows)
  have hsettles : ∀ c ∈ s.recorded, _ := fun c hc =>
    emitChange_settles hstart hrows hflags (htracked.started c hc)
  have huntouched : ∀ k, k ∉ s.touched → settle (start k) (rows k) = start k := fun k hk => by
    rw [htracked.untouched rows h.last_mem k hk, settle_self]
  obtain ⟨hkeys, heffect⟩ := emittedEdits_effect htracked.distinct
    (fun c hc => (hsettles c hc).1) (fun c hc => (hsettles c hc).2) huntouched
  dsimp only
  rw [← emitted_groups, hedits]
  refine ⟨serialize_groups _ _, hkeys, fun order horder => heffect.applyAll_perm horder hkeys,
    fun key => ?_⟩
  unfold inTable
  split_ifs
  · exact settle_same hstart hrows key.2
  · exact .none

def emptySession : SessionState where
  enabled := true
  attachAll := true
  attached := []
  indirectMode := false
  tables := []

-- The rows of a table `t(a INTEGER PRIMARY KEY, b)`

def intKey : Layout where
  pkFlags := [1, 0]
  ipk := some 0

def pairRow (a : Int64) (b : Value) : List Value :=
  [.integer a, b]

def storePair (rows : TableRows) (a : Int64) (b : Value) : TableRows :=
  Function.update rows [.integer a] (some (pairRow a b))

theorem isRow_pairRow (a : Int64) (b : Value) : intKey.IsRow (pairRow a b) :=
  ⟨rfl, fun p hp _ => by cases hp; exact ⟨a, rfl⟩⟩

theorem KeysNotNull.update {rows : TableRows} (h : KeysNotNull rows) (a : Int64)
    (row : Option (List Value)) : KeysNotNull (Function.update rows [.integer a] row) := by
  intro k hk
  rw [Function.update_apply] at hk
  split_ifs at hk with hkey
  · simp [hkey]
  · exact h k hk

theorem keysNotNull_empty : KeysNotNull fun _ => none :=
  fun _ hk => absurd rfl hk

/-- The rows `(1, 'a')` and `(2, 'b')`. -/
def twoPairs : TableRows :=
  storePair (storePair (fun _ => none) 1 (.text [0x61])) 2 (.text [0x62])

/-- `UPDATE t SET b = 'x' WHERE a = 1` and `DELETE FROM t WHERE a = 2`, in a new session. -/
def editedSession : SessionState :=
  let updated := recordSessionChange emptySession [0x74] intKey .update 1
    (some (pairRow 1 (.text [0x61]))) (some (pairRow 1 (.text [0x78]))) false
  recordSessionChange updated [0x74] intKey .delete 2 (some (pairRow 2 (.text [0x62]))) none false

def editedPairs : TableRows :=
  Function.update (storePair (Function.update twoPairs [.integer 1] none) 1 (.text [0x78]))
    [.integer 2] none

theorem changeset_is_difference_edited
    : let edits := changesetEdits
        ((emittedGroups editedSession (readTable [0x74] editedPairs)).map Group.changeset)
      edits.map (·.key) = [([0x74], [.integer 1]), ([0x74], [.integer 2])]
      ∧ PointEdit.applyAll edits (inTable [0x74] twoPairs)
        = some (inTable [0x74] fun k => settle (twoPairs k) (editedPairs k)) := by
  have hkeyed : intKey.Keyed twoPairs :=
    (Layout.Keyed.store (fun _ _ hkey => by cases hkey) (isRow_pairRow 1 _)).store
      (isRow_pairRow 2 _)
  have hstart : KeysNotNull twoPairs := (keysNotNull_empty.update 1 _).update 2 _
  have hattach : History [0x74] intKey twoPairs emptySession [twoPairs] twoPairs :=
    .attach rfl (.inl rfl) rfl
  have hupdate := hattach.update (isRow_pairRow 1 (.text [0x78]))
    (show twoPairs _ = some (pairRow 1 (.text [0x61])) by decide) (.inl rfl) 1 false
  have h := changeset_is_difference (hupdate.delete
    (show _ = some (pairRow 2 (.text [0x62])) by decide) 2 false) hkeyed (by
      refine forall_mem_cons.mpr ⟨?_, forall_mem_cons.mpr ⟨?_, forall_mem_singleton.mpr hstart⟩⟩
      · exact ((hstart.update 1 _).update 1 _).update 2 _
      · exact (hstart.update 1 _).update 1 _)
  exact ⟨by decide +kernel, h.2.2.1 _ (.refl _)⟩

/-- `INSERT INTO t(a, b) VALUES (NULL, 'x')` into `t(a TEXT PRIMARY KEY, b)`. -/
def nullKeySession : SessionState :=
  recordSessionChange emptySession [0x74] { pkFlags := [1, 0], ipk := none } .insert 1 none
    (some [.null, .text [0x78]]) false

/-- `UPDATE t SET b = -0.0 WHERE a = 1`, where `b` is `0.0`. -/
def zeroSession : SessionState :=
  recordSessionChange emptySession [0x74] intKey .update 1 (some (pairRow 1 (.real ⟨0⟩)))
    (some (pairRow 1 (.real ⟨0x8000000000000000⟩))) false

/-- A row with a NULL key is inserted, or a zero changes its sign, and the changeset is empty. -/
theorem null_key_row_not_in_changeset
    : (let l : Layout := { pkFlags := [1, 0], ipk := none }
      let rows : TableRows := Function.update (fun _ => none) [.null] (some [.null, .text [0x78]])
      (∃ seen, History [0x74] l (fun _ => none) nullKeySession seen rows)
      ∧ serialize nullKeySession (readTable [0x74] rows) = []
      ∧ emittedGroups nullKeySession (readTable [0x74] rows) = []
      ∧ rows [.null] = some [.null, .text [0x78]])
      ∧ let start := storePair (fun _ => none) 1 (.real ⟨0⟩)
        let rows :=
          storePair (Function.update start [.integer 1] none) 1 (.real ⟨0x8000000000000000⟩)
        (∃ seen, History [0x74] intKey start zeroSession seen rows
          ∧ ∀ rows ∈ seen, KeysNotNull rows)
        ∧ serialize zeroSession (readTable [0x74] rows) = []
        ∧ rows [.integer 1] ≠ start [.integer 1] := by
  have hrow : Layout.IsRow { pkFlags := [1, 0], ipk := none } [.null, .text [0x78]] :=
    ⟨rfl, fun p hp => by cases hp⟩
  have hattach : ∀ l start, History [0x74] l start emptySession [start] start :=
    fun _ _ => .attach rfl (.inl rfl) rfl
  have hsameKey : Layout.pkValues { pkFlags := [1, 0], ipk := none } 1 [.null, .text [0x78]]
      = some (keyOf [1, 0] [.null, .text [0x78]]) := by decide
  refine ⟨⟨⟨_, (hattach _ _).insert hrow rfl hsameKey false⟩, rfl, rfl, by simp⟩, ?_⟩
  have hstart := keysNotNull_empty.update 1 (some (pairRow 1 (.real ⟨0⟩)))
  have hupdate := (hattach intKey (storePair (fun _ => none) 1 (.real ⟨0⟩))).update
    (isRow_pairRow 1 (.real ⟨0x8000000000000000⟩))
    (show _ = some (pairRow 1 (.real ⟨0⟩)) by decide) (.inl rfl) 1 false
  refine ⟨⟨_, hupdate, ?_⟩, by decide +kernel, by decide⟩
  exact forall_mem_cons.mpr ⟨(hstart.update 1 _).update 1 _, forall_mem_singleton.mpr hstart⟩

end GraphiteSql.Session
