import GraphiteSql.Session.Inversion

/-! The inverse of a changeset undoes it, and inversion accepts only a little more than the
parser.
-/

namespace GraphiteSql.Session

open Lib List ChangeRecord

variable {pkFlags : Bytes} {groups : List Group}

section Update

variable {c : ChangeRecord} {ncol : Nat} (hop : c.op = .update)
  (hfull : c.Full ncol) (hcomplete : c.Complete pkFlags) (hsame : c.KeySame pkFlags)
  {row : List Value} (hrow : agrees c.old row = true)
include hop hfull hcomplete hsame hrow

/-- The columns of an update that applies to a row. -/
theorem update_column {i : Nat} {x : Value} (hx : row[i]? = some x)
    : ∃ o n, c.old[i]? = some o ∧ c.new[i]? = some n
      ∧ if isPk pkFlags i then o = some x ∧ n.getD x = x
        else (o = none ↔ n = none) ∧ (o = none ∨ o = some x) := by
  obtain ⟨hlen, hagrees⟩ := agrees_iff.mp hrow
  have hold : c.old.length = ncol := hfull.old (by simp [hop])
  have hnew : c.new.length = ncol := hfull.new (by simp [hop])
  have hi : i < row.length := (List.getElem?_eq_some_iff.mp hx).1
  obtain ⟨o, ho⟩ : ∃ o, c.old[i]? = some o := ⟨_, getElem?_eq_getElem (by omega)⟩
  obtain ⟨n, hn⟩ : ∃ n, c.new[i]? = some n := ⟨_, getElem?_eq_getElem (by omega)⟩
  have hfield : UpdateField pkFlags i o n := by
    simp only [ChangeRecord.Complete, hop] at hcomplete
    exact hcomplete i o n ho hn
  have hox : o = none ∨ o = some x := by
    cases o with
    | none => exact .inl rfl
    | some w =>
      have hw := hagrees i w ho
      rw [hx] at hw
      exact .inr hw.symm
  refine ⟨o, n, ho, hn, ?_⟩
  unfold UpdateField at hfield
  split_ifs at hfield ⊢ with hpk
  · have hkey := hox.resolve_left hfield
    refine ⟨hkey, ?_⟩
    cases n with
    | none => rfl
    | some w =>
      have hw := hsame hop i w hpk hn
      rw [ho, hkey] at hw
      cases hw
      rfl
  · exact ⟨hfield, hox⟩

theorem inverse_agrees
    : agrees (c.inverse pkFlags).old (overlay c.new row) = true := by
  have hlen := (agrees_iff.mp hrow).1
  have hold : c.old.length = ncol := hfull.old (by simp [hop])
  have hnew : c.new.length = ncol := hfull.new (by simp [hop])
  refine agrees_iff.mpr ⟨?_, fun i v hv => ?_⟩
  · rw [inverse_update hop, length_overlay]
    simp only [length_map, length_zipIdx, length_zip]
    omega
  rw [inverse_old hop] at hv
  rw [getElem?_overlay]
  cases hx : row[i]? with
  | none =>
    have hshort : c.old[i]? = none := by
      rw [getElem?_eq_none_iff] at hx ⊢
      omega
    simp [hshort] at hv
  | some x =>
    obtain ⟨o, n, ho, hn, hfield⟩ := update_column hop hfull hcomplete hsame hrow hx
    simp only [ho, hn, Option.bind_some, Option.map_some, Option.join_some,
      Option.some.injEq] at hv ⊢
    split_ifs at hv hfield
    · rw [hfield.2]
      exact Option.some.inj (hfield.1.symm.trans hv)
    · rw [hv, Option.getD_some]

theorem inverse_overlay
    : overlay (c.inverse pkFlags).new (overlay c.new row) = row := by
  refine ext_getElem? fun i => ?_
  rw [getElem?_overlay, getElem?_overlay, inverse_new hop]
  cases hx : row[i]? with
  | none => rfl
  | some x =>
    obtain ⟨o, n, ho, hn, hfield⟩ := update_column hop hfull hcomplete hsame hrow hx
    simp only [ho, hn, Option.map_some, Option.join_some]
    split_ifs at hfield ⊢
    · exact congrArg some hfield.2
    cases hfield.2 with
    | inl hnone =>
      rw [hnone, hfield.1.mp hnone]
      rfl
    | inr hsome =>
      rw [hsome]
      rfl

end Update

/-- The inverse of a record changes the row back. -/
theorem act_inverse {c : ChangeRecord} {ncol : Nat} (hfull : c.Full ncol)
    (hcomplete : c.Complete pkFlags) (hsame : c.KeySame pkFlags)
    {row row' : Option (List Value)} (h : c.act row = some row')
    : (c.inverse pkFlags).act row' = some row := by
  cases hop : c.op with
  | insert =>
    cases row with
    | some row => simp [act, hop] at h
    | none =>
      simp only [act, hop, Option.some.injEq] at h
      subst h
      simp [act, inverse, hop, agrees_map_getD]
  | delete =>
    cases row with
    | none => simp [act, hop] at h
    | some row =>
      simp only [act, hop] at h
      split_ifs at h with hrow
      cases h
      simp only [ChangeRecord.Complete, hop] at hcomplete
      simp [act, inverse, hop, map_getD_of_agrees hrow hcomplete.2]
  | update =>
    cases row with
    | none => simp [act, hop] at h
    | some row =>
      simp only [act, hop] at h
      split_ifs at h with hrow
      cases h
      have hact : (c.inverse pkFlags).op = .update := by rw [inverse_update hop]
      simp only [act, hact]
      rw [if_pos (inverse_agrees hop hfull hcomplete hsame hrow),
        inverse_overlay hop hfull hcomplete hsame hrow]

/-- The inverse of a record is for the same row. -/
theorem key_inverse {c : ChangeRecord} {ncol : Nat} (hfull : c.Full ncol)
    : (c.inverse pkFlags).key pkFlags = c.key pkFlags := by
  cases hop : c.op with
  | insert => simp [key, inverse, hop]
  | delete => simp [key, inverse, hop]
  | update =>
    have hold : c.old.length = ncol := hfull.old (by simp [hop])
    have hnew : c.new.length = ncol := hfull.new (by simp [hop])
    have hact : (c.inverse pkFlags).op = .update := by rw [inverse_update hop]
    unfold key
    rw [if_neg (by simp [hact]), if_neg (by simp [hop])]
    refine map_congr_left fun p hp => ?_
    obtain ⟨-, hpk⟩ := mem_keyPositions.mp hp
    simp only [getD_eq_getElem?_getD, getElem?_map, inverse_old hop, hpk, if_true]
    cases ho : c.old[p]? with
    | none => rfl
    | some o =>
      have hp : p < c.old.length := (List.getElem?_eq_some_iff.mp ho).1
      rw [getElem?_eq_getElem (show p < c.new.length by omega)]
      rfl

def groupEdits (groups : List Group) : List (PointEdit RowKey (List Value)) :=
  changesetEdits (groups.map Group.changeset)

theorem mem_groupEdits {e : PointEdit RowKey (List Value)}
    : e ∈ groupEdits groups
      ↔ ∃ g ∈ groups, ∃ p ∈ g.records, e = p.2.edit g.name g.pkFlags := by
  simp only [groupEdits, changesetEdits, mem_flatMap, mem_map, TableChangeset.edits,
    Group.changeset]
  constructor
  · intro ⟨_, ⟨g, hg, hgroup⟩, c, hc, hedit⟩
    subst hgroup
    obtain ⟨p, hp, rfl⟩ := mem_map.mp hc
    exact ⟨g, hg, p, hp, hedit.symm⟩
  · intro ⟨g, hg, p, hp, hedit⟩
    exact ⟨_, ⟨g, hg, rfl⟩, p.2, mem_map_of_mem hp, hedit.symm⟩

theorem keys_inverse (h : ∀ g ∈ groups, g.Written)
    : (groupEdits (groups.map Group.inverse)).map (·.key) = (groupEdits groups).map (·.key) := by
  unfold groupEdits changesetEdits
  simp only [map_map, map_flatMap, flatMap_map]
  refine flatMap_congr fun g hg => ?_
  simp only [Function.comp_def, TableChangeset.edits, Group.changeset, Group.inverse, map_map]
  refine map_congr_left fun p hp => ?_
  exact congrArg (Prod.mk g.name) (key_inverse ((h g hg).record hp).toFull)

/-- The inverse of sound groups with distinct rows undoes them. -/
theorem inverse_undoes (h : ∀ g ∈ groups, g.Sound)
    (hkey : ∀ g ∈ groups, ∀ p ∈ g.records, p.2.KeySame g.pkFlags)
    (hkeys : ((groupEdits groups).map (·.key)).Nodup) {rows rows' : Rows}
    (happly : PointEdit.applyAll (groupEdits groups) rows = some rows')
    : PointEdit.applyAll (groupEdits (groups.map Group.inverse)) rows' = some rows := by
  have hsame := keys_inverse fun g hg => (h g hg).toWritten
  have heffect := (PointEdit.applyAll_eq_some_iff hkeys).mp happly
  refine (PointEdit.applyAll_eq_some_iff (hsame ▸ hkeys)).mpr ⟨fun e he => ?_, fun k hk => ?_⟩
  · obtain ⟨g', hg', p', hp', rfl⟩ := mem_groupEdits.mp he
    obtain ⟨g, hg, rfl⟩ := mem_map.mp hg'
    obtain ⟨p, hp, rfl⟩ := mem_map.mp hp'
    have hsound := h g hg
    have hfull := (hsound.record hp).toFull
    have hact := heffect.accepted _ (mem_groupEdits.mpr ⟨g, hg, p, hp, rfl⟩)
    have hback := act_inverse hfull (hsound.complete p hp) (hkey g hg p hp) hact
    have hrow : (p.2.inverse g.pkFlags).key g.pkFlags = p.2.key g.pkFlags := key_inverse hfull
    simpa only [edit, Group.inverse, hrow] using hback
  · exact (heffect.others k (hsame ▸ hk)).symm

/-- Inverting twice gives the bytes back exactly if no update changes a key. -/
theorem inverse_inverse_bytes (h : ∀ g ∈ groups, g.Written)
    : ((groups.map Group.inverse).map Group.inverse).flatMap Group.bytes
      = groups.flatMap Group.bytes ↔ ∀ g ∈ groups, g.KeyKept := by
  have hrecord : ∀ g ∈ groups, ∀ p ∈ g.records,
      ((p.2.inverse g.pkFlags).inverse g.pkFlags = p.2 ↔ p.2.KeyKept g.pkFlags) :=
    fun g hg p hp => inverse_inverse ((h g hg).record hp).toFull ((h g hg).shaped p hp)
  constructor
  · intro hbytes
    have hwritten : ∀ g ∈ (groups.map Group.inverse).map Group.inverse, g.Written := fun g hg => by
      obtain ⟨g', hg', rfl⟩ := mem_map.mp hg
      obtain ⟨g₀, hg₀, rfl⟩ := mem_map.mp hg'
      exact written_inverse (written_inverse (h g₀ hg₀))
    have hparse := parseChangeset_groups hwritten
    rw [hbytes, parseChangeset_groups h] at hparse
    have hsame := Except.ok.inj hparse
    rw [map_map, map_map, map_inj_left] at hsame
    intro g hg p hp
    refine (hrecord g hg p hp).mp ?_
    have hchanges := congrArg TableChangeset.changes (hsame g hg)
    simp only [Function.comp_def, Group.changeset, Group.inverse, map_map,
      map_inj_left] at hchanges
    exact (hchanges p hp).symm
  · intro hkept
    have hsame : ∀ g ∈ groups, g.inverse.inverse = id g := fun g hg => by
      have hrecords : g.inverse.inverse.records = g.records := by
        refine (map_map ..).trans ((map_congr_left fun p hp => ?_).trans
          (map_id g.records))
        exact congrArg (Prod.mk p.1) ((hrecord g hg p hp).mpr (hkept g hg p hp))
      exact congrArg (Group.mk g.name g.ncol g.pkFlags) hrecords
    rw [map_map]
    exact congrArg (flatMap Group.bytes)
      ((map_congr_left hsame).trans (map_id groups))

section Emitted

variable {s : SessionState} {readRow : RowReader} (hname : ∀ t ∈ s.tables, GoodName t.name)
include hname

theorem emittedGroups_written (hreadable : ∀ g ∈ emittedGroups s readRow, g.changeset.Readable)
    : ∀ g ∈ emittedGroups s readRow, g.Written := by
  intro g hg
  obtain ⟨t, ht, hgroup⟩ := mem_filterMap.mp hg
  have hread := hreadable g hg
  unfold emitGroup at hgroup
  split_ifs at hgroup
  cases hgroup
  exact ⟨hname t ht, hread, emittedChanges_shaped⟩

theorem emittedGroups_sound (hreadable : ∀ g ∈ emittedGroups s readRow, g.changeset.Readable)
    : ∀ g ∈ emittedGroups s readRow, g.Sound := by
  intro g hg
  refine ⟨emittedGroups_written hname hreadable g hg, fun p hp => ?_⟩
  obtain ⟨t, -, hgroup⟩ := mem_filterMap.mp hg
  unfold emitGroup at hgroup
  split_ifs at hgroup
  cases hgroup
  obtain ⟨c, -, hc⟩ := mem_filterMap.mp hp
  obtain ⟨r, hr, rfl⟩ := Option.map_eq_some_iff.mp hc
  exact emitChange_complete hr

end Emitted

/-- Where inversion is right. A serialized changeset that can be read back is inverted; inverting
again gives it back exactly if no update changes a key; and then, if its records are for distinct
rows, the inverse undoes it. Bytes that are inverted parse exactly if they start with a header and
all their fields and names are known to the parser. A patchset is rejected.
-/
theorem invert_correct (s : SessionState) (readRow : RowReader)
    (hname : ∀ t ∈ s.tables, GoodName t.name)
    (hreadable : ∀ g ∈ emittedGroups s readRow, g.changeset.Readable) (c : Bytes)
    : (∃ d, invert (serialize s readRow) = .ok d
        ∧ (invert d = .ok (serialize s readRow) ↔ ∀ g ∈ emittedGroups s readRow, g.KeyKept)
        ∧ ((∀ g ∈ emittedGroups s readRow, g.KeyKept) →
            ((groupEdits (emittedGroups s readRow)).map (·.key)).Nodup →
            ∃ changes changes', parseChangeset (serialize s readRow) = .ok changes
              ∧ parseChangeset d = .ok changes'
              ∧ ∀ rows rows', PointEdit.applyAll (changesetEdits changes) rows = some rows' →
                  PointEdit.applyAll (changesetEdits changes') rows' = some rows))
      ∧ (∀ d, invert c = .ok d →
          ∃! items, Walk 0 c items
            ∧ ((∃ changes, parseChangeset c = .ok changes)
              ↔ HeaderFirst items ∧ ∀ i ∈ items, i.Known))
      ∧ (c.head? = some 0x50 → ∃ e, invert c = .error e) := by
  refine ⟨?_, fun d h => ?_, fun hc => ?_⟩
  · have hwritten := emittedGroups_written hname hreadable
    have hinverse : ∀ g ∈ (emittedGroups s readRow).map Group.inverse, g.Written := fun g hg => by
      obtain ⟨g', hg', rfl⟩ := mem_map.mp hg
      exact written_inverse (hwritten g' hg')
    rw [serialize_groups]
    refine ⟨_, invert_groups hwritten, ?_, fun hkept hkeys => ?_⟩
    · rw [invert_groups hinverse, Except.ok.injEq]
      exact inverse_inverse_bytes hwritten
    refine ⟨_, _, parseChangeset_groups hwritten, parseChangeset_groups hinverse, ?_⟩
    intro rows rows' happly
    refine inverse_undoes (emittedGroups_sound hname hreadable) (fun g hg p hp hop i v hpk hv => ?_)
      hkeys happly
    exact absurd hv (hkept g hg p hp hop i v hpk)
  · obtain ⟨items, hwalk⟩ := invert_walk h
    exact ⟨items, ⟨hwalk, hwalk.parse_iff⟩, fun items' h' => h'.1.unique hwalk⟩
  · cases c with
    | nil => cases hc
    | cons marker body =>
      cases hc
      exact ⟨_, rfl⟩

/-- An update of the row with the key 1 and a deletion of the row with the key 2. -/
def editSession : SessionState :=
  pairSession [
    { op := .update, pk := [.integer 1], old := [.integer 1, .text [0x61]], indirect := false },
    { op := .delete, pk := [.integer 2], old := [.integer 2, .null], indirect := false }]

/-- The inverse of an update and a deletion undoes them. -/
theorem invert_editSession
    : (∃ d changes changes', invert (serialize editSession (pairText [0x78])) = .ok d
        ∧ invert d = .ok (serialize editSession (pairText [0x78]))
        ∧ parseChangeset (serialize editSession (pairText [0x78])) = .ok changes
        ∧ parseChangeset d = .ok changes'
        ∧ ∀ rows rows', PointEdit.applyAll (changesetEdits changes) rows = some rows' →
            PointEdit.applyAll (changesetEdits changes') rows' = some rows)
      ∧ ∃ e, invert [0x50] = .error e := by
  obtain ⟨⟨d, hinvert, hagain, hundo⟩, -, hpatchset⟩ := invert_correct editSession
    (pairText [0x78]) pairSession_names (by decide) [0x50]
  have htwice : (invert (serialize editSession (pairText [0x78])) >>= invert)
      = .ok (serialize editSession (pairText [0x78])) := by decide +kernel
  rw [hinvert, except_ok_bind] at htwice
  obtain ⟨changes, changes', hparse⟩ := hundo (hagain.mp htwice) (by decide)
  exact ⟨⟨d, changes, changes', hinvert, htwice, hparse⟩, hpatchset rfl⟩

/-- A change record before any table header is inverted, and the parser rejects it. -/
theorem invert_accepts_headless_record
    : invert [opInsert, 0] = .ok [opDelete, 0]
      ∧ (parseChangeset [opInsert, 0]).toOption = none := by
  exact ⟨rfl, rfl⟩

end GraphiteSql.Session
