import GraphiteSql.Session.Absorbing
import GraphiteSql.Session.Difference

/-! Concatenation is sequential composition: two changesets that apply one after the other become
one that changes every row once and leads to the same rows.
-/

namespace GraphiteSql.Session

open Lib List

variable {schema : Schema} {groups : List Group}

theorem Holds.output {t : ConcatTable} {g : Group} {chains : List (List (Bool × ChangeRecord))}
    (h : Holds t g chains)
    : t.output = if g.records = [] then [] else g.bytes := by
  have hflat : t.buckets.flatten = g.records.map (encodeChange g.pkFlags) := by
    rw [h.buckets, h.records, map_flatten]
  unfold ConcatTable.output
  rw [h.counted, h.hdr, hflat, flatMap_map]
  exact ite_congr (propext length_eq_zero_iff) (fun _ => rfl) fun _ => rfl

def nonempty (groups : List Group) : List Group :=
  groups.filter fun g => !g.records.isEmpty

theorem nonempty_cons (g : Group) (groups : List Group)
    : nonempty (g :: groups)
      = if g.records = [] then nonempty groups else g :: nonempty groups := by
  rw [nonempty, filter_cons]
  cases g.records <;> rfl

theorem nonempty_bytes (groups : List Group)
    : groups.flatMap (fun g => if g.records = [] then [] else g.bytes)
      = (nonempty groups).flatMap Group.bytes := by
  induction groups with
  | nil => rfl
  | cons g groups ih =>
    rw [flatMap_cons, ih, nonempty_cons]
    split_ifs <;> simp

theorem nonempty_edits (groups : List Group)
    : groupEdits (nonempty groups) = groupEdits groups := by
  induction groups with
  | nil => rfl
  | cons g groups ih =>
    rw [groupEdits_cons, ← ih, nonempty_cons]
    split_ifs with hempty
    · simp [hempty]
    · rw [groupEdits_cons]

namespace Collected

variable {start now : Rows} {tables : List ConcatTable}
  (h : Collected schema start now tables groups)
include h

theorem output
    : tables.flatMap ConcatTable.output = (nonempty groups).flatMap Group.bytes := by
  have hmap : tables.map ConcatTable.output
      = groups.map fun g => if g.records = [] then [] else g.bytes := by
    refine ext_getElem? fun i => ?_
    rw [getElem?_map, getElem?_map]
    cases ht : tables[i]? with
    | none =>
      rw [getElem?_eq_none_iff, h.length, ← getElem?_eq_none_iff] at ht
      rw [ht]
      rfl
    | some t =>
      obtain ⟨g, chains, hg, hholds⟩ := h.group ht
      rw [hg, Option.map_some, Option.map_some, hholds.output]
  rw [← nonempty_bytes, flatMap_def, flatMap_def, hmap]

theorem held {g : Group} (hg : g ∈ groups)
    : ∃ t chains, Holds t g chains := by
  obtain ⟨i, hi⟩ := getElem?_of_mem hg
  have hlt : i < tables.length := h.length ▸ (List.getElem?_eq_some_iff.mp hi).1
  obtain ⟨chains, hholds⟩ := h.holds i _ g (getElem?_eq_getElem hlt) hi
  exact ⟨_, chains, hholds⟩

theorem fits
    : Fits schema (nonempty groups) where
  shapes g hg := h.shapes g (mem_of_mem_filter hg)
  sound g hg := by
    obtain ⟨t, chains, hholds⟩ := h.held (mem_of_mem_filter hg)
    exact {
      name := hholds.headed.name
      readable := {
        columns := hholds.headed.columns
        fits := hholds.headed.fits
        flags := hholds.headed.flags
        changes := fun c hc => by
          obtain ⟨p, hp, rfl⟩ := mem_map.mp hc
          have hread := (hholds.collectable p hp).readable
          rwa [hholds.headed.flags] at hread }
      shaped := fun p hp => (hholds.collectable p hp).shaped
      complete := fun p hp => (hholds.collectable p hp).complete }

theorem keys_nodup
    : ((groupEdits groups).map (·.key)).Nodup := by
  rw [groupEdits_eq, map_flatMap, nodup_flatMap]
  refine ⟨fun g hg => ?_, (pairwise_map.mp h.names).imp fun {g g'} hne k hk hk' => ?_⟩
  · obtain ⟨t, chains, hholds⟩ := h.held hg
    have hkeys : g.edits.map (·.key)
        = (g.records.map (entryKey g.pkFlags)).map (Prod.mk g.name) := by
      rw [Group.edits, map_map, map_map]
      rfl
    rw [hkeys]
    exact hholds.distinct.map (Prod.mk_right_injective g.name)
  · exact hne ((mem_edits_name hk).symm.trans (mem_edits_name hk'))

end Collected

/-- `out` is the concatenation, and it leads from `rows` to `rows'`. -/
structure Composes (schema : Schema) (first second : List Group) (rows rows' : Rows)
    (out : List Group) : Prop where
  concat : concat (first.flatMap Group.bytes) (second.flatMap Group.bytes)
    = .ok (out.flatMap Group.bytes)
  fits : Fits schema out
  distinct : ((groupEdits out).map (·.key)).Nodup
  applies : PointEdit.applyAll (groupEdits out) rows = some rows'

/-- Concatenation composes groups that apply one after the other. -/
theorem concat_composes {first second : List Group} (hfirst : Fits schema first)
    (hsecond : Fits schema second) {rows mid rows' : Rows}
    (happly : PointEdit.applyAll (groupEdits first) rows = some mid)
    (happly' : PointEdit.applyAll (groupEdits second) mid = some rows')
    (hkeyed : KeyedRows schema rows')
    : ∃ out, Composes schema first second rows rows' out := by
  obtain ⟨hmid, hsame'⟩ := hsecond.keySame happly' hkeyed
  obtain ⟨-, hsame⟩ := hfirst.keySame happly hmid
  obtain ⟨tables₁, groups₁, hc₁, habsorbs₁⟩ :=
    (collected_nil schema rows).groups hfirst hsame happly none
  obtain ⟨tables₂, groups₂, hc₂, habsorbs₂⟩ := hc₁.groups hsecond hsame' happly' none
  have hkeys := hc₂.keys_nodup
  refine ⟨nonempty groups₂, ?_, hc₂.fits, ?_, ?_⟩
  · have hrun₁ := habsorbs₁ _ (Nat.lt_succ_self _)
    have hrun₂ := habsorbs₂ _ (Nat.lt_succ_self _)
    simp only [Session.concat, concatAbsorb, hrun₁, hrun₂, except_ok_bind]
    rw [hc₂.output]
    rfl
  · rwa [nonempty_edits]
  · rw [nonempty_edits]
    exact (PointEdit.applyAll_eq_some_iff hkeys).mpr hc₂.effect

/-- What a session emits can be read back: good table names, and only readable records. -/
structure ReadBack (s : SessionState) (readRow : RowReader) : Prop where
  names : ∀ t ∈ s.tables, GoodName t.name
  groups : ∀ g ∈ emittedGroups s readRow, g.changeset.Readable

theorem Fits.parse (h : Fits schema groups)
    : parseChangeset (groups.flatMap Group.bytes) = .ok (groups.map Group.changeset) :=
  parseChangeset_groups fun g hg => (h.sound g hg).toWritten

theorem Fits.changesetApplies {db db' : Database}
    (h : Fits db.schema groups) (hschema : db'.schema = db.schema)
    (happly : PointEdit.applyAll (groupEdits groups) db.rows = some db'.rows)
    : ChangesetApplies (groups.flatMap Group.bytes) db db' := by
  refine ⟨_, h.parse, hschema, fun c hc => ?_, happly⟩
  obtain ⟨g, hg, rfl⟩ := mem_map.mp hc
  exact h.shapes g hg

/-- A serialized changeset that applies is that of groups that do. -/
theorem ReadBack.applies {s : SessionState} {readRow : RowReader} (h : ReadBack s readRow)
    {db db' : Database} (happlies : ChangesetApplies (serialize s readRow) db db')
    : Fits db.schema (emittedGroups s readRow) ∧ db'.schema = db.schema
      ∧ PointEdit.applyAll (groupEdits (emittedGroups s readRow)) db.rows = some db'.rows := by
  obtain ⟨changes, hparse, hschema, hshapes, hrows⟩ := happlies
  have hsound := emittedGroups_sound h.names h.groups
  rw [serialize_groups, parseChangeset_groups fun g hg => (hsound g hg).toWritten] at hparse
  cases hparse
  exact ⟨⟨fun g hg => hshapes _ (mem_map_of_mem hg), hsound⟩, hschema, hrows⟩

/-- Where concatenation is sequential composition. Let two serialized changesets that can be read
back apply one after the other. Then their concatenation changes every row at most once and leads
to the same rows. Three of them may be concatenated either way round, and a changeset for distinct
rows with its inverse has no effect.
-/
theorem concat_sequential {sa sb : SessionState} {ra rb : RowReader} (ha : ReadBack sa ra)
    (hb : ReadBack sb rb) {db db₁ db₂ : Database}
    (happly : ChangesetApplies (serialize sa ra) db db₁)
    (happly' : ChangesetApplies (serialize sb rb) db₁ db₂)
    : (∃ ab changes, concat (serialize sa ra) (serialize sb rb) = .ok ab
        ∧ parseChangeset ab = .ok changes ∧ ((changesetEdits changes).map (·.key)).Nodup
        ∧ ChangesetApplies ab db db₂)
      ∧ (∀ {sc : SessionState} {rc : RowReader} {db₃ : Database}, ReadBack sc rc →
          ChangesetApplies (serialize sc rc) db₂ db₃ →
          ∃ ab bc left right, concat (serialize sa ra) (serialize sb rb) = .ok ab
            ∧ concat (serialize sb rb) (serialize sc rc) = .ok bc
            ∧ concat ab (serialize sc rc) = .ok left ∧ concat (serialize sa ra) bc = .ok right
            ∧ ChangesetApplies left db db₃ ∧ ChangesetApplies right db db₃)
      ∧ (((groupEdits (emittedGroups sa ra)).map (·.key)).Nodup →
          ∃ inverse both, invert (serialize sa ra) = .ok inverse
            ∧ concat (serialize sa ra) inverse = .ok both ∧ ChangesetApplies both db db) := by
  obtain ⟨hfits, hschema, hrows⟩ := ha.applies happly
  obtain ⟨hfits', hschema', hrows'⟩ := hb.applies happly'
  rw [hschema] at hfits' hschema'
  have hkeyed₂ : KeyedRows db.schema db₂.rows := hschema' ▸ db₂.keyed
  have hkeyed₁ : KeyedRows db.schema db₁.rows := hschema ▸ db₁.keyed
  obtain ⟨ab, hab⟩ := concat_composes hfits hfits' hrows hrows' hkeyed₂
  rw [serialize_groups, serialize_groups]
  refine ⟨⟨_, _, hab.concat, hab.fits.parse, hab.distinct,
    hab.fits.changesetApplies hschema' hab.applies⟩, fun {sc rc db₃} hc happly'' => ?_,
    fun hdistinct => ?_⟩
  · obtain ⟨hfits'', hschema'', hrows''⟩ := hc.applies happly''
    rw [hschema'] at hfits'' hschema''
    have hkeyed₃ : KeyedRows db.schema db₃.rows := hschema'' ▸ db₃.keyed
    obtain ⟨bc, hbc⟩ := concat_composes hfits' hfits'' hrows' hrows'' hkeyed₃
    obtain ⟨left, hleft⟩ := concat_composes hab.fits hfits'' hab.applies hrows'' hkeyed₃
    obtain ⟨right, hright⟩ := concat_composes hfits hbc.fits hrows hbc.applies hkeyed₃
    rw [serialize_groups]
    exact ⟨_, _, _, _, hab.concat, hbc.concat, hleft.concat, hright.concat,
      hleft.fits.changesetApplies hschema'' hleft.applies,
      hright.fits.changesetApplies hschema'' hright.applies⟩
  · have hundo := inverse_undoes hfits.sound (hfits.keySame hrows hkeyed₁).2 hdistinct hrows
    have hinverse : Fits db.schema ((emittedGroups sa ra).map Group.inverse) := by
      refine ⟨fun g hg => ?_, fun g hg => ?_⟩ <;> obtain ⟨g', hg', rfl⟩ := mem_map.mp hg
      · exact hfits.shapes g' hg'
      · exact sound_inverse (hfits.sound g' hg')
    obtain ⟨both, hboth⟩ := concat_composes hfits hinverse hrows hundo db.keyed
    exact ⟨_, _, invert_groups fun g hg => (hfits.sound g hg).toWritten, hboth.concat,
      hboth.fits.changesetApplies rfl hboth.applies⟩

/-- The table `t(a INTEGER PRIMARY KEY, b)` with the first of the listed values for each key. -/
def pairTable (pairs : List (Int64 × Value)) : Database where
  schema name := if name = [0x74] then some (2, [1, 0]) else none
  rows key := (pairs.find? fun p => key = ([0x74], [.integer p.1])).map fun p => pairRow p.1 p.2
  keyed := fun name key row hrow => by
    obtain ⟨p, hp, rfl⟩ := Option.map_eq_some_iff.mp hrow
    have hkey := find?_some hp
    cases of_decide_eq_true hkey
    exact ⟨[1, 0], rfl, rfl, rfl⟩

/-- A record that leads to a row of the table. -/
theorem apply_pair {c : ChangeRecord} {pairs : List (Int64 × Value)} {a : Int64} {b : Value}
    (hkey : c.key [1, 0] = [.integer a])
    (hact : c.act ((pairTable pairs).rows ([0x74], [.integer a])) = some (some (pairRow a b)))
    : (c.edit [0x74] [1, 0]).apply (pairTable pairs).rows
      = some (pairTable ((a, b) :: pairs)).rows := by
  have hedit : (c.edit [0x74] [1, 0]).key = ([0x74], [.integer a]) := congrArg (Prod.mk _) hkey
  unfold PointEdit.apply
  rw [hedit, show (c.edit [0x74] [1, 0]).act = c.act from rfl, hact]
  refine congrArg some (funext fun key => ?_)
  rw [Function.update_apply]
  split_ifs with heq <;> simp [pairTable, heq]

def pairChanges (c : ChangeRecord) : TableChangeset where
  name := [0x74]
  ncol := 2
  pkFlags := [1, 0]
  changes := [c]

def insertedPair (a : Int64) (b : Value) : ChangeRecord where
  op := .insert
  old := []
  new := [some (.integer a), some b]

def updatedPair (a : Int64) (old new : Value) : ChangeRecord where
  op := .update
  old := [some (.integer a), some old]
  new := [none, some new]

def updateSession (old : Bytes) : SessionState :=
  pairSession
    [{ op := .update, pk := [.integer 1], old := pairRow 1 (.text old), indirect := false }]

/-- An insertion and an update of its row are merged into one insertion. -/
theorem concat_sequential_update
    : ∃ ab, concat (serialize insertSession (pairText [0x68]))
        (serialize (updateSession [0x68]) (pairText [0x69])) = .ok ab
      ∧ ab = serialize insertSession (pairText [0x69])
      ∧ ChangesetApplies ab (pairTable []) (pairTable [(1, .text [0x69]), (1, .text [0x68])]) := by
  have happly : ChangesetApplies (serialize insertSession (pairText [0x68]))
      (pairTable []) (pairTable [(1, .text [0x68])]) :=
    ⟨[pairChanges (insertedPair 1 (.text [0x68]))], by decide +kernel, rfl, by decide,
      Option.bind_eq_some_iff.mpr ⟨_, apply_pair rfl rfl, rfl⟩⟩
  have happly' : ChangesetApplies (serialize (updateSession [0x68]) (pairText [0x69]))
      (pairTable [(1, .text [0x68])]) (pairTable [(1, .text [0x69]), (1, .text [0x68])]) :=
    ⟨[pairChanges (updatedPair 1 (.text [0x68]) (.text [0x69]))], by decide +kernel, rfl, by decide,
      Option.bind_eq_some_iff.mpr ⟨_, apply_pair rfl rfl, rfl⟩⟩
  obtain ⟨⟨ab, changes, hconcat, -, -, happlies⟩, -⟩ := concat_sequential
    ⟨pairSession_names, by decide⟩ ⟨pairSession_names, by decide⟩ happly happly'
  have hmerged : concat (serialize insertSession (pairText [0x68]))
      (serialize (updateSession [0x68]) (pairText [0x69]))
      = .ok (serialize insertSession (pairText [0x69])) := by decide +kernel
  exact ⟨ab, hconcat, Except.ok.inj (hconcat.symm.trans hmerged), happlies⟩

/-- A text that is not UTF-8 is written with the length 0, and its bytes may read as a patchset
header with an insertion. The changeset applies, and it cannot be concatenated.
-/
theorem concat_rejects_serialized
    : let text : Bytes := [0x50, 2, 1, 0, 0x74, 0, 0x12, 0xff, 1, 0, 0, 0, 0, 0, 0, 0, 2, 5]
      let a := serialize insertSession (pairText text)
      ChangesetApplies a (pairTable []) (pairTable [(2, .null), (1, .text [])])
      ∧ (concat a []).toOption = none := by
  constructor
  · exact ⟨[pairChanges (insertedPair 1 (.text [])),
      pairChanges (insertedPair 2 .null)], by decide +kernel, rfl,
      by decide, Option.bind_eq_some_iff.mpr ⟨_, apply_pair rfl rfl,
        Option.bind_eq_some_iff.mpr ⟨_, apply_pair rfl rfl, rfl⟩⟩⟩
  · decide +kernel

end GraphiteSql.Session
