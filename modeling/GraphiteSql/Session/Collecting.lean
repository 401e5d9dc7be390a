import GraphiteSql.Session.ConcatTables
import GraphiteSql.Session.Databases

/-! The tables of a concatenation, while they collect changes: together they always have the
effect of everything collected so far.
-/

namespace GraphiteSql.Session

open Lib List

variable {pkFlags : Bytes} {m c : ChangeRecord} {groups : List Group} {p : Bool × ChangeRecord}
  {found : Option (Bool × ChangeRecord)} {g : Group} {i : Nat} {others : List (Bool × ChangeRecord)}
  {t : ConcatTable} {chains : List (List (Bool × ChangeRecord))}

theorem readable_mergedUpdate {old new : List (Option Value)} (hold : ReadableFields old)
    (hnew : ReadableFields new) (hm : m ∈ mergedUpdate pkFlags old new)
    : ReadableFields m.old ∧ ReadableFields m.new := by
  unfold mergedUpdate at hm
  split_ifs at hm
  · cases hm
    constructor
    · intro f hf
      obtain ⟨⟨⟨o, n⟩, i⟩, hp, rfl⟩ := mem_map.mp hf
      have hmem := of_mem_zip (fst_mem_of_mem_zipIdx hp)
      split_ifs
      · exact hold o hmem.1
      · exact nofun
    intro f hf
    obtain ⟨⟨⟨o, n⟩, i⟩, hp, rfl⟩ := mem_map.mp hf
    have hmem := of_mem_zip (fst_mem_of_mem_zipIdx hp)
    split_ifs
    · exact nofun
    · exact hnew n hmem.2
  · cases hm

theorem readable_mergeChange {e : ChangeRecord} (heold : ReadableFields e.old)
    (henew : ReadableFields e.new) (hcold : ReadableFields c.old) (hcnew : ReadableFields c.new)
    (hm : m ∈ mergeChange pkFlags e c)
    : ReadableFields m.old ∧ ReadableFields m.new := by
  unfold mergeChange at hm
  split at hm
  · cases hm
  · cases hm
    exact ⟨nofun, readable_mergeFields henew hcnew⟩
  · exact readable_mergedUpdate heold hcnew hm
  · exact readable_mergedUpdate (readable_mergeFields hcold heold)
      (readable_mergeFields henew hcnew) hm
  · cases hm
    exact ⟨readable_mergeFields hcold heold, nofun⟩
  · cases hm
    exact ⟨heold, henew⟩

theorem shaped_of_complete (h : c.Complete pkFlags)
    : c.Shaped pkFlags false := by
  unfold ChangeRecord.Complete at h
  unfold ChangeRecord.Shaped
  cases hop : c.op with
  | insert =>
    rw [hop] at h
    exact h.1
  | delete =>
    rw [hop] at h
    exact ⟨h.1, nofun⟩
  | update => exact nofun

section MergeEntry

variable {p : Bool × ChangeRecord}
  {key : List Value} {row mid row' : Option (List Value)}

theorem mergeEntry_does (hfound : ∀ q ∈ found, q.2.Does pkFlags key row mid)
    (hnone : found = none → mid = row) (hp : p.2.Does pkFlags key mid row')
    : MergeDoes ((mergeEntry pkFlags found p).map Prod.snd) pkFlags key row row' := by
  cases found with
  | none =>
    rw [hnone rfl] at hp
    exact ⟨fun m hm => by cases hm; exact hp, nofun⟩
  | some q =>
    rw [mergeEntry_change]
    exact mergeChange_does (hfound q rfl) hp

theorem mergeEntry_collectable (hcollect : ∀ q ∈ found, q.2.Collectable pkFlags)
    (hp : p.2.Collectable pkFlags) {m : Bool × ChangeRecord} (hm : m ∈ mergeEntry pkFlags found p)
    (hfull : m.2.Full pkFlags.length) (hcomplete : m.2.Complete pkFlags)
    : m.2.Collectable pkFlags := by
  cases found with
  | none =>
    cases hm
    exact hp
  | some q =>
    have hq := hcollect q rfl
    have hchange : m.2 ∈ mergeChange pkFlags q.2 p.2 := by
      rw [← mergeEntry_change]
      exact Option.mem_map_of_mem Prod.snd hm
    obtain ⟨hold, hnew⟩ := readable_mergeChange hq.readable.oldFields hq.readable.newFields
      hp.readable.oldFields hp.readable.newFields hchange
    exact ⟨⟨hfull, hold, hnew⟩, shaped_of_complete hcomplete, hcomplete⟩

end MergeEntry

/-- The tables hold the groups, which lead from `start` to `now`. -/
structure Collected (schema : Schema) (start now : Rows) (tables : List ConcatTable)
    (groups : List Group) : Prop where
  length : tables.length = groups.length
  holds : ∀ (i : Nat) (t : ConcatTable) (g : Group), tables[i]? = some t → groups[i]? = some g →
    ∃ chains, Holds t g chains
  names : (groups.map Group.name).Nodup
  shapes : ∀ g ∈ groups, schema g.name = some (g.ncol, g.pkFlags)
  sameKey : ∀ g ∈ groups, ∀ p ∈ g.records, p.2.KeySame g.pkFlags
  effect : PointEdit.Effect (groupEdits groups) start now

theorem collected_nil (schema : Schema) (start : Rows)
    : Collected schema start start [] [] where
  length := rfl
  holds := by simp
  names := by simp
  shapes := by simp
  sameKey := by simp
  effect := ⟨nofun, fun _ _ => rfl⟩

def Group.edits (g : Group) : List (PointEdit RowKey (List Value)) :=
  g.records.map fun p => p.2.edit g.name g.pkFlags

theorem groupEdits_eq (groups : List Group)
    : groupEdits groups = groups.flatMap Group.edits := by
  induction groups with
  | nil => rfl
  | cons g groups ih =>
    rw [groupEdits_cons, ih]
    rfl

theorem mem_edits_name {k : RowKey} (hk : k ∈ g.edits.map (·.key))
    : k.1 = g.name := by
  obtain ⟨e, he, rfl⟩ := mem_map.mp hk
  obtain ⟨p, -, rfl⟩ := mem_map.mp he
  rfl

theorem perm_edits_set (hi : i < groups.length) (h : g.records.Perm (found.toList ++ others))
    : (groupEdits (groups.set i g)).Perm
      ((found.map fun p => p.2.edit g.name g.pkFlags).toList
        ++ ((others.map fun p => p.2.edit g.name g.pkFlags)
          ++ (groups.eraseIdx i).flatMap Group.edits)) := by
  have hset := (set_perm_cons_eraseIdx hi g).flatMap_right Group.edits
  have hmap := h.map fun p => p.2.edit g.name g.pkFlags
  rw [groupEdits_eq, ← append_assoc]
  refine hset.trans (List.Perm.append_right _ ?_)
  cases found <;> exact hmap

theorem fresh_edits (hnames : (groups.map Group.name).Nodup)
    (hg : groups[i]? = some g) (key : List Value) (hfresh : key ∉ others.map (entryKey g.pkFlags))
    : (g.name, key) ∉ ((others.map fun p => p.2.edit g.name g.pkFlags)
      ++ (groups.eraseIdx i).flatMap Group.edits).map (·.key) := by
  obtain ⟨hi, rfl⟩ := List.getElem?_eq_some_iff.mp hg
  have hdistinct := (getElem_cons_eraseIdx_perm hi).map Group.name
  have hname := (nodup_cons.mp (hdistinct.nodup_iff.mpr hnames)).1
  rw [map_append, mem_append, not_or, map_map]
  constructor
  · intro hin
    obtain ⟨q, hq, hkey⟩ := mem_map.mp hin
    exact hfresh (mem_map.mpr ⟨q, hq, (Prod.mk.inj hkey).2⟩)
  intro hin
  rw [map_flatMap] at hin
  obtain ⟨g', hg', hkey⟩ := mem_flatMap.mp hin
  exact hname (mem_map.mpr ⟨g', hg', (mem_edits_name hkey).symm⟩)

namespace Collected

variable {schema : Schema} {start now : Rows} {tables : List ConcatTable}
  (h : Collected schema start now tables groups)
include h

theorem group (ht : tables[i]? = some t)
    : ∃ g chains, groups[i]? = some g ∧ Holds t g chains := by
  have hi : i < groups.length := h.length ▸ (List.getElem?_eq_some_iff.mp ht).1
  obtain ⟨chains, hholds⟩ := h.holds i t _ ht (getElem?_eq_getElem hi)
  exact ⟨_, chains, getElem?_eq_getElem hi, hholds⟩

theorem does (hg : g ∈ groups) (hholds : Holds t g chains) {q : Bool × ChangeRecord}
    (hq : q ∈ g.records)
    : q.2.Does g.pkFlags (entryKey g.pkFlags q) (start (g.name, entryKey g.pkFlags q))
        (now (g.name, entryKey g.pkFlags q)) where
  full := (hholds.collectable q hq).readable.toFull
  complete := (hholds.collectable q hq).complete
  sameKey := h.sameKey g hg q hq
  keyed := rfl
  acts := h.effect.accepted _ (mem_groupEdits.mpr ⟨g, hg, q, hq, rfl⟩)

/-- The merges of a change that applies now are changes of its row. -/
theorem mergeable (hg : g ∈ groups) (hholds : Holds t g chains)
    (hp : p.2.Collectable g.pkFlags) (hsame : p.2.KeySame g.pkFlags) {row : Option (List Value)}
    (hact : p.2.act (now (g.name, entryKey g.pkFlags p)) = some row)
    : Mergeable g p := by
  intro found hfound m hm
  cases found with
  | none =>
    cases hm
    exact ⟨hp, rfl⟩
  | some q =>
    obtain ⟨hq, hkey⟩ := hfound q rfl
    have hfirst := h.does hg hholds hq
    rw [hkey] at hfirst
    have hfound : ∀ q' ∈ some q, q'.2.Does g.pkFlags _ _ _ := fun q' hq' => by
      cases hq'
      exact hfirst
    have hmerged := mergeEntry_does hfound nofun
      ⟨⟨hp.readable.toFull, hp.complete, hsame⟩, rfl, hact⟩
    have hdoes := hmerged.change m.2 (Option.mem_map_of_mem Prod.snd hm)
    refine ⟨mergeEntry_collectable (fun q' hq' => ?_) hp hm hdoes.full hdoes.complete,
      hdoes.keyed⟩
    cases hq'
    exact hholds.collectable q hq

/-- What adding a change makes of the effect. -/
theorem effect_add (hg : groups[i]? = some g) (hholds : Holds t g chains)
    (hp : p.2.Mergeable g.pkFlags) {now' : Rows}
    (happly : (p.2.edit g.name g.pkFlags).apply now = some now')
    {records : List (Bool × ChangeRecord)}
    (hadded : Added g.pkFlags p g.records records found others)
    : PointEdit.Effect (groupEdits (groups.set i { g with records })) start now'
      ∧ ∀ m ∈ mergeEntry g.pkFlags found p, m.2.KeySame g.pkFlags := by
  obtain ⟨hact, hothers⟩ := PointEdit.apply_eq_some happly
  obtain ⟨hi, hget⟩ := List.getElem?_eq_some_iff.mp hg
  have hbefore := perm_edits_set hi hadded.before
  rw [← hget, set_getElem_self, hget] at hbefore
  have hafter := perm_edits_set hi (g := { g with records }) hadded.after
  have hfresh := fresh_edits h.names hg (entryKey g.pkFlags p) hadded.fresh
  have heffect := h.effect.perm hbefore.symm
  have hkeyed : ∀ q ∈ found.map fun q => q.2.edit g.name g.pkFlags,
      q.key = (g.name, entryKey g.pkFlags p) := fun e he => by
    obtain ⟨q, hq, rfl⟩ := Option.mem_map.mp he
    exact congrArg (Prod.mk g.name) (hadded.keyed q hq)
  have hdoes := @mergeEntry_does g.pkFlags found p (entryKey g.pkFlags p)
    (start (g.name, entryKey g.pkFlags p)) (now (g.name, entryKey g.pkFlags p))
    (now' (g.name, entryKey g.pkFlags p))
    (fun q hq => by
      have hin : q ∈ g.records := hadded.before.mem_iff.mpr
        (mem_append_left _ (Option.mem_toList.mpr hq))
      have hfirst := h.does (mem_of_getElem? hg) hholds hin
      rwa [hadded.keyed q hq] at hfirst)
    (fun hnone => by
      refine heffect.others _ ?_
      rwa [hnone])
    ⟨hp, rfl, hact⟩
  refine ⟨(heffect.absorb hkeyed hfresh hothers (fun e he => ?_) fun hnone => ?_).perm hafter,
    fun m hm => (hdoes.change m.2 (Option.mem_map_of_mem Prod.snd hm)).sameKey⟩
  · obtain ⟨m, hm, rfl⟩ := Option.mem_map.mp he
    have hchange := hdoes.change m.2 (Option.mem_map_of_mem Prod.snd hm)
    exact ⟨congrArg (Prod.mk g.name) hchange.keyed, hchange.acts⟩
  · refine hdoes.nothing ?_
    rw [Option.map_eq_none_iff] at hnone ⊢
    exact hnone

/-- Adding a change that applies now to its table collects it. -/
theorem add (ht : tables[i]? = some t) (hg : groups[i]? = some g)
    (hp : p.2.Collectable g.pkFlags) (hsame : p.2.KeySame g.pkFlags) {now' : Rows}
    (happly : (p.2.edit g.name g.pkFlags).apply now = some now')
    : ∃ t' records, t.add p.2.op.byte (boolByte p.1) (p.2.bytes g.pkFlags false) = .ok t'
      ∧ Collected schema start now' (tables.set i t') (groups.set i { g with records }) := by
  obtain ⟨chains, hholds⟩ := h.holds i t g ht hg
  have hmem : g ∈ groups := mem_of_getElem? hg
  obtain ⟨hact, -⟩ := PointEdit.apply_eq_some happly
  obtain ⟨t', records, chains', found, others, hadd, hholds', hadded⟩ :=
    hholds.add hp (h.mergeable hmem hholds hp hsame hact)
  obtain ⟨heffect, hkey⟩ := h.effect_add hg hholds ⟨hp.readable.toFull, hp.complete, hsame⟩ happly
    hadded
  refine ⟨t', records, hadd, {
    length := by simp [h.length]
    holds := fun j t₁ g₁ ht₁ hg₁ => ?_
    names := ?_
    shapes := fun g₁ hg₁ => ?_
    sameKey := fun g₁ hg₁ => ?_
    effect := heffect }⟩
  · rw [getElem?_set] at ht₁ hg₁
    split_ifs at ht₁ hg₁ with hij
    · cases ht₁
      cases hg₁
      exact ⟨chains', hholds'⟩
    · exact h.holds j t₁ g₁ ht₁ hg₁
  · obtain ⟨hi, rfl⟩ := List.getElem?_eq_some_iff.mp hg
    have hsame : (groups.map Group.name).set i groups[i].name = groups.map Group.name := by
      rw [← map_set, set_getElem_self]
    rw [map_set, hsame]
    exact h.names
  · cases mem_or_eq_of_mem_set hg₁ with
    | inl hold => exact h.shapes g₁ hold
    | inr hnew =>
      subst hnew
      exact h.shapes g hmem
  cases mem_or_eq_of_mem_set hg₁ with
  | inl hold => exact h.sameKey g₁ hold
  | inr hnew =>
    subst hnew
    intro q hq
    cases mem_append.mp (hadded.after.mem_iff.mp hq) with
    | inl hmerged => exact hkey q (Option.mem_toList.mp hmerged)
    | inr hother =>
      exact h.sameKey g hmem q (hadded.before.mem_iff.mpr (mem_append_right _ hother))

end Collected

end GraphiteSql.Session
