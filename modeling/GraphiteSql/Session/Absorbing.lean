import GraphiteSql.Session.Collecting

/-! Concatenation collects the records of changesets that apply, read from their bytes. -/

namespace GraphiteSql.Session

open Lib List Reader

variable {h : Group} {now : Rows} {tables tables' : List ConcatTable}

/-- Two groups of one table. -/
structure SameTable (g h : Group) : Prop where
  name : g.name = h.name
  ncol : g.ncol = h.ncol
  pkFlags : g.pkFlags = h.pkFlags

theorem holds_new (hwritten : h.Written)
    : Holds (.new { ncol := h.ncol, pkFlags := h.pkFlags, name := h.name, raw := h.header })
        { h with records := [] } [] where
  name := rfl
  ncol := rfl
  pkFlags := rfl
  hdr := rfl
  headed := { hwritten.readable with name := hwritten.name }
  collectable := nofun
  distinct := .nil
  buckets := rfl
  records := rfl
  inSlot := Buckets.inSlot_replicate 0
  counted := rfl

/-- A header selects the table of its name, which is there or added. -/
theorem Collected.header {schema : Schema} {start : Rows}
    {groups : List Group} (hc : Collected schema start now tables groups)
    (hwritten : h.Written) (hshape : schema h.name = some (h.ncol, h.pkFlags))
    : ∃ tables' groups' i g,
      absorbHeader tables
        { ncol := h.ncol, pkFlags := h.pkFlags, name := h.name, raw := h.header }
          = .ok (tables', some i)
      ∧ Collected schema start now tables' groups' ∧ groups'[i]? = some g ∧ SameTable g h := by
  unfold absorbHeader
  cases hfind : tables.findIdx? (·.name == h.name) with
  | some i =>
    obtain ⟨hi, hname, -⟩ := findIdx?_eq_some_iff_getElem.mp hfind
    obtain ⟨g, chains, hg, hholds⟩ := hc.group (getElem?_eq_getElem hi)
    have hsame : g.name = h.name := by
      rw [← hholds.name]
      exact beq_iff_eq.mp hname
    have hfits := hc.shapes g (mem_of_getElem? hg)
    rw [hsame, hshape] at hfits
    obtain ⟨hncol, hflags⟩ := Prod.mk.inj (Option.some.inj hfits)
    refine ⟨tables, groups, i, g, ?_, hc, hg, hsame, hncol.symm, hflags.symm⟩
    dsimp only
    rw [getElem?_eq_getElem hi, Option.map_some, hholds.ncol, hholds.pkFlags, ← hncol,
      ← hflags]
    exact if_neg (not_not.mpr rfl)
  | none =>
    have habsent : h.name ∉ groups.map Group.name := fun hmem => by
      obtain ⟨g, hg, hname⟩ := mem_map.mp hmem
      obtain ⟨i, hi⟩ := getElem?_of_mem hg
      have hlt : i < tables.length := hc.length ▸ (List.getElem?_eq_some_iff.mp hi).1
      obtain ⟨chains, hholds⟩ := hc.holds i _ g (getElem?_eq_getElem hlt) hi
      have hother := findIdx?_eq_none_iff.mp hfind _ (getElem_mem hlt)
      rw [hholds.name, hname, beq_self_eq_true] at hother
      cases hother
    refine ⟨_, groups ++ [{ h with records := [] }], tables.length, { h with records := [] }, rfl,
      ?_, by simp [hc.length], rfl, rfl, rfl⟩
    exact {
      length := by simp [hc.length]
      holds := fun i t g ht hg => by
        rw [getElem?_append] at ht hg
        rw [← hc.length] at hg
        split_ifs at ht hg with hi
        · exact hc.holds i t g ht hg
        · cases mem_singleton.mp (mem_of_getElem? ht)
          cases mem_singleton.mp (mem_of_getElem? hg)
          exact ⟨[], holds_new hwritten⟩
      names := by
        rw [map_append]
        exact nodup_append.mpr ⟨hc.names, by simp, fun a ha b hb => by
          cases mem_singleton.mp hb
          exact fun heq => habsent (heq ▸ ha)⟩
      shapes := forall_mem_append.mpr ⟨hc.shapes, by simpa using hshape⟩
      sameKey := forall_mem_append.mpr ⟨hc.sameKey, by simp⟩
      effect := by
        have hnone : groupEdits (groups ++ [{ h with records := [] }]) = groupEdits groups := by
          rw [groupEdits_eq, groupEdits_eq, flatMap_append]
          exact append_nil _
        rw [hnone]
        exact hc.effect }

/-- The fields of a change are cut off as a whole. -/
theorem splitRecord_bytes {c : ChangeRecord} {pkFlags : Bytes} (h : c.Collectable pkFlags)
    (rest : Bytes)
    : ∃ fields, splitRecord (if c.op.byte = opUpdate then pkFlags.length * 2 else pkFlags.length)
      (c.bytes pkFlags false ++ rest) = .ok (fields, (c.bytes pkFlags false).length) := by
  obtain ⟨op, old, new⟩ := c
  have hlen := h.first_length
  have hread := h.first_readable
  cases op with
  | insert =>
    have hsplit := splitRecord_append hread rest
    rw [hlen] at hsplit
    exact ⟨_, hsplit⟩
  | delete =>
    have hsplit := splitRecord_append hread rest
    rw [hlen] at hsplit
    rw [bytes_delete]
    exact ⟨_, hsplit⟩
  | update =>
    have hnew : new.length = pkFlags.length := h.readable.new nofun
    have hold : old.length = pkFlags.length := hlen
    have hsplit := @splitRecord_append (old ++ new)
      (forall_mem_append.mpr ⟨h.readable.oldFields, h.readable.newFields⟩) rest
    rw [length_append, hold, hnew, ← Nat.mul_two, flatMap_append] at hsplit
    exact ⟨_, hsplit⟩

theorem absorbStep_header (hwritten : h.Written)
    {cur cur' : Option Nat} (hheader : absorbHeader tables
      { ncol := h.ncol, pkFlags := h.pkFlags, name := h.name, raw := h.header }
        = .ok (tables', cur'))
    (rest : Bytes)
    : absorbStep tables cur (h.header ++ rest) = .ok (tables', cur') rest := by
  have hpeek : peek (h.header ++ rest) = .ok 0x54 (h.header ++ rest) := rfl
  rw [absorbStep, estate_bind_ok hpeek, if_pos rfl, estate_bind_ok (tableHdr_append hwritten rest),
    hheader]
  rfl

theorem absorbStep_change {i : Nat} {t t' : ConcatTable} (ht : tables[i]? = some t)
    {p : Bool × ChangeRecord} (hp : p.2.Collectable t.pkFlags) (hncol : t.ncol = t.pkFlags.length)
    (hadd : t.add p.2.op.byte (boolByte p.1) (p.2.bytes t.pkFlags false) = .ok t') (rest : Bytes)
    : absorbStep tables (some i) (recordBytes t.pkFlags false p ++ rest)
      = .ok (tables.set i t', some i) rest := by
  have hpeek : ∀ s, peek (p.2.op.byte :: s) = .ok p.2.op.byte (p.2.op.byte :: s) :=
    fun _ => rfl
  have hmarker : p.2.op.byte ≠ 0x54
      ∧ (p.2.op.byte = opInsert ∨ p.2.op.byte = opDelete ∨ p.2.op.byte = opUpdate) := by
    cases p.2.op <;> decide
  obtain ⟨fields, hsplit⟩ := splitRecord_bytes hp rest
  rw [← hncol] at hsplit
  have hchange : absorbChange tables i t p.2.op.byte
      (p.2.op.byte :: boolByte p.1 :: (p.2.bytes t.pkFlags false ++ rest))
      = .ok (tables.set i t') rest := by
    rw [absorbChange, estate_bind_ok (u8_cons _ _), estate_bind_ok (u8_cons _ _)]
    dsimp only
    rw [estate_bind_ok (onRest_ok hsplit), estate_bind_ok (take_append _ rest), hadd]
    rfl
  rw [recordBytes, append_assoc, cons_append, absorbStep, estate_bind_ok (hpeek _),
    if_neg hmarker.1, if_pos hmarker.2]
  dsimp only
  rw [ht]
  exact estate_bind_ok hchange

/-- Collecting `s` leads from the tables to `out`, with enough steps. -/
def Absorbs (tables : List ConcatTable) (cur : Option Nat) (s : Bytes) (out : List ConcatTable)
    : Prop :=
  ∀ bound, s.length < bound → absorbLoop bound tables cur s = .ok out []

theorem absorbs_nil (tables : List ConcatTable) (cur : Option Nat)
    : Absorbs tables cur [] tables := by
  intro bound hbound
  cases bound with
  | zero => cases hbound
  | succ bound => rfl

theorem absorbs_step {out : List ConcatTable} {cur cur' : Option Nat} {piece rest : Bytes}
    (hpiece : piece ≠ []) (hstep : absorbStep tables cur (piece ++ rest) = .ok (tables', cur') rest)
    (hrest : Absorbs tables' cur' rest out)
    : Absorbs tables cur (piece ++ rest) out := by
  intro bound hbound
  have hpos := length_pos_iff.mpr hpiece
  rw [length_append] at hbound
  cases bound with
  | zero => cases hbound
  | succ bound =>
    rw [absorbLoop, estate_get_bind, if_neg (by simp [hpiece]), estate_bind_ok hstep]
    exact hrest bound (by omega)

section Absorbing

variable {schema : Schema} {start : Rows}

/-- The records of a group are collected one by one into its table. -/
theorem Collected.records (hsound : h.Sound) {records : List (Bool × ChangeRecord)}
    (hrecords : ∀ p ∈ records, p ∈ h.records) (hsame : ∀ p ∈ records, p.2.KeySame h.pkFlags)
    {now' : Rows} {groups : List Group} (hc : Collected schema start now tables groups) {i : Nat}
    {g : Group} (hg : groups[i]? = some g) (htable : SameTable g h)
    (happly : PointEdit.applyAll (records.map fun p => p.2.edit h.name h.pkFlags) now = some now')
    : ∃ tables' groups', Collected schema start now' tables' groups'
      ∧ ∀ rest out, Absorbs tables' (some i) rest out →
          Absorbs tables (some i) (records.flatMap (recordBytes h.pkFlags false) ++ rest) out := by
  induction records generalizing now tables groups g with
  | nil =>
    cases happly
    exact ⟨tables, groups, hc, fun _ _ habsorbs => habsorbs⟩
  | cons p records ih =>
    obtain ⟨hp, hps⟩ := forall_mem_cons.mp hrecords
    obtain ⟨hkey, hkeys⟩ := forall_mem_cons.mp hsame
    obtain ⟨mid, hfirst, hlast⟩ := Option.bind_eq_some_iff.mp happly
    have hflags : h.ncol = h.pkFlags.length := hsound.readable.flags.symm
    have hcollect : p.2.Collectable h.pkFlags :=
      ⟨hflags ▸ hsound.record hp, hsound.shaped p hp, hsound.complete p hp⟩
    have hi : i < tables.length := hc.length ▸ (List.getElem?_eq_some_iff.mp hg).1
    have ht := getElem?_eq_getElem hi
    obtain ⟨chains, hholds⟩ := hc.holds i _ g ht hg
    have hpk : tables[i].pkFlags = h.pkFlags := hholds.pkFlags.trans htable.pkFlags
    rw [← htable.name, ← htable.pkFlags] at hfirst
    rw [← htable.pkFlags] at hkey hcollect
    obtain ⟨t', added, hadd, hc'⟩ := hc.add ht hg hcollect hkey hfirst
    obtain ⟨tables', groups', hc'', hrun⟩ := ih hps hkeys hc'
      (List.getElem?_set_self (List.getElem?_eq_some_iff.mp hg).1)
      { htable with } hlast
    refine ⟨tables', groups', hc'', fun rest out habsorbs => ?_⟩
    rw [flatMap_cons, append_assoc]
    refine absorbs_step (cons_ne_nil _ _) ?_ (hrun rest out habsorbs)
    refine absorbStep_change ht ?_ hholds.flags ?_ _
    · rwa [hholds.pkFlags]
    · rwa [hholds.pkFlags]

/-- Groups that apply now are collected. -/
theorem Collected.groups {added : List Group} (hfits : Fits schema added)
    (hsame : ∀ g ∈ added, ∀ p ∈ g.records, p.2.KeySame g.pkFlags) {now' : Rows}
    {groups : List Group} (hc : Collected schema start now tables groups)
    (happly : PointEdit.applyAll (groupEdits added) now = some now') (cur : Option Nat)
    : ∃ tables' groups', Collected schema start now' tables' groups'
      ∧ Absorbs tables cur (added.flatMap Group.bytes) tables' := by
  obtain ⟨hshapes, hsound⟩ := hfits
  induction added generalizing now tables groups cur with
  | nil =>
    cases happly
    exact ⟨tables, groups, hc, absorbs_nil tables cur⟩
  | cons h added ih =>
    obtain ⟨hshape, hshapes⟩ := forall_mem_cons.mp hshapes
    obtain ⟨hh, hhs⟩ := forall_mem_cons.mp hsound
    obtain ⟨hkey, hkeys⟩ := forall_mem_cons.mp hsame
    rw [groupEdits_cons, PointEdit.applyAll_append] at happly
    obtain ⟨mid, hfirst, hlast⟩ := Option.bind_eq_some_iff.mp happly
    obtain ⟨tables₁, groups₁, i, g, hheader, hc₁, hg, htable⟩ := hc.header hh.toWritten hshape
    obtain ⟨tables₂, groups₂, hc₂, hrun⟩ :=
      hc₁.records hh (fun _ hp => hp) hkey hg htable hfirst
    obtain ⟨tables₃, groups₃, hc₃, habsorbs⟩ := ih hkeys hc₂ hlast (some i) hshapes hhs
    refine ⟨tables₃, groups₃, hc₃, ?_⟩
    rw [flatMap_cons, Group.bytes, append_assoc]
    exact absorbs_step (by simp [Group.header]) (absorbStep_header hh.toWritten hheader _)
      (hrun _ _ habsorbs)

end Absorbing

end GraphiteSql.Session
