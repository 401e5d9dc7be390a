import GraphiteSql.Session.Records

/-! Parsing a serialized session gives back exactly what the serializer decided to emit, if and
only if every emitted text is UTF-8 and every record fits its table header.
-/

namespace GraphiteSql.Session

open Lib List Reader

variable {more tables' before out tables : List TableChangeset} {ts : List TableChanges}
  {t : TableChanges} {patchset patchset' : Bool} {s rest : Bytes} {bound : Nat}
  {ps : List (Bool × ChangeRecord)}

-- The parse loop only adds

/-- `g'` is `g` with further changes. -/
structure TableChangeset.Extends (g g' : TableChangeset) : Prop where
  name : g'.name = g.name
  ncol : g'.ncol = g.ncol
  pkFlags : g'.pkFlags = g.pkFlags
  changes : g.changes <+: g'.changes

/-- `gs'` has the groups of `gs`, with more changes and with more groups after them. -/
def Extends (gs gs' : List TableChangeset) : Prop :=
  ∀ (i : Nat) (g : TableChangeset), gs[i]? = some g → ∃ g', gs'[i]? = some g' ∧ g.Extends g'

theorem TableChangeset.Extends.refl (g : TableChangeset) : g.Extends g :=
  ⟨rfl, rfl, rfl, prefix_refl _⟩

theorem TableChangeset.Extends.trans {g₁ g₂ g₃ : TableChangeset} (h : g₁.Extends g₂)
    (h' : g₂.Extends g₃) : g₁.Extends g₃ :=
  ⟨h'.name.trans h.name, h'.ncol.trans h.ncol, h'.pkFlags.trans h.pkFlags,
    h.changes.trans h'.changes⟩

theorem Extends.refl (gs : List TableChangeset) : Extends gs gs := fun _ g hg =>
  ⟨g, hg, .refl g⟩

theorem Extends.trans {gs₁ gs₂ gs₃ : List TableChangeset} (h : Extends gs₁ gs₂)
    (h' : Extends gs₂ gs₃) : Extends gs₁ gs₃ := fun i g hg => by
  obtain ⟨g₂, hg₂, hext⟩ := h i g hg
  obtain ⟨g₃, hg₃, hext'⟩ := h' i g₂ hg₂
  exact ⟨g₃, hg₃, hext.trans hext'⟩

theorem Extends.append (gs more : List TableChangeset) : Extends gs (gs ++ more) := fun i g hg => by
  have hi : i < gs.length := (List.getElem?_eq_some_iff.mp hg).1
  exact ⟨g, (getElem?_append_left hi).trans hg, .refl g⟩

theorem Extends.pushChange (before : List TableChangeset) (t : TableChangeset) (c : ChangeRecord)
    : Extends (before ++ [t]) (before ++ [{ t with changes := t.changes ++ [c] }]) :=
      fun i g hg => by
  rcases Nat.lt_or_ge i before.length with hi | hi
  · rw [getElem?_append_left hi] at hg
    exact ⟨g, (getElem?_append_left hi).trans hg, .refl g⟩
  rw [getElem?_append_right hi] at hg ⊢
  cases hk : i - before.length with
  | zero =>
      rw [hk] at hg
      cases hg
      exact ⟨_, rfl, rfl, rfl, rfl, prefix_append _ _⟩
  | succ k =>
      rw [hk] at hg
      cases hg

theorem Extends.last {t : TableChangeset}
    (h : Extends (before ++ t :: more) out) : ∃ g, out[before.length]? = some g ∧ t.Extends g :=
  h before.length t (by simp)

theorem splitLast_append (before : List TableChangeset) (t : TableChangeset)
    : splitLast (before ++ [t]) = some (before, t) := by
  simp [splitLast]

theorem splitLast_eq_some {t : TableChangeset}
    (h : splitLast tables = some (before, t)) : tables = before ++ [t] := by
  obtain ⟨last, hlast, heq⟩ := Option.map_eq_some_iff.mp h
  cases heq
  exact (dropLast_append_getLast? t hlast).symm

theorem parseStep_extends
    {s' : Bytes} (h : parseStep tables patchset s = .ok (tables', patchset') s')
    : Extends tables tables' := by
  obtain ⟨marker, mid, -, h⟩ := estate_bind_eq_ok.mp h
  split_ifs at h
  · obtain ⟨g, mid', -, h⟩ := estate_bind_eq_ok.mp h
    cases h
    exact .append _ _
  · cases hlast : splitLast tables with
    | none =>
      rw [hlast] at h
      cases h
    | some p =>
      obtain ⟨before, t⟩ := p
      rw [hlast] at h
      obtain ⟨ind, mid₁, -, h⟩ := estate_bind_eq_ok.mp h
      obtain ⟨c, mid₂, -, h⟩ := estate_bind_eq_ok.mp h
      cases h
      rw [splitLast_eq_some hlast]
      exact .pushChange before t c
  · cases h

/-- One round of the loop, when there is something left to read. -/
theorem parseLoop_inv
    (hs : s ≠ []) (h : parseLoop bound tables patchset s = .ok out rest)
    : ∃ bound' tables' patchset' s', parseStep tables patchset s = .ok (tables', patchset') s'
      ∧ parseLoop bound' tables' patchset' s' = .ok out rest := by
  cases bound with
  | zero => cases h
  | succ bound =>
    rw [parseLoop, estate_get_bind, if_neg (by simpa using hs)] at h
    obtain ⟨⟨tables', patchset'⟩, s', hstep, hrest⟩ := estate_bind_eq_ok.mp h
    exact ⟨bound, tables', patchset', s', hstep, hrest⟩

theorem parseLoop_extends (h : parseLoop bound tables patchset s = .ok out rest)
    : Extends tables out := by
  induction bound generalizing tables patchset s with
  | zero => cases h
  | succ bound ih =>
    rw [parseLoop, estate_get_bind] at h
    split_ifs at h
    · cases h
      exact .refl _
    · obtain ⟨⟨tables', patchset'⟩, s', hstep, hrest⟩ := estate_bind_eq_ok.mp h
      exact (parseStep_extends hstep).trans (ih hrest)

/-- A run that ends does not need its bound. -/
theorem parseLoop_mono
    (k : Nat) (h : parseLoop bound tables patchset s = .ok out rest)
    : parseLoop (bound + k) tables patchset s = .ok out rest := by
  induction bound generalizing tables patchset s with
  | zero => cases h
  | succ bound ih =>
    rw [Nat.add_right_comm, parseLoop, estate_get_bind]
    rw [parseLoop, estate_get_bind] at h
    split_ifs at h ⊢
    · exact h
    · obtain ⟨next, s', hstep, hrest⟩ := estate_bind_eq_ok.mp h
      rw [estate_bind_ok hstep]
      exact ih hrest

theorem parseLoop_step {s' : Bytes} (hs : s ≠ [])
    (h : parseStep tables patchset s = .ok (tables', patchset') s')
    : parseLoop (bound + 1) tables patchset s = parseLoop bound tables' patchset' s' := by
  rw [parseLoop, estate_get_bind, if_neg (by simpa using hs), estate_bind_ok h]

def TableChangeset.push (t : TableChangeset) (changes : List ChangeRecord) : TableChangeset :=
  { t with changes := t.changes ++ changes }

theorem parseStep_change (before : List TableChangeset) (t : TableChangeset) (patchset : Bool)
    (op : ChangeOp) (ind : UInt8) (s : Bytes)
    : parseStep (before ++ [t]) patchset (op.byte :: ind :: s)
      = (do return (before ++ [t.push [← change t patchset op.byte]], patchset)
          : Reader _) s := by
  have hmarker : ¬(op.byte = 0x54 ∨ op.byte = 0x50) := by cases op <;> decide
  have hop : op.byte = opInsert ∨ op.byte = opUpdate ∨ op.byte = opDelete := by
    cases op <;> decide
  rw [parseStep, estate_bind_ok (u8_cons _ _), if_neg hmarker, if_pos hop, splitLast_append]
  exact estate_bind_ok (u8_cons _ _)

theorem recordBytes_cons (pkFlags : Bytes) (patchset : Bool) (p : Bool × ChangeRecord)
    (rest : Bytes)
    : recordBytes pkFlags patchset p ++ rest
        = p.2.op.byte :: boolByte p.1 :: (p.2.bytes pkFlags patchset ++ rest) := rfl

theorem records_ne_nil (pkFlags : Bytes) (patchset : Bool) (p : Bool × ChangeRecord)
    (ps : List (Bool × ChangeRecord)) (rest : Bytes)
    : (p :: ps).flatMap (recordBytes pkFlags patchset) ++ rest ≠ [] := by
  exact cons_ne_nil _ _

theorem records_length (pkFlags : Bytes) (patchset : Bool) (ps : List (Bool × ChangeRecord))
    : ps.length ≤ (ps.flatMap (recordBytes pkFlags patchset)).length := by
  induction ps with
  | nil => exact Nat.le_refl 0
  | cons p ps ih =>
    rw [flatMap_cons, length_append, length_cons]
    have hpos : 1 ≤ (recordBytes pkFlags patchset p).length := Nat.succ_le_succ (Nat.zero_le _)
    omega

/-- Readable records are appended to the last group. -/
theorem parseLoop_changes {t : TableChangeset}
    (hshape : ∀ p ∈ ps, p.2.Shaped t.pkFlags patchset)
    (hgood : ∀ p ∈ ps, p.2.Readable t.ncol) (bound : Nat) (rest : Bytes)
    : parseLoop (bound + ps.length) (before ++ [t]) patchset
      (ps.flatMap (recordBytes t.pkFlags patchset) ++ rest)
      = parseLoop bound (before ++ [t.push (ps.map Prod.snd)]) patchset rest := by
  induction ps generalizing t with
  | nil => simp [TableChangeset.push]
  | cons p ps ih =>
    obtain ⟨hs, hss⟩ := forall_mem_cons.mp hshape
    obtain ⟨hg, hgs⟩ := forall_mem_cons.mp hgood
    have hread := (change_recovers t patchset hs).sound hg
      (ps.flatMap (recordBytes t.pkFlags patchset) ++ rest)
    have hstep : parseStep (before ++ [t]) patchset
        ((p :: ps).flatMap (recordBytes t.pkFlags patchset) ++ rest)
        = .ok (before ++ [t.push [p.2]], patchset)
          (ps.flatMap (recordBytes t.pkFlags patchset) ++ rest) := by
      rw [flatMap_cons, append_assoc, recordBytes_cons, parseStep_change,
        estate_bind_ok hread]
      rfl
    have hrest := @ih (t.push [p.2]) hss hgs
    rw [length_cons, ← Nat.add_assoc, parseLoop_step (records_ne_nil _ _ _ _ _) hstep]
    refine hrest.trans ?_
    simp [TableChangeset.push]

/-- Once a record is read as another one, what is parsed no longer extends what was written. -/
theorem parseLoop_changes_only {t : TableChangeset}
    (hshape : ∀ p ∈ ps, p.2.Shaped t.pkFlags patchset) (hbad : ¬∀ p ∈ ps, p.2.Readable t.ncol)
    {rest' : Bytes}
    (h : parseLoop bound (before ++ [t]) patchset
      (ps.flatMap (recordBytes t.pkFlags patchset) ++ rest) = .ok out rest')
    : ¬Extends (before ++ [t.push (ps.map Prod.snd)]) out := by
  induction ps generalizing t bound with
  | nil => exact absurd nofun hbad
  | cons p ps ih =>
    obtain ⟨hs, hss⟩ := forall_mem_cons.mp hshape
    obtain ⟨bound', tables', patchset', s', hstep, hloop⟩ :=
      parseLoop_inv (records_ne_nil _ _ _ _ _) h
    rw [flatMap_cons, append_assoc, recordBytes_cons, parseStep_change] at hstep
    obtain ⟨c, mid, hc, hpure⟩ := estate_bind_eq_ok.mp hstep
    cases hpure
    have hrecovers := change_recovers t patchset hs
    by_cases hg : p.2.Readable t.ncol
    · rw [hrecovers.sound hg] at hc
      cases hc
      have hbad' : ¬∀ q ∈ ps, q.2.Readable t.ncol := fun hall =>
        hbad (forall_mem_cons.mpr ⟨hg, hall⟩)
      have hext := @ih _ (t.push [p.2]) hss hbad' hloop
      simpa [TableChangeset.push] using hext
    intro hext
    have hne := hrecovers.only hg _ _ _ hc
    have hread := parseLoop_extends hloop
    obtain ⟨g, hg₁, hext₁⟩ := hext.last
    obtain ⟨g', hg₂, hext₂⟩ := hread.last
    rw [hg₁] at hg₂
    cases hg₂
    -- two prefixes of one list agree where both have a record
    obtain ⟨more₁, h₁⟩ := hext₁.changes
    obtain ⟨more₂, h₂⟩ := hext₂.changes
    have hsame := h₁.trans h₂.symm
    simp only [TableChangeset.push, map_cons, append_assoc, cons_append,
      append_cancel_left_eq, cons.injEq] at hsame
    exact hne hsame.1.symm

-- The tables

def TableChanges.group (t : TableChanges) : TableChangeset :=
  { name := t.name, ncol := t.ncol, pkFlags := t.pkFlags, changes := [] }

theorem parseStep_header (tables : List TableChangeset) (t : TableChanges)
    (patchset patchset' : Bool) (s : Bytes)
    : parseStep tables patchset' (tableHeader t patchset ++ s)
      = (do return (tables ++ [← header], patchset) : Reader _)
        (appendVarint t.ncol ++ t.pkFlags ++ t.name ++ [0] ++ s) := by
  cases patchset <;> simp only [tableHeader, append_assoc] <;> rfl

theorem emittedChanges_shaped {readRow : RowReader}
    : ∀ p ∈ emittedChanges t patchset readRow, p.2.Shaped t.pkFlags patchset := by
  intro p hp
  obtain ⟨c, -, hc⟩ := mem_filterMap.mp hp
  obtain ⟨r, hr, rfl⟩ := Option.map_eq_some_iff.mp hc
  exact emitChange_shaped hr

theorem table_cases (patchset : Bool) (readRow : RowReader) (t : TableChanges)
    : (serializeTable patchset readRow t = [] ∧ emitTable patchset readRow t = none)
      ∨ ∃ ps : List (Bool × ChangeRecord), (∀ p ∈ ps, p.2.Shaped t.pkFlags patchset)
        ∧ serializeTable patchset readRow t
          = tableHeader t patchset ++ ps.flatMap (recordBytes t.pkFlags patchset)
        ∧ emitTable patchset readRow t = some (t.group.push (ps.map Prod.snd)) := by
  rw [serializeTable_emit, emitTable_emit]
  split_ifs
  · exact .inl ⟨rfl, rfl⟩
  · exact .inr ⟨_, emittedChanges_shaped, rfl, rfl⟩

theorem readable_push
    : (t.group.push (ps.map Prod.snd)).Readable
      ↔ (0 < t.ncol ∧ t.ncol < 2 ^ 56 ∧ t.pkFlags.length = t.ncol)
        ∧ ∀ p ∈ ps, p.2.Readable t.ncol := by
  constructor
  · rintro ⟨hpos, hfits, hflags, hchanges⟩
    refine ⟨⟨hpos, hfits, hflags⟩, fun p hp => hchanges p.2 ?_⟩
    exact mem_map_of_mem hp
  rintro ⟨⟨hpos, hfits, hflags⟩, hchanges⟩
  refine ⟨hpos, hfits, hflags, fun c hc => ?_⟩
  obtain ⟨p, hp, rfl⟩ := mem_map.mp hc
  exact hchanges p hp

section Tables

variable {patchset : Bool} {readRow : RowReader}

/-- A table name that a header can carry: UTF-8, without a NUL. -/
def GoodName (name : Bytes) : Prop :=
  validUtf8 name ∧ 0 ∉ name

theorem group_recovers (hname : GoodName t.name)
    : Recovers header (appendVarint t.ncol ++ t.pkFlags ++ t.name ++ [0]) t.group
      (0 < t.ncol ∧ t.ncol < 2 ^ 56 ∧ t.pkFlags.length = t.ncol) :=
  @header_recovers t.group rfl hname.1 hname.2

/-- A readable table is parsed into its group. -/
theorem parseLoop_table (hname : GoodName t.name)
    (hshape : ∀ p ∈ ps, p.2.Shaped t.pkFlags patchset)
    (hgood : (t.group.push (ps.map Prod.snd)).Readable)
    (tables : List TableChangeset) (patchset' : Bool) (bound : Nat) (rest : Bytes)
    : parseLoop (bound + ps.length + 1) tables patchset'
      (tableHeader t patchset ++ ps.flatMap (recordBytes t.pkFlags patchset) ++ rest)
      = parseLoop bound (tables ++ [t.group.push (ps.map Prod.snd)]) patchset rest := by
  obtain ⟨hheader, hchanges⟩ := readable_push.mp hgood
  have hstep : parseStep tables patchset'
      (tableHeader t patchset ++ (ps.flatMap (recordBytes t.pkFlags patchset) ++ rest))
      = .ok (tables ++ [t.group], patchset)
        (ps.flatMap (recordBytes t.pkFlags patchset) ++ rest) := by
    rw [parseStep_header, estate_bind_ok ((group_recovers hname).sound hheader _)]
    rfl
  rw [append_assoc, parseLoop_step (by simp [tableHeader]) hstep]
  exact @parseLoop_changes tables patchset ps t.group hshape hchanges bound rest

/-- Once a table is read as another one, what is parsed no longer extends what was written. -/
theorem parseLoop_table_only (hname : GoodName t.name)
    (hshape : ∀ p ∈ ps, p.2.Shaped t.pkFlags patchset)
    (hbad : ¬(t.group.push (ps.map Prod.snd)).Readable) {rest' : Bytes}
    (h : parseLoop bound tables patchset'
      (tableHeader t patchset ++ ps.flatMap (recordBytes t.pkFlags patchset) ++ rest)
      = .ok out rest')
    : ¬Extends (tables ++ t.group.push (ps.map Prod.snd) :: more) out := by
  rw [append_assoc] at h
  obtain ⟨bound', tables', patchset'', s', hstep, hloop⟩ := parseLoop_inv (by simp [tableHeader]) h
  rw [parseStep_header] at hstep
  obtain ⟨g, mid, hg, hpure⟩ := estate_bind_eq_ok.mp hstep
  cases hpure
  by_cases hheader : 0 < t.ncol ∧ t.ncol < 2 ^ 56 ∧ t.pkFlags.length = t.ncol
  · rw [(group_recovers hname).sound hheader] at hg
    cases hg
    have hchanges : ¬∀ p ∈ ps, p.2.Readable t.ncol := fun hall =>
      hbad (readable_push.mpr ⟨hheader, hall⟩)
    have hnot := @parseLoop_changes_only tables _ patchset _ _ _ t.group hshape hchanges _ hloop
    intro hext
    rw [append_cons] at hext
    exact hnot ((Extends.append _ _).trans hext)
  intro hext
  refine (group_recovers hname).only hheader _ _ _ hg ?_
  obtain ⟨-, -, -, hnone⟩ := header_inv hg
  obtain ⟨g₁, hg₁, hext₁⟩ := hext.last
  obtain ⟨g₂, hg₂, hext₂⟩ := (parseLoop_extends hloop).last
  rw [hg₁] at hg₂
  cases hg₂
  obtain ⟨name, ncol, pkFlags, changes⟩ := g
  cases (show changes = [] from hnone)
  have hsameName : name = t.name := hext₂.name.symm.trans hext₁.name
  have hsameNcol : ncol = t.ncol := hext₂.ncol.symm.trans hext₁.ncol
  have hsameFlags : pkFlags = t.pkFlags := hext₂.pkFlags.symm.trans hext₁.pkFlags
  rw [hsameName, hsameNcol, hsameFlags]
  rfl

/-- Readable tables are parsed into what was emitted for them. -/
theorem parseLoop_tables (hname : ∀ t ∈ ts, GoodName t.name)
    (hgood : ∀ g ∈ ts.filterMap (emitTable patchset readRow), g.Readable)
    (tables : List TableChangeset) (patchset' : Bool)
    : ∃ bound ≤ (ts.flatMap (serializeTable patchset readRow)).length + 1,
      parseLoop bound tables patchset' (ts.flatMap (serializeTable patchset readRow))
        = .ok (tables ++ ts.filterMap (emitTable patchset readRow)) [] := by
  induction ts generalizing tables patchset' with
  | nil => exact ⟨1, Nat.le_refl 1, by simp [parseLoop]⟩
  | cons t ts ih =>
    obtain ⟨hn, hns⟩ := forall_mem_cons.mp hname
    rcases table_cases patchset readRow t with ⟨hbytes, hemit⟩ | ⟨ps, hshape, hbytes, hemit⟩
    · rw [filterMap_cons_none hemit] at hgood ⊢
      rw [flatMap_cons, hbytes]
      exact ih hns hgood tables patchset'
    rw [filterMap_cons_some hemit] at hgood ⊢
    obtain ⟨hg, hgs⟩ := forall_mem_cons.mp hgood
    obtain ⟨bound, hbound, hloop⟩ := ih hns hgs
      (tables ++ [t.group.push (ps.map Prod.snd)]) patchset
    refine ⟨bound + ps.length + 1, ?_, ?_⟩
    · have hrecords := records_length t.pkFlags patchset ps
      have hheader : 1 ≤ (tableHeader t patchset).length := by simp [tableHeader]
      rw [flatMap_cons, hbytes, length_append, length_append]
      omega
    · rw [flatMap_cons, hbytes, parseLoop_table hn hshape hg, hloop, append_assoc]
      rfl

/-- If a table is not readable, what is parsed differs from what was emitted. -/
theorem parseLoop_tables_only (hname : ∀ t ∈ ts, GoodName t.name)
    (hbad : ¬∀ g ∈ ts.filterMap (emitTable patchset readRow), g.Readable)
    (h : parseLoop bound tables patchset' (ts.flatMap (serializeTable patchset readRow))
      = .ok out rest)
    : ¬Extends (tables ++ ts.filterMap (emitTable patchset readRow)) out := by
  induction ts generalizing tables patchset' bound with
  | nil => exact absurd nofun hbad
  | cons t ts ih =>
    obtain ⟨hn, hns⟩ := forall_mem_cons.mp hname
    rcases table_cases patchset readRow t with ⟨hbytes, hemit⟩ | ⟨ps, hshape, hbytes, hemit⟩
    · rw [filterMap_cons_none hemit] at hbad ⊢
      rw [flatMap_cons, hbytes] at h
      exact ih hns hbad h
    rw [filterMap_cons_some hemit] at hbad ⊢
    rw [flatMap_cons, hbytes] at h
    by_cases hg : (t.group.push (ps.map Prod.snd)).Readable
    · have hbad' : ¬∀ g ∈ ts.filterMap (emitTable patchset readRow), g.Readable := fun hall =>
        hbad (forall_mem_cons.mpr ⟨hg, hall⟩)
      have hlong := parseLoop_mono (ps.length + 1) h
      rw [← Nat.add_assoc, parseLoop_table hn hshape hg] at hlong
      rw [append_cons]
      exact ih hns hbad' hlong
    · exact parseLoop_table_only hn hshape hg h

end Tables

/-- Parsing a serialized session gives exactly what the serializer decided to emit, if and only
if all of it can be read back: texts are UTF-8, and records and headers fit their table.
-/
theorem parse_serialize_iff (s : SessionState) (readRow : RowReader) (patchset : Bool)
    (hname : ∀ t ∈ s.tables, GoodName t.name)
    : parseChangeset (serializeImpl s patchset readRow) = .ok (emitted s patchset readRow)
      ↔ ∀ g ∈ emitted s patchset readRow, g.Readable := by
  constructor
  · intro h
    by_contra hbad
    unfold parseChangeset at h
    cases hrun : parseLoop ((serializeImpl s patchset readRow).length + 1) [] false
        (serializeImpl s patchset readRow) with
    | error e rest =>
      rw [hrun] at h
      cases h
    | ok out rest =>
      rw [hrun] at h
      cases h
      exact parseLoop_tables_only hname hbad hrun (Extends.refl _)
  · intro hgood
    obtain ⟨bound, hbound, hloop⟩ := parseLoop_tables hname hgood [] false
    obtain ⟨k, hk⟩ := Nat.exists_eq_add_of_le hbound
    have hrun := parseLoop_mono k hloop
    rw [← hk] at hrun
    unfold parseChangeset
    change parseLoop ((serializeImpl s patchset readRow).length + 1) [] false
      (serializeImpl s patchset readRow) = _ at hrun
    rw [hrun]
    rfl

/-- A session over `t(a INTEGER PRIMARY KEY, b)` that recorded these changes. -/
def pairSession (changes : List Change) : SessionState where
  enabled := true
  attachAll := true
  attached := []
  indirectMode := false
  tables := [{
    name := [0x74]
    ncol := 2
    pkFlags := [1, 0]
    buckets := [changes]
    nentry := changes.length }]

def insertSession : SessionState :=
  pairSession [{ op := .insert, pk := [.integer 1], old := [.null, .null], indirect := false }]

/-- The row with the key 1 has this text. -/
def pairText (b : Bytes) : RowReader := fun _ pk =>
  if pk = [.integer 1] then some [.integer 1, .text b] else none

theorem pairSession_names {changes : List Change}
    : ∀ t ∈ (pairSession changes).tables, GoodName t.name := by
  intro t ht
  cases mem_singleton.mp ht
  exact ⟨rfl, by simp⟩

theorem parse_serialize_utf8
    : parseChangeset (serializeImpl insertSession true (pairText [0x68, 0x69]))
      = .ok (emitted insertSession true (pairText [0x68, 0x69])) := by
  exact (parse_serialize_iff _ _ _ pairSession_names).mpr (by decide)

/-- The text `x'ff'` is written with length 0, and its byte is then taken for a marker. -/
theorem nonUtf8_text_breaks_changeset
    : serialize insertSession (pairText [0xff])
        = [0x54, 2, 1, 0, 0x74, 0, 18, 0, 1, 0, 0, 0, 0, 0, 0, 0, 1, 3, 0, 0xff]
      ∧ emitted insertSession false (pairText [0xff])
        = [{ name := [0x74], ncol := 2, pkFlags := [1, 0],
             changes := [{ op := .insert, old := []
                           new := [some (.integer 1), some (.text [0xff])] }] }]
      ∧ (parseChangeset (serialize insertSession (pairText [0xff]))).toOption = none := by
  decide +kernel

end GraphiteSql.Session
