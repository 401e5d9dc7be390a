import GraphiteSql.Session.History

/-! What the recorder knows after a history: for every row that was touched, what it was at the
start; a row that was not touched is in every state what it was at the start.
-/

namespace GraphiteSql.Session

open Lib List

variable {table : Bytes} {l : Layout} {s : SessionState} {rows : TableRows} {seen : List TableRows}

/-- A recorded change says what its row was at the start. -/
def Change.Started (start : TableRows) (c : Change) : Prop :=
  start c.pk = if c.op = .insert then none else some c.old

/-- The session records the table and no other. -/
structure Tracks (table : Bytes) (l : Layout) (s : SessionState) : Prop where
  enabled : s.enabled = true
  attached : s.attachAll = true ∨ table ∈ s.attached
  single : s.tables = [] ∨ ∃ t, s.tables = [t]
  fits : ∀ t ∈ s.tables, t.name = table ∧ t.ncol = l.ncol ∧ t.pkFlags = l.pkFlags ∧ t.Hashed

def SessionState.recorded (s : SessionState) : List Change :=
  s.tables.flatMap TableChanges.recorded

def SessionState.touched (s : SessionState) : List (List Value) :=
  s.recorded.map (·.pk)

theorem TableChanges.hashed_fresh (name : Bytes) (ncol : Nat) (pkFlags : Bytes)
    : ({ name, ncol, pkFlags, buckets := [], nentry := 0 } : TableChanges).Hashed where
  inSlot i c hc := by simp at hc
  counted := rfl

/-- Reporting a key keeps the first change of every row. -/
theorem Tracks.record (h : Tracks table l s)
    (op : ChangeOp) {pk : List Value} (hpk : .null ∉ pk) (old : List Value) (indirect : Bool)
    : Tracks table l (s.record table l.ncol l.pkFlags op pk old indirect)
      ∧ (s.record table l.ncol l.pkFlags op pk old indirect).recorded.Perm
          (if pk ∈ s.touched then s.recorded
            else { op, pk, old, indirect := false } :: s.recorded) := by
  have hattached : (!s.attachAll && !s.attached.contains table) = false := by
    cases h.attached with
    | inl hall => simp [hall]
    | inr hmem => simp [hmem]
  have hnull : pk.any (· == .null) = false := by
    simp only [any_eq_false, beq_iff_eq]
    exact fun v hv heq => hpk (heq ▸ hv)
  simp only [SessionState.record, h.enabled, hattached, hnull, Bool.not_true, Bool.false_eq_true,
    if_false]
  cases h.single with
  | inl hnone =>
    have hrec := TableChanges.record_recorded
      (TableChanges.hashed_fresh table l.ncol l.pkFlags) op pk old (indirect || s.indirectMode)
    rw [hnone]
    refine ⟨⟨rfl, h.attached, .inr ⟨_, rfl⟩, fun t ht => ?_⟩, ?_⟩
    · cases mem_singleton.mp ht
      exact ⟨hrec.name, hrec.ncol, hrec.pkFlags, hrec.hashed⟩
    · simpa [SessionState.recorded, SessionState.touched, hnone, recordIn,
        TableChanges.recorded] using hrec.items
  | inr hone =>
    obtain ⟨t, ht⟩ := hone
    obtain ⟨hname, hncol, hflags, hhashed⟩ := h.fits t (by simp [ht])
    have hrec := TableChanges.record_recorded hhashed op pk old (indirect || s.indirectMode)
    rw [ht]
    simp only [recordIn, hname, if_true]
    refine ⟨⟨rfl, h.attached, .inr ⟨_, rfl⟩, fun t' ht' => ?_⟩, ?_⟩
    · cases mem_singleton.mp ht'
      exact ⟨hrec.name.trans hname, hrec.ncol.trans hncol, hrec.pkFlags.trans hflags, hrec.hashed⟩
    · simpa [SessionState.recorded, SessionState.touched, ht] using hrec.items

/-- Every key that ever changed has a record with its first row. -/
structure Tracked (table : Bytes) (l : Layout) (start : TableRows) (s : SessionState)
    (seen : List TableRows) : Prop extends Tracks table l s where
  distinct : s.touched.Nodup
  started : ∀ c ∈ s.recorded, c.Started start
  untouched : ∀ rows ∈ seen, ∀ k, k ∉ s.touched → rows k = start k
  keyed : ∀ rows ∈ seen, l.Keyed rows

section Steps

variable {start : TableRows}

/-- Reporting a key touches it. The report must be right if the row has no change yet. -/
theorem Tracked.record (h : Tracked table l start s seen) (op : ChangeOp) {pk : List Value}
    (hpk : .null ∉ pk) (old : List Value) (indirect : Bool) (hrows : rows ∈ seen)
    (hfirst : pk ∉ s.touched → rows pk = if op = .insert then none else some old)
    : Tracked table l start (s.record table l.ncol l.pkFlags op pk old indirect) seen
      ∧ ∀ k, k ∈ (s.record table l.ncol l.pkFlags op pk old indirect).touched
          ↔ k = pk ∨ k ∈ s.touched := by
  obtain ⟨htracks, hperm⟩ := h.toTracks.record op hpk old indirect
  generalize s.record table l.ncol l.pkFlags op pk old indirect = s' at htracks hperm
  have hmap : s'.touched.Perm (if pk ∈ s.touched then s.touched else pk :: s.touched) := by
    have hkeys := hperm.map (·.pk)
    split_ifs at hkeys ⊢ <;> exact hkeys
  have htouched : ∀ k, k ∈ s'.touched ↔ k = pk ∨ k ∈ s.touched := fun k => by
    rw [hmap.mem_iff]
    split_ifs with hin
    · exact ⟨.inr, fun hor => hor.elim (fun heq => heq ▸ hin) id⟩
    · exact mem_cons
  refine ⟨⟨htracks, ?_, fun c hc => ?_, fun rows hrows k hk => ?_, h.keyed⟩, htouched⟩
  · rw [hmap.nodup_iff]
    split_ifs with hin
    · exact h.distinct
    · exact nodup_cons.mpr ⟨hin, h.distinct⟩
  · rw [hperm.mem_iff] at hc
    split_ifs at hc with hin
    · exact h.started c hc
    · cases mem_cons.mp hc with
      | inl heq => exact heq ▸ (h.untouched rows hrows pk hin).symm.trans (hfirst hin)
      | inr hmem => exact h.started c hmem
  · exact h.untouched rows hrows k fun hin => hk ((htouched k).mpr (.inr hin))

theorem Tracked.occur (h : Tracked table l start s seen) {rows' : TableRows}
    (hrows : rows ∈ seen) (hsame : ∀ k, k ∉ s.touched → rows' k = rows k) (hkeyed : l.Keyed rows')
    : Tracked table l start s (rows' :: seen) :=
  { h with
    untouched := forall_mem_cons.mpr
      ⟨fun k hk => (hsame k hk).trans (h.untouched rows hrows k hk), h.untouched⟩
    keyed := forall_mem_cons.mpr ⟨hkeyed, h.keyed⟩ }

end Steps

theorem Layout.Keyed.store (h : l.Keyed rows) {row : List Value} (hrow : l.IsRow row)
    : l.Keyed (Function.update rows (keyOf l.pkFlags row) (some row)) := by
  intro k r hr
  rw [Function.update_apply] at hr
  split_ifs at hr with heq
  · cases hr
    exact ⟨hrow, heq.symm⟩
  · exact h k r hr

theorem Layout.Keyed.erase (h : l.Keyed rows) (k : List Value)
    : l.Keyed (Function.update rows k none) := by
  intro k' r hr
  rw [Function.update_apply] at hr
  split_ifs at hr
  exact h k' r hr

/-- Along a history the recorder knows what every touched row was at the start. -/
theorem History.tracked {start : TableRows} (h : History table l start s seen rows)
    (hstart : l.Keyed start) (hnull : ∀ rows ∈ seen, KeysNotNull rows)
    : Tracked table l start s seen := by
  induction h with
  | attach enabled attached empty =>
    refine ⟨⟨enabled, attached, .inl empty, by simp [empty]⟩, ?_, ?_, ?_, ?_⟩
    · simp [SessionState.touched, SessionState.recorded, empty]
    · simp [SessionState.recorded, empty]
    · simp
    · simpa using hstart
  | @insert s seen rows before row isRow absent rowid reported sameKey indirect ih =>
    obtain ⟨hnew, hseen⟩ := forall_mem_cons.mp hnull
    have htracked := ih hseen
    have hlast := before.last_mem
    have hpk : .null ∉ keyOf l.pkFlags row := hnew _ (by simp)
    obtain ⟨hrecord, htouched⟩ :=
      htracked.record .insert hpk (.replicate l.ncol .null) indirect hlast
      fun _ => absent
    simp only [recordSessionChange, sameKey]
    refine hrecord.occur hlast (fun k hk => ?_) ((htracked.keyed rows hlast).store isRow)
    exact Function.update_of_ne (fun heq => hk ((htouched k).mpr (.inl heq))) _ _
  | @update s seen rows before old new isRow present free rowid indirect ih =>
    obtain ⟨hnew, hseen⟩ := forall_mem_cons.mp hnull
    have htracked := ih hseen
    have hlast := before.last_mem
    have hold := (htracked.keyed rows hlast _ _ present).1
    have holdPk : .null ∉ keyOf l.pkFlags old := hseen rows hlast _ (by simp [present])
    have hnewPk : .null ∉ keyOf l.pkFlags new := hnew _ (by simp)
    obtain ⟨hfirst, htouched⟩ := htracked.record .update holdPk old indirect hlast fun _ => present
    -- The key the row moves to was free, unless the report of the old key covers it.
    obtain ⟨hsecond, htouched'⟩ := hfirst.record .insert hnewPk (.replicate l.ncol .null) indirect
      hlast fun hin => free.resolve_left fun heq => hin ((htouched _).mpr (.inl heq))
    simp only [recordSessionChange, hold.pkValues, isRow.pkValues]
    rw [take_of_length_le hold.length.le]
    refine hsecond.occur hlast (fun k hk => ?_) (((htracked.keyed rows hlast).erase _).store isRow)
    rw [htouched', htouched, not_or, not_or] at hk
    rw [Function.update_of_ne hk.1, Function.update_of_ne hk.2.1]
  | @delete s seen rows before old present rowid indirect ih =>
    obtain ⟨-, hseen⟩ := forall_mem_cons.mp hnull
    have htracked := ih hseen
    have hlast := before.last_mem
    have hold := (htracked.keyed rows hlast _ _ present).1
    have hpk : .null ∉ keyOf l.pkFlags old := hseen rows hlast _ (by simp [present])
    obtain ⟨hrecord, htouched⟩ := htracked.record .delete hpk old indirect hlast fun _ => present
    simp only [recordSessionChange, hold.pkValues]
    rw [take_of_length_le hold.length.le]
    refine hrecord.occur hlast (fun k hk => ?_) ((htracked.keyed rows hlast).erase _)
    exact Function.update_of_ne (fun heq => hk ((htouched k).mpr (.inl heq))) _ _
  | rollback before occurred ih => exact ih hnull

end GraphiteSql.Session
