import GraphiteSql.Error

/-! Rowids of an `AUTOINCREMENT` table: how `INSERT` assigns them, and the high-water mark that
`sqlite_sequence` keeps. What the constraints decide about a row is given with the row; triggers
and the update action of an upsert are left out.
-/

namespace GraphiteSql.Autoincrement

open Lib

variable {r : Int64} {t : Table} {p : Progress}

def saturatingSucc (r : Int64) : Int64 :=
  if r = Int64.maxValue then Int64.maxValue else r + 1

def checkedSucc (r : Int64) : Result Int64 :=
  if r = Int64.maxValue then .error (.panic "attempt to add with overflow") else .ok (r + 1)

def checkedPred (r : Int64) : Result Int64 :=
  if r = Int64.minValue then .error (.panic "attempt to subtract with overflow") else .ok (r - 1)

def larger (a b : Int64) : Int64 :=
  if a ≤ b then b else a

/-- An `AUTOINCREMENT` table: the rowids it holds and the mark stored for it. For stating what a new
rowid has to exceed, `ever` are the rowids of all rows that were ever in it, and `kept` those that
an `INSERT OR FAIL` left there when it stopped.
-/
structure Table where
  rows : List Int64
  seq : Option Int64
  ever : List Int64
  kept : List Int64
deriving DecidableEq, Repr

/-- A table without a mark reads as one with the lowest. -/
def Table.mark (t : Table) : Int64 :=
  t.seq.getD Int64.minValue

/-- What becomes of a row once its rowid is known: it is inserted after the rows that `REPLACE`
removes for it, it is skipped (`IGNORE`), or it stops the statement, whose earlier changes are
kept under `FAIL` and undone otherwise.
-/
inductive Fate where
  | inserted (replaced : List Int64)
  | skipped
  | refused (keep : Bool)
deriving DecidableEq, Repr

/-- A row of an `INSERT`, with its rowid if it has one. -/
structure Row where
  explicit : Option Int64
  fate : Fate
deriving DecidableEq, Repr

/-- An `INSERT` between two rows, with the rowids of the rows it has inserted. -/
structure Progress where
  rows : List Int64
  inserted : List Int64
  nextAuto : Int64
  affected : Nat
deriving DecidableEq, Repr

/-- A failed statement, and whether it keeps what it has written. -/
structure Failure where
  error : Error
  keep : Bool
  progress : Progress

/-- The largest rowid, where the cursor's `last` stops. -/
def lastRowid : List Int64 → Option Int64
  | [] => none
  | r :: rows => some ((lastRowid rows).elim r (larger r))

def nextRowid (rows : List Int64) : Int64 :=
  match lastRowid rows with
  | some r => saturatingSucc r
  | none => 1

def autoRowid (rows : List Int64) (cand : Int64) : Result Int64 :=
  if cand < Int64.maxValue ∨ cand ∉ rows then .ok cand
  else .error (.error "database or disk is full")

def assignRowid (p : Progress) : (explicit : Option Int64) → Result (Int64 × Int64)
  | some r => .ok (r, larger p.nextAuto (saturatingSucc r))
  | none => do
      let r ← autoRowid p.rows p.nextAuto
      return (r, if p.nextAuto ≤ r then saturatingSucc r else Int64.maxValue)

def insertRow (p : Progress) (row : Row) : Except Failure Progress :=
  match assignRowid p row.explicit with
  | .error error => .error { error, keep := false, progress := p }
  | .ok (r, nextAuto) =>
      match row.fate with
      | .skipped => .ok { p with nextAuto }
      | .refused keep =>
          .error { error := .error "constraint failed", keep, progress := { p with nextAuto } }
      | .inserted replaced => .ok
          { rows := r :: p.rows.filter (· ∉ r :: replaced)
            inserted := r :: p.inserted
            nextAuto
            affected := p.affected + 1 }

def insertRows (p : Progress) (rows : List Row) : Except Failure Progress :=
  rows.foldlM insertRow p

def startInsert (t : Table) : Result Progress := do
  let nextAuto ← match t.seq with
    | some seq => do pure (larger (nextRowid t.rows) (← checkedSucc seq))
    | none => pure (nextRowid t.rows)
  return { rows := t.rows, inserted := [], nextAuto, affected := 0 }

def finishInsert (t : Table) (p : Progress) : Result Table := do
  if 0 < p.affected then
    let high ← checkedPred p.nextAuto
    let seq := if t.mark < high then some high else t.seq
    return { t with rows := p.rows, seq, ever := p.inserted ++ t.ever }
  else return { t with rows := p.rows, ever := p.inserted ++ t.ever }

/-- `exec_insert` under `run_dml_atomic`: the table afterwards, and the error if the statement
failed. The mark is written by statements that get through all their rows.
-/
def execInsert (t : Table) (rows : List Row) : Result (Table × Option Error) := do
  let start ← startInsert t
  match insertRows start rows with
  | .ok p => return (← finishInsert t p, none)
  | .error f =>
      let p := f.progress
      let stopped := { t with
        rows := p.rows
        ever := p.inserted ++ t.ever
        kept := p.inserted ++ t.kept }
      return (if f.keep then stopped else t, some f.error)

def execDelete (t : Table) (victims : List Int64) : Table :=
  { t with rows := t.rows.filter (· ∉ victims) }

/-- The tables that INSERT and DELETE lead to. -/
inductive History : Table → Prop where
  | created : History { rows := [], seq := none, ever := [], kept := [] }
  | insert {t t' : Table} {rows : List Row} {err : Option Error}
      (before : History t) (call : execInsert t rows = .ok (t', err))
      : History t'
  | delete {t : Table} (victims : List Int64) (before : History t) : History (execDelete t victims)

theorem toInt_bounds (r : Int64) : -2 ^ 63 ≤ r.toInt ∧ r.toInt < 2 ^ 63 :=
  ⟨Int64.le_toInt r, Int64.toInt_lt r⟩

theorem eq_maxValue_iff : r = Int64.maxValue ↔ r.toInt = 2 ^ 63 - 1 := by
  rw [← Int64.toInt_inj, Int64.toInt_maxValue]

theorem eq_minValue_iff : r = Int64.minValue ↔ r.toInt = -2 ^ 63 := by
  rw [← Int64.toInt_inj, Int64.toInt_minValue]

theorem toInt_succ (h : r ≠ Int64.maxValue) : (r + 1).toInt = r.toInt + 1 := by
  have hbounds := toInt_bounds r
  have hne := mt eq_maxValue_iff.mpr h
  rw [Int64.toInt_add, show (1 : Int64).toInt = 1 from rfl]
  exact Int.bmod_eq_of_le (by omega) (by omega)

theorem toInt_pred (h : r ≠ Int64.minValue) : (r - 1).toInt = r.toInt - 1 := by
  have hbounds := toInt_bounds r
  have hne := mt eq_minValue_iff.mpr h
  rw [Int64.toInt_sub, show (1 : Int64).toInt = 1 from rfl]
  exact Int.bmod_eq_of_le (by omega) (by omega)

/-- The saturating successor, as an integer. -/
theorem toInt_saturatingSucc (r : Int64)
    : (saturatingSucc r).toInt = min (r.toInt + 1) (2 ^ 63 - 1) := by
  have hbounds := toInt_bounds r
  unfold saturatingSucc
  split
  · next h => rw [eq_maxValue_iff.mp h]; rfl
  next h =>
  have hne := mt eq_maxValue_iff.mpr h
  rw [toInt_succ h]
  omega

theorem toInt_larger (a b : Int64) : (larger a b).toInt = max a.toInt b.toInt := by
  unfold larger
  split
  · next h => rw [Int64.le_iff_toInt_le] at h; omega
  · next h => rw [Int64.le_iff_toInt_le] at h; omega

-- The mark and the counter

/-- The stored mark covers every rowid that was ever in the table, but for those that a stopped
`INSERT OR FAIL` kept; `i64::MAX` is covered by the mark before it.
-/
structure Marked (t : Table) : Prop where
  covers : ∀ r ∈ t.ever, r ∈ t.kept ∨ (saturatingSucc r).toInt ≤ t.mark.toInt + 1
  below : ∀ seq, t.seq = some seq → seq ≠ Int64.maxValue

/-- The counter is past the rows at the start, the mark and the rows inserted since. -/
structure Counted (t : Table) (p : Progress) : Prop where
  covers : ∀ r ∈ p.inserted, (saturatingSucc r).toInt ≤ p.nextAuto.toInt
  next : (nextRowid t.rows).toInt ≤ p.nextAuto.toInt
  mark : t.mark.toInt + 1 ≤ p.nextAuto.toInt
  unchanged : p.affected = 0 → p.inserted = []

theorem nextRowid_covers {rows : List Int64} (hr : r ∈ rows)
    : (saturatingSucc r).toInt ≤ (nextRowid rows).toInt := by
  have hlast : ∃ m, lastRowid rows = some m ∧ r.toInt ≤ m.toInt := by
    induction rows with
    | nil => cases hr
    | cons r' rows ih =>
      refine ⟨_, rfl, ?_⟩
      cases hrest : lastRowid rows with
      | none =>
        cases rows with
        | nil => cases List.mem_singleton.mp hr; exact Int.le_refl _
        | cons => cases hrest
      | some m =>
        rw [Option.elim_some, toInt_larger]
        rcases List.mem_cons.mp hr with rfl | hr
        · omega
        · obtain ⟨m', hm', hle⟩ := ih hr
          cases hrest.symm.trans hm'
          omega
  obtain ⟨m, hm, hle⟩ := hlast
  rw [nextRowid, hm, toInt_saturatingSucc, toInt_saturatingSucc]
  omega

theorem toInt_nextRowid (rows : List Int64) : -2 ^ 63 < (nextRowid rows).toInt := by
  unfold nextRowid
  split
  · next r _ =>
    have hbounds := toInt_bounds r
    rw [toInt_saturatingSucc]
    omega
  · decide

/-- The counter starts past the mark, without an overflow. -/
theorem startInsert_counted (h : Marked t)
    : ∃ p, startInsert t = .ok p ∧ Counted t p := by
  have hnext := toInt_nextRowid t.rows
  cases hseq : t.seq with
  | none =>
    have hmark : t.mark.toInt = -2 ^ 63 := by
      rw [Table.mark, hseq]
      rfl
    refine ⟨⟨t.rows, [], nextRowid t.rows, 0⟩, ?_, nofun, Int.le_refl _, ?_, fun _ => rfl⟩
    · rw [startInsert, hseq]
      rfl
    · rw [hmark]
      exact Int.add_one_le_of_lt hnext
  | some seq =>
    have hbelow := h.below seq hseq
    have hmark : t.mark = seq := by
      rw [Table.mark, hseq]
      rfl
    have hlarger := toInt_larger (nextRowid t.rows) (seq + 1)
    have hsucc := toInt_succ hbelow
    refine ⟨⟨t.rows, [], larger (nextRowid t.rows) (seq + 1), 0⟩, ?_, nofun, ?_, ?_, fun _ => rfl⟩
    · rw [startInsert, hseq]
      dsimp only
      rw [checkedSucc, if_neg hbelow]
      rfl
    · rw [hlarger]
      omega
    · rw [hlarger, hmark]
      omega

theorem autoRowid_eq_ok {rows : List Int64} {cand : Int64}
    : autoRowid rows cand = .ok r ↔ r = cand ∧ (cand = Int64.maxValue → cand ∉ rows) := by
  unfold autoRowid
  have hlt : cand < Int64.maxValue ↔ cand ≠ Int64.maxValue := by
    have hbounds := toInt_bounds cand
    rw [Int64.lt_iff_toInt_lt, Ne, eq_maxValue_iff, Int64.toInt_maxValue]
    omega
  by_cases hmax : cand = Int64.maxValue
  · by_cases hin : cand ∈ rows
    · rw [if_neg (by rw [hlt]; simp [hmax, hmax ▸ hin])]
      simp [hmax, hmax ▸ hin]
    · rw [if_pos (.inr hin)]
      simp [hin, eq_comm]
  · rw [if_pos (.inl (hlt.mpr hmax))]
    simp [hmax, eq_comm]

theorem assignRowid_covers {explicit : Option Int64} {nextAuto : Int64}
    (h : assignRowid p explicit = .ok (r, nextAuto))
    : (saturatingSucc r).toInt ≤ nextAuto.toInt ∧ p.nextAuto.toInt ≤ nextAuto.toInt := by
  cases explicit with
  | some r' =>
    cases h
    rw [toInt_larger]
    omega
  | none =>
    obtain ⟨r', hauto, h⟩ := except_bind_eq_ok.mp h
    obtain ⟨rfl, -⟩ := autoRowid_eq_ok.mp hauto
    have hbounds := toInt_bounds p.nextAuto
    rw [if_pos (Int64.le_iff_toInt_le.mpr (Int.le_refl _))] at h
    cases h
    rw [toInt_saturatingSucc]
    omega

theorem insertRow_counted {p' : Progress} {row : Row} (h : Counted t p)
    (hrow : insertRow p row = .ok p') : Counted t p' := by
  unfold insertRow at hrow
  split at hrow
  · cases hrow
  next r nextAuto hassign =>
  obtain ⟨hself, hgrows⟩ := assignRowid_covers hassign
  have hnext := Int.le_trans h.next hgrows
  have hmark := Int.le_trans h.mark hgrows
  have hcovers : ∀ e ∈ p.inserted, (saturatingSucc e).toInt ≤ nextAuto.toInt :=
    fun e he => Int.le_trans (h.covers e he) hgrows
  split at hrow
  · cases hrow
    exact ⟨hcovers, hnext, hmark, h.unchanged⟩
  · cases hrow
  cases hrow
  exact ⟨List.forall_mem_cons.mpr ⟨hself, hcovers⟩, hnext, hmark, nofun⟩

theorem insertRows_counted {p' : Progress} {rows : List Row} (h : Counted t p)
    (hrows : insertRows p rows = .ok p') : Counted t p' :=
  except_foldlM_keeps (Counted t) (fun _ _ _ => insertRow_counted) h hrows

/-- The mark that is written covers the inserted rowids, and writing it does not overflow. -/
theorem finishInsert_marked (ht : Marked t) (h : Counted t p)
    : ∃ t', finishInsert t p = .ok t' ∧ Marked t' := by
  have habove := Int.lt_of_lt_of_le (toInt_nextRowid t.rows) h.next
  have hbounds := toInt_bounds p.nextAuto
  have hmark := h.mark
  have hmin : p.nextAuto ≠ Int64.minValue := by
    rw [Ne, eq_minValue_iff]
    omega
  have hpred := toInt_pred hmin
  have hmax : p.nextAuto - 1 ≠ Int64.maxValue := by
    rw [Ne, eq_maxValue_iff]
    omega
  unfold finishInsert
  split
  · rw [checkedPred, if_neg hmin]
    refine ⟨_, rfl, fun r hr => ?_, fun seq hseq => ?_⟩
    · have hraised : p.nextAuto.toInt ≤ (Option.getD (if t.mark < p.nextAuto - 1 then
          some (p.nextAuto - 1) else t.seq) Int64.minValue).toInt + 1 := by
        split
        · rw [Option.getD_some]
          omega
        · next hraise =>
          rw [Int64.lt_iff_toInt_lt] at hraise
          exact (by omega : p.nextAuto.toInt ≤ t.mark.toInt + 1)
      rcases List.mem_append.mp hr with hr | hr
      · exact .inr (Int.le_trans (h.covers r hr) hraised)
      · exact (ht.covers r hr).imp_right fun hle =>
          Int.le_trans hle (Int.le_trans hmark hraised)
    split at hseq
    · cases hseq
      exact hmax
    · exact ht.below seq hseq
  · next hnone =>
    refine ⟨_, rfl, ?_, ht.below⟩
    rw [h.unchanged (by omega)]
    exact ht.covers

theorem History.marked (h : History t) : Marked t := by
  induction h with
  | created => exact ⟨nofun, nofun⟩
  | @insert t t' rows err _ call ih =>
    obtain ⟨start, hstart, hcounted⟩ := startInsert_counted ih
    rw [execInsert, hstart, except_ok_bind] at call
    split at call
    · next p hp =>
      obtain ⟨t'', hfinish, hmarked⟩ := finishInsert_marked ih (insertRows_counted hcounted hp)
      rw [hfinish] at call
      cases call
      exact hmarked
    cases call
    split
    · refine ⟨fun r hr => ?_, ih.below⟩
      rcases List.mem_append.mp hr with hr | hr
      · exact .inl (List.mem_append_left _ hr)
      · exact (ih.covers r hr).imp_left (List.mem_append_right _)
    · exact ih
  | delete victims _ ih => exact ⟨ih.covers, ih.below⟩

-- Automatic rowids

theorem lt_iff_of_covers {n : Int64} (h : (saturatingSucc r).toInt ≤ n.toInt)
    : r < n ↔ r ≠ Int64.maxValue := by
  have hbounds := toInt_bounds r
  have hnext := toInt_bounds n
  rw [toInt_saturatingSucc] at h
  rw [Int64.lt_iff_toInt_lt, Ne, eq_maxValue_iff]
  omega

theorem eq_max_of_covers {n : Int64} (h : (saturatingSucc Int64.maxValue).toInt ≤ n.toInt)
    : n = Int64.maxValue := by
  have hbounds := toInt_bounds n
  rw [toInt_saturatingSucc, Int64.toInt_maxValue] at h
  rw [eq_maxValue_iff]
  omega

/-- Every rowid that was ever in the table and that the mark misses is below the next rowid of the
rows that are there now, or is one of them.
-/
def Table.Guarded (t : Table) : Prop :=
  ∀ e ∈ t.ever, t.mark < e → e < nextRowid t.rows ∨ e ∈ t.rows

instance (t : Table) : Decidable t.Guarded :=
  List.decidableBAll _ _

theorem Counted.passed (h : Counted t p) (hguarded : t.Guarded)
    {e : Int64} (he : e ∈ t.ever) : (saturatingSucc e).toInt ≤ p.nextAuto.toInt := by
  have hnext := h.next
  have hmark := h.mark
  by_cases hmissed : t.mark < e
  · rcases hguarded e he hmissed with hbelow | hrow
    · rw [Int64.lt_iff_toInt_lt] at hbelow
      rw [toInt_saturatingSucc]
      omega
    · exact Int.le_trans (nextRowid_covers hrow) hnext
  · rw [Int64.lt_iff_toInt_lt] at hmissed
    rw [toInt_saturatingSucc]
    omega

/-- A covered rowid is not assigned again, except for `i64::MAX` when it is gone. -/
theorem autoRowid_exceeds_iff {rows ever : List Int64} {cand : Int64}
    (h : ∀ e ∈ ever, (saturatingSucc e).toInt ≤ cand.toInt)
    : (∀ r, autoRowid rows cand = .ok r → ∀ e ∈ ever, e < r)
      ↔ (Int64.maxValue ∈ ever → Int64.maxValue ∈ rows) := by
  constructor
  · intro hall hmem
    -- the counter is at the end of the range, so it would be assigned once more
    by_contra hgone
    have hnext := eq_max_of_covers (h _ hmem)
    have hless := hall cand (autoRowid_eq_ok.mpr ⟨rfl, fun _ => hnext ▸ hgone⟩) _ hmem
    exact (lt_iff_of_covers (h _ hmem)).mp hless rfl
  · intro hkept r hauto e he
    obtain ⟨rfl, hfree⟩ := autoRowid_eq_ok.mp hauto
    refine (lt_iff_of_covers (h e he)).mpr ?_
    rintro rfl
    have hnext := eq_max_of_covers (h _ he)
    exact hfree hnext (hnext ▸ hkept he)

theorem autoRowid_full {rows : List Int64} {cand : Int64} {e : Error}
    (h : autoRowid rows cand = .error e) : e = .error "database or disk is full" := by
  unfold autoRowid at h
  split at h
  · cases h
  · cases h
    rfl

/-- The table after `INSERT` of the rowid 1, an `INSERT OR FAIL` that stops behind the rowid 100,
and a `DELETE` of the rowids listed.
-/
def stoppedTable (deleted : List Int64) : Table :=
  execDelete ⟨[100, 1], some 1, [100, 1], [100]⟩ deleted

theorem history_stoppedTable (deleted : List Int64) : History (stoppedTable deleted) := by
  have hfirst : History ⟨[1], some 1, [1], []⟩ := .insert .created
    (show execInsert _ [{ explicit := some 1, fate := .inserted [] }] = .ok (_, none) by
      decide +kernel)
  exact .delete deleted (.insert hfirst (show execInsert _
    [{ explicit := some 100, fate := .inserted [] }, { explicit := some 1, fate := .refused true }]
      = .ok (_, some (.error "constraint failed")) by decide +kernel))

end GraphiteSql.Autoincrement
