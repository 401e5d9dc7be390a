import GraphiteSql.Dml.Update
import GraphiteSql.Value.Order
import Mathlib.Data.List.Dedup

/-! Conflicts of rows: when two rows collide on a rowid or a unique key, and that the conflicts of
a new row are found if the indexes know the rows it collides with.
-/

namespace GraphiteSql

open List

variable {c : Collation} {a b : Value} {colls : List Collation} {m : TableMeta} {set : List Nat}
  {idx : IndexMeta} {rows indexed : List (Int64 × Row)} {i : Int64} {values : Row} {t : RowTable}
  {new : Int64 × Row}

/-- Equality under a collation does not depend on the order of the texts. -/
def Collation.Symmetric (c : Collation) : Prop :=
  ∀ x y, cmpText x y c = .eq → cmpText y x c = .eq

theorem compare_eq_symm {α : Type} [Ord α] [Std.OrientedOrd α] {x y : α} (h : compare x y = .eq)
    : compare y x = .eq := by
  rw [@Std.OrientedCmp.eq_swap α compare _ y x, h]
  rfl

theorem builtIn_symmetric (h : c ∈ builtInCollations)
    : c.Symmetric := by
  intro x y hxy
  rw [cmpText_fold h] at hxy ⊢
  exact compare_eq_symm hxy

theorem cmpValues_eq_symm (h : cmpValues a b = .eq)
    : cmpValues b a = .eq := by
  have hswap : ∀ o : Ordering, o = .eq → o.swap = .eq := fun o ho => by
    rw [ho]
    rfl
  have hreal : ∀ x y : F64, (x.partialCmp y).getD .eq = .eq → (y.partialCmp x).getD .eq = .eq :=
    fun x y hxy => by
      unfold F64.partialCmp at hxy ⊢
      rw [Bool.or_comm]
      split_ifs at hxy ⊢
      · rfl
      · exact compare_eq_symm hxy
  cases a <;> cases b
  case null.null => rfl
  case integer.real => exact hswap _ h
  case real.integer => exact (Ordering.swap_eq_eq).mp h
  case real.real => exact hreal _ _ h
  all_goals exact compare_eq_symm h

theorem cmpValuesColl_eq_symm (hc : c.Symmetric) (h : cmpValuesColl a b c = .eq)
    : cmpValuesColl b a c = .eq := by
  unfold cmpValuesColl at h ⊢
  cases a <;> cases b
  all_goals first
    | exact hc _ _ h
    | exact cmpValues_eq_symm h

theorem cmpValuesColl_null (h : cmpValuesColl a b c = .eq) (ha : a = .null)
    : b = .null := by
  cases b <;> simp_all [cmpValuesColl, cmpValues, Value.storageClass]

namespace Dml

-- Conflicts

def IndexMeta.keyed (idx : IndexMeta) (a : Int64 × Row) : Bool :=
  idx.inIndex (some a.1) a.2 && !hasNull (idx.keyValues a.1 a.2)

def IndexMeta.conflict (idx : IndexMeta) (new old : Int64 × Row) : Bool :=
  idx.keyed new && (idx.inIndex (some old.1) old.2
    && sameKey idx.collations (idx.keyValues old.1 old.2) (idx.keyValues new.1 new.2))

def setConflict (m : TableMeta) (set : List Nat) (new old : Row) : Bool :=
  !(set.any fun i => new.getD i .null == .null) && sameSet m set old new

def rowConflict (m : TableMeta) (new old : Int64 × Row) : Bool :=
  old.1 == new.1 || m.standalone.any (·.conflict new old)
    || m.unique.any fun s => setConflict m s.1 new.2 old.2

/-- What a table gives: collations that compare symmetrically, keys of one length, and an automatic
index for every unique set.
-/
structure TableMeta.Lawful (m : TableMeta) : Prop where
  columns : ∀ i, (m.collation i).Symmetric
  indexes : ∀ idx ∈ m.indexes, ∀ c ∈ idx.collations, c.Symmetric
  keys : ∀ idx ∈ m.indexes, ∀ rowid row, (idx.keyValues rowid row).length = idx.collations.length
  auto : ∀ s ∈ m.unique, ∃ idx ∈ m.indexes, idx.unique = true
    ∧ (∀ rowid row, idx.inIndex rowid row = true)
    ∧ (∀ rowid row, idx.keyValues rowid row = s.1.map (row.getD · .null))
    ∧ idx.collations = s.1.map m.collation

theorem sameKey_iff {a b : List Value}
    : sameKey colls a b = true ↔ a.length = b.length
      ∧ ∀ (i : Nat) (x y : Value) (c : Collation), a[i]? = some x → b[i]? = some y →
        colls[i]? = some c → cmpValuesColl x y c = .eq := by
  unfold sameKey
  rw [Bool.and_eq_true, beq_iff_eq, all_eq_true]
  refine and_congr_right fun _ => ⟨fun h i x y c hx hy hc => ?_, fun h p hp => ?_⟩
  · have hmem : ((x, y), c) ∈ (a.zip b).zip colls := mem_of_getElem? (i := i) (by
      rw [getElem?_zip_eq_some, getElem?_zip_eq_some]
      exact ⟨⟨hx, hy⟩, hc⟩)
    exact beq_iff_eq.mp (h _ hmem)
  · obtain ⟨i, hi⟩ := getElem?_of_mem hp
    rw [getElem?_zip_eq_some, getElem?_zip_eq_some] at hi
    exact beq_iff_eq.mpr (h i _ _ _ hi.1.1 hi.1.2 hi.2)

theorem sameKey_symm (hcolls : ∀ c ∈ colls, c.Symmetric)
    {a b : List Value} (h : sameKey colls a b = true)
    : sameKey colls b a = true := by
  obtain ⟨hlen, hall⟩ := sameKey_iff.mp h
  refine sameKey_iff.mpr ⟨hlen.symm, fun i x y c hx hy hc => ?_⟩
  exact cmpValuesColl_eq_symm (hcolls c (mem_of_getElem? hc)) (hall i y x c hy hx hc)

theorem mem_hasNull {key : List Value}
    : hasNull key = true ↔ ∃ i : Nat, key[i]? = some .null := by
  unfold hasNull
  rw [any_eq_true]
  constructor
  · intro ⟨v, hv, hnull⟩
    obtain ⟨i, hi⟩ := getElem?_of_mem hv
    exact ⟨i, by rw [hi, beq_iff_eq.mp hnull]⟩
  · intro ⟨i, hi⟩
    exact ⟨.null, mem_of_getElem? hi, beq_self_eq_true _⟩

theorem sameKey_hasNull {a b : List Value} (h : sameKey colls a b = true)
    (hlen : a.length = colls.length) (hnull : hasNull a = true)
    : hasNull b = true := by
  obtain ⟨hsame, hall⟩ := sameKey_iff.mp h
  obtain ⟨i, hi⟩ := mem_hasNull.mp hnull
  have hlt := (List.getElem?_eq_some_iff.mp hi).1
  have hb := getElem?_eq_getElem (show i < b.length by omega)
  have hc := getElem?_eq_getElem (show i < colls.length by omega)
  refine mem_hasNull.mpr ⟨i, ?_⟩
  rw [hb, cmpValuesColl_null (hall i _ _ _ hi hb hc) rfl]

theorem sameSet_symm (hm : ∀ i, (m.collation i).Symmetric)
    {a b : Row} (h : sameSet m set a b = true)
    : sameSet m set b a = true := by
  refine all_eq_true.mpr fun i hi => ?_
  have heq := all_eq_true.mp h i hi
  rw [beq_iff_eq] at heq ⊢
  exact cmpValuesColl_eq_symm (hm i) heq

theorem indexConflict_symm (hm : m.Lawful) (hidx : idx ∈ m.indexes)
    {a b : Int64 × Row} (h : idx.conflict a b = true)
    : idx.conflict b a = true := by
  simp only [IndexMeta.conflict, IndexMeta.keyed, Bool.and_eq_true, Bool.not_eq_true'] at h ⊢
  obtain ⟨⟨ha, hnull⟩, hb, hsame⟩ := h
  refine ⟨⟨hb, Bool.eq_false_iff.mpr fun hb' => ?_⟩, ha, sameKey_symm (hm.indexes idx hidx) hsame⟩
  rw [sameKey_hasNull hsame (hm.keys idx hidx ..) hb'] at hnull
  cases hnull

theorem setConflict_symm (hm : m.Lawful) {a b : Row} (h : setConflict m set a b = true)
    : setConflict m set b a = true := by
  simp only [setConflict, Bool.and_eq_true, Bool.not_eq_true', any_eq_false, beq_iff_eq] at h ⊢
  obtain ⟨hnull, hsame⟩ := h
  refine ⟨fun i hi hb => hnull i hi ?_, sameSet_symm hm.columns hsame⟩
  exact cmpValuesColl_null (beq_iff_eq.mp (all_eq_true.mp hsame i hi)) hb

theorem standalone_mem (h : idx ∈ m.standalone)
    : idx ∈ m.indexes ∧ idx.unique = true := by
  obtain ⟨hmem, hkind⟩ := mem_filter.mp h
  exact ⟨hmem, (Bool.and_eq_true_iff.mp hkind).1⟩

/-- What a conflict is: the same rowid, or the same key in an index or a set. -/
theorem rowConflict_iff {a b : Int64 × Row}
    : rowConflict m a b = true ↔ b.1 = a.1 ∨ (∃ idx ∈ m.standalone, idx.conflict a b = true)
      ∨ ∃ s ∈ m.unique, setConflict m s.1 a.2 b.2 = true := by
  simp [rowConflict, or_assoc]

/-- Conflicts do not depend on which row is new. -/
theorem rowConflict_symm (hm : m.Lawful) (a b : Int64 × Row)
    : rowConflict m a b = rowConflict m b a := by
  have himp : ∀ a b, rowConflict m a b = true → rowConflict m b a = true := fun a b h => by
    rw [rowConflict_iff] at h ⊢
    rcases h with hrowid | ⟨idx, hidx, h⟩ | ⟨s, hs, h⟩
    · exact .inl hrowid.symm
    · exact .inr (.inl ⟨idx, hidx, indexConflict_symm hm (standalone_mem hidx).1 h⟩)
    · exact .inr (.inr ⟨s, hs, setConflict_symm hm h⟩)
  exact Bool.eq_iff_iff.mpr ⟨himp a b, himp b a⟩

-- Finding conflicts

theorem mem_sortedIds {ι : Type} [LE ι] [DecidableLE ι] [DecidableEq ι] {ids : List ι} {i : ι}
    : i ∈ sortedIds ids ↔ i ∈ ids := by
  unfold sortedIds
  rw [mem_dedup, mem_insertionSort]

theorem mem_violation {ι : Type} {declared : OnConflict} {name : ViolationName} {rows : List ι}
    {i : ι}
    : (∃ v ∈ violation declared name rows, i ∈ v.rows) ↔ i ∈ rows := by
  unfold violation
  cases rows with
  | nil => simp
  | cons j rows => simp

theorem mem_seekRowids {key : List Value}
    : i ∈ idx.seekRowids rows key ↔ ∃ row, (i, row) ∈ rows ∧ idx.inIndex (some i) row = true
      ∧ sameKey idx.collations (idx.keyValues i row) key = true := by
  unfold IndexMeta.seekRowids
  simp [and_assoc]

theorem mem_collisions {rowid : Int64}
    : i ∈ idx.collisions rows rowid values
      ↔ ∃ row, (i, row) ∈ rows ∧ idx.conflict (rowid, values) (i, row) = true := by
  unfold IndexMeta.collisions IndexMeta.conflict IndexMeta.keyed
  split_ifs with hkeyed
  · simp [mem_seekRowids, hkeyed]
  · simp [hkeyed]

theorem mem_setCollisions
        : i ∈ setCollisions m rows set values
        ↔ ∃ row, (i, row) ∈ rows ∧ setConflict m set values row = true := by
  unfold setCollisions setConflict
  generalize (set.any fun i => values.getD i .null == .null) = null
  cases null <;> simp

theorem mem_violations {ι κ : Type} {constraints : List κ} {declared : κ → OnConflict}
    {name : κ → ViolationName} {rows : κ → List ι} {i : ι}
    : i ∈ (constraints.reverse.filterMap fun c => violation (declared c) (name c) (rows c)).flatMap
        (·.rows)
      ↔ ∃ c ∈ constraints, i ∈ rows c := by
  simp only [mem_flatMap, mem_filterMap, mem_reverse]
  constructor
  · intro ⟨v, ⟨c, hc, hv⟩, hi⟩
    exact ⟨c, hc, mem_violation.mp ⟨v, hv, hi⟩⟩
  · intro ⟨c, hc, hi⟩
    obtain ⟨v, hv, hrow⟩ := mem_violation.mpr hi
    exact ⟨v, ⟨c, hc, hv⟩, hrow⟩

/-- The rows of the violations are the candidates that conflict. -/
theorem mem_conflicts {rowid : Int64} {exclude : Option Int64}
    : i ∈ (findConflictsOrdered m indexed t rowid values exclude).flatMap (·.rows)
      ↔ ∃ row, (i, row) ∈ conflictCandidates m indexed t rowid values ∧ some i ≠ exclude
          ∧ rowConflict m (rowid, values) (i, row) = true := by
  unfold findConflictsOrdered
  generalize hlive : (conflictCandidates m indexed t rowid values).filter
    (fun r => some r.1 != exclude) = live
  have hmem : ∀ row, (i, row) ∈ live
      ↔ (i, row) ∈ conflictCandidates m indexed t rowid values ∧ some i ≠ exclude := fun row => by
    rw [← hlive]
    simp
  have hrowid : i ∈ (violation m.ipkOnConflict (.rowid m.ipk)
      ((live.filter fun r => r.1 == rowid).map (·.1))).toList.flatMap (·.rows)
      ↔ ∃ row, (i, row) ∈ live ∧ i = rowid := by
    simp only [mem_flatMap, Option.mem_toList]
    refine mem_violation.trans ?_
    simp
  simp only [flatMap_append, mem_append, hrowid, mem_violations, mem_collisions,
    mem_setCollisions, rowConflict_iff]
  constructor
  · intro h
    rcases h with (⟨row, hrow, h⟩ | ⟨idx, hidx, row, hrow, h⟩) | ⟨s, hs, row, hrow, h⟩
    · exact ⟨row, ((hmem row).mp hrow).1, ((hmem row).mp hrow).2, .inl h⟩
    · exact ⟨row, ((hmem row).mp hrow).1, ((hmem row).mp hrow).2, .inr (.inl ⟨idx, hidx, h⟩)⟩
    · exact ⟨row, ((hmem row).mp hrow).1, ((hmem row).mp hrow).2, .inr (.inr ⟨s, hs, h⟩)⟩
  intro ⟨row, hcandidate, hne, h⟩
  have hrow := (hmem row).mpr ⟨hcandidate, hne⟩
  rcases h with h | ⟨idx, hidx, h⟩ | ⟨s, hs, h⟩
  · exact .inl (.inl ⟨row, hrow, h⟩)
  · exact .inl (.inr ⟨idx, hidx, row, hrow, h⟩)
  · exact .inr ⟨s, hs, row, hrow, h⟩

/-- A set conflict is a conflict in the automatic index of the set. -/
theorem setConflict_auto (hin : ∀ rowid row, idx.inIndex rowid row = true)
    (hkey : ∀ rowid row, idx.keyValues rowid row = set.map (row.getD · .null))
    (hcolls : idx.collations = set.map m.collation) {a b : Int64 × Row}
    (h : setConflict m set a.2 b.2 = true)
    : idx.conflict a b = true := by
  simp only [setConflict, Bool.and_eq_true, Bool.not_eq_true'] at h
  obtain ⟨hnull, hsame⟩ := h
  simp only [IndexMeta.conflict, IndexMeta.keyed, hin, hkey, hcolls, Bool.true_and,
    Bool.and_eq_true, Bool.not_eq_true']
  refine ⟨by rw [hasNull, any_map]; exact hnull, sameKey_iff.mpr ⟨by simp, ?_⟩⟩
  intro i x y c hx hy hc
  simp only [getElem?_map, Option.map_eq_some_iff] at hx hy hc
  obtain ⟨k, hk, rfl⟩ := hx
  obtain ⟨k', hk', rfl⟩ := hy
  obtain ⟨k'', hk'', rfl⟩ := hc
  rw [hk] at hk' hk''
  cases hk'
  cases hk''
  exact beq_iff_eq.mp (all_eq_true.mp hsame k (mem_of_getElem? hk))

/-- A rowid comes up for a new row: it is the row's own, or a unique index has an entry with the key
of the new row for it.
-/
def TableMeta.Finds (m : TableMeta) (indexed : List (Int64 × Row)) (new : Int64 × Row) (i : Int64)
    : Prop :=
  i = new.1 ∨ ∃ row, (i, row) ∈ indexed
    ∧ ∃ idx ∈ m.indexes, idx.unique = true ∧ idx.conflict new (i, row) = true

theorem finds_indexed (hm : m.Lawful)
    {old : Int64 × Row} (hold : old ∈ indexed) (h : rowConflict m new old = true)
    : m.Finds indexed new old.1 := by
  rcases rowConflict_iff.mp h with heq | ⟨idx, hidx, h⟩ | ⟨s, hs, h⟩
  · exact .inl heq
  · exact .inr ⟨old.2, hold, idx, (standalone_mem hidx).1, (standalone_mem hidx).2, h⟩
  · obtain ⟨idx, hidx, hunique, hin, hkey, hcolls⟩ := hm.auto s hs
    exact .inr ⟨old.2, hold, idx, hidx, hunique, setConflict_auto hin hkey hcolls h⟩

/-- The candidates are the rows of the table whose rowids come up. -/
theorem mem_candidates {x : Int64 × Row}
    : x ∈ conflictCandidates m indexed t new.1 new.2 ↔ x ∈ t.rows ∧ m.Finds indexed new x.1 := by
  unfold conflictCandidates
  have hids : x ∈ t.rows → (x.1 ∈ (if (t.get? new.1).isSome then [new.1] else [])
        ++ (m.indexes.filter (·.unique)).flatMap (fun idx => idx.candidates indexed new.1 new.2)
      ↔ m.Finds indexed new x.1) := fun hx => by
    have hget := RowTable.get?_eq_some.mpr hx
    rw [mem_append]
    refine or_congr ?_ ?_
    · constructor
      · intro h
        split_ifs at h
        · exact mem_singleton.mp h
        · cases h
      · intro h
        rw [← h, hget]
        exact mem_cons_self
    simp only [mem_flatMap, mem_filter]
    constructor
    · intro ⟨idx, ⟨hidx, hunique⟩, h⟩
      obtain ⟨row, hrow, hconflict⟩ := mem_collisions.mp h
      exact ⟨row, hrow, idx, hidx, hunique, hconflict⟩
    · intro ⟨row, hrow, idx, hidx, hunique, hconflict⟩
      exact ⟨idx, ⟨hidx, hunique⟩, mem_collisions.mpr ⟨row, hrow, hconflict⟩⟩
  rw [mem_filterMap]
  constructor
  · intro ⟨id, hid, hget⟩
    obtain ⟨row, hrow, rfl⟩ := Option.map_eq_some_iff.mp hget
    have hx := RowTable.get?_eq_some.mp hrow
    exact ⟨hx, (hids hx).mp (mem_sortedIds.mp hid)⟩
  · intro ⟨hx, hfinds⟩
    exact ⟨x.1, mem_sortedIds.mpr ((hids hx).mpr hfinds),
      by rw [RowTable.get?_eq_some.mpr hx]; rfl⟩

theorem mem_found {exclude : Int64}
    : i ∈ (findConflictsOrdered m indexed t new.1 new.2 (some exclude)).flatMap (·.rows)
      ↔ ∃ row, (i, row) ∈ t.rows ∧ i ≠ exclude ∧ rowConflict m new (i, row) = true
          ∧ m.Finds indexed new i := by
  rw [mem_conflicts]
  refine exists_congr fun row => ?_
  have hcandidate : (i, row) ∈ conflictCandidates m indexed t new.1 new.2
      ↔ (i, row) ∈ t.rows ∧ m.Finds indexed new i := mem_candidates
  rw [hcandidate, ne_eq, Option.some.injEq]
  constructor
  · intro ⟨⟨hmem, hfinds⟩, hne, h⟩
    exact ⟨hmem, hne, h, hfinds⟩
  · intro ⟨hmem, hne, h, hfinds⟩
    exact ⟨⟨hmem, hfinds⟩, hne, h⟩

theorem resolveConflict_replace {ι α : Type} [LE ι] [DecidableLE ι] [DecidableEq ι]
    (violations : List (Violation ι)) (write : List ι → α)
    : ∃ replaced, (resolveConflict m (some .replace) violations).plan write
        = .ok (some (write replaced))
      ∧ ∀ i, i ∈ replaced ↔ i ∈ violations.flatMap (·.rows) := by
  have hhalt : ∀ violations : List (Violation ι),
      firstHalt m (some .replace) violations = none := fun violations => by
    induction violations with
    | nil => rfl
    | cons v violations ih => exact ih
  unfold resolveConflict
  cases violations with
  | nil => exact ⟨[], rfl, fun i => by simp⟩
  | cons v violations =>
    rw [hhalt]
    exact ⟨_, rfl, fun i => mem_sortedIds⟩

end Dml

end GraphiteSql
