import GraphiteSql.Value
import Mathlib.Data.List.Infix

/-! `eval_recursive_cte`, and what stopping a recursion early changes: by a `LIMIT` and `OFFSET` of
the CTE, and by the cap that `recursive_cte_outer_cap` derives from the consuming query.
-/

namespace GraphiteSql.Cte

abbrev Row := List Value

def rowsEqual (a b : Row) : Bool :=
  a.length == b.length && (a.zip b).all fun pair => cmpValues pair.1 pair.2 == .eq

structure SortKey where
  index : Nat
  descending : Bool
  nullsFirst : Option Bool
  coll : Collation

def cmpOrder (a b : Value) (key : SortKey) : Ordering :=
  let nullsFirst := key.nullsFirst.getD !key.descending
  match a, b with
  | .null, .null => .eq
  | .null, _ => if nullsFirst then .lt else .gt
  | _, .null => if nullsFirst then .gt else .lt
  | a, b => if key.descending then (cmpValuesColl a b key.coll).swap else cmpValuesColl a b key.coll

def sortsBefore (a b : Row) : List SortKey → Bool
  | [] => false
  | key :: keys =>
      match cmpOrder (a.getD key.index .null) (b.getD key.index .null) key with
      | .eq => sortsBefore a b keys
      | ord => ord == .lt

/-- The position of the queued row that sorts first; ties keep the order of insertion. -/
def best (keys : List SortKey) (queue : List Row) : Nat :=
  (List.range' 1 (queue.length - 1)).foldl
    (fun best i => if sortsBefore (queue.getD i []) (queue.getD best []) keys then i else best) 0

/-- The rows that are equal to no row seen before and to none before them. -/
def unseen (seen : List Row) : List Row → List Row
  | [] => []
  | row :: rows =>
      if seen.any (rowsEqual · row) then unseen seen rows else row :: unseen (seen ++ [row]) rows

def dedupRows (rows : List Row) : List Row :=
  unseen [] rows

/-- A recursive CTE: the rows of its anchor arms, and each recursive arm as a function of the rows
bound to the CTE's name. `keys` is `none` without an `ORDER BY` on the recursion.
-/
structure Recursion where
  anchor : List Row
  arms : List (List Row → List Row)
  distinct : Bool
  keys : Option (List SortKey)

namespace Recursion

variable (c : Recursion)

def produced (bound : List Row) : List Row :=
  c.arms.flatMap (· bound)

def start : List Row :=
  if c.distinct then dedupRows c.anchor else c.anchor

def notTerminated : Error := .error "recursive CTE did not terminate"

/-- The rows to be queued. Only `UNION` looks at the rows queued before. -/
def queued (seen rows : List Row) : List Row :=
  if c.distinct then unseen seen rows else rows

/-- The priority-queue loop, with the number of rounds left. `stop` tells from the number of rows
whether a limit is satisfied.
-/
def queueLoop (keys : List SortKey) (stop : Nat → Bool)
    : Nat → List Row → List Row → List Row → Result (List Row)
  | _, _, [], all => .ok all
  | 0, _, _ :: _, _ => .error notTerminated
  | rounds + 1, seen, first :: others, all =>
      let queue := first :: others
      let i := best keys queue
      let row := queue.getD i []
      if stop (all.length + 1) then .ok (all ++ [row])
      else
        let fresh := c.queued seen (c.produced [row])
        queueLoop keys stop rounds (seen ++ fresh) (queue.eraseIdx i ++ fresh) (all ++ [row])

/-- The rows of a pass that are new: none of the rows before the pass equals them. -/
def fresh (working all : List Row) : List Row :=
  (c.produced working).filter fun row => !(c.distinct && all.any (rowsEqual · row))

def batchLoop (stop : Nat → Bool) : Nat → List Row → List Row → Result (List Row)
  | 0, _, _ => .error notTerminated
  | rounds + 1, working, all =>
      let fresh := c.fresh working all
      if fresh = [] then .ok all
      else if stop (all ++ fresh).length then .ok (all ++ fresh)
      else batchLoop stop rounds fresh (all ++ fresh)

/-- The `LIMIT` (after the `OFFSET`) of the CTE or the cap of the consuming query is reached. -/
def stops (limit : Option Nat) (offset : Nat) (cap : Option Nat) (n : Nat) : Bool :=
  limit.any (offset + · ≤ n) || cap.any (· ≤ n)

def loop (stop : Nat → Bool) : Result (List Row) :=
  match c.keys with
  | some keys =>
      let queue := c.queued [] c.start
      queueLoop c keys stop 1000000 queue queue []
  | none => batchLoop c stop 1000000 c.start c.start

def window (limit : Option Nat) (offset : Nat) (rows : List Row) : List Row :=
  match limit with
  | some limit => (rows.drop offset).take limit
  | none => rows.drop offset

def eval (limit : Option Nat) (offset : Nat) (cap : Option Nat)
    : Result (List Row) := do
  return window limit offset (← c.loop (stops limit offset cap))

end Recursion

-- The consuming query

/-- An expression, as far as the test for aggregates looks into it. -/
inductive Expr where
  /-- A literal, a parameter or a column. -/
  | leaf (value : Row → Value)
  /-- An operator, `IN` with a list, `CASE`, `CAST` or `COLLATE`. -/
  | operator (args : List Expr) (value : List Value → Value)
  /-- A call: of a scalar function of the arguments, or of an aggregate or (with `OVER`) window
  function, which reads all rows.
  -/
  | function (name : String) (star windowed : Bool) (args : List Expr) (scalar : List Value → Value)
    (whole : List Row → Nat → Value)
  /-- What the test does not look into: a subquery, `EXISTS`, `IN (SELECT …)` or a row value. -/
  | closed (value : List Row → Nat → Value)

def toAsciiLower (name : String) : List Char :=
  name.toList.map Char.toLower

def isAggregateCall (name : String) (nargs : Nat) (star : Bool) : Bool :=
  ["count", "sum", "total", "avg", "group_concat", "string_agg", "json_group_array",
    "jsonb_group_array", "json_group_object", "jsonb_group_object", "geopoly_group_bbox", "median",
    "percentile", "percentile_cont", "percentile_disc", "decimal_sum"].any
      (·.toList == toAsciiLower name)
  || ["min", "max"].any (·.toList == toAsciiLower name) && (star || nargs == 1)

namespace Expr

variable (isAgg : String → Nat → Bool → Bool)

mutual

def containsAgg : Expr → Bool
  | .leaf _ => false
  | .operator args _ => anyContainsAgg args
  | .function name star windowed args _ _ =>
      !windowed && isAgg name args.length star || anyContainsAgg args
  | .closed _ => false

def anyContainsAgg : List Expr → Bool
  | [] => false
  | e :: es => containsAgg e || anyContainsAgg es

end

mutual

/-- The value at a position of the rows of the CTE. -/
def value (cte : List Row) (i : Nat) : Expr → Value
  | .leaf value => value (cte.getD i [])
  | .operator args value => value (values cte i args)
  | .function name star windowed args scalar whole =>
      if windowed || isAgg name args.length star then whole cte i else scalar (values cte i args)
  | .closed value => value cte i

def values (cte : List Row) (i : Nat) : List Expr → List Value
  | [] => []
  | e :: es => value cte i e :: values cte i es

end

mutual

/-- No window function, subquery or row value occurs. -/
def rowWise : Expr → Bool
  | .leaf _ => true
  | .operator args _ => allRowWise args
  | .function _ _ windowed args _ _ => !windowed && allRowWise args
  | .closed _ => false

def allRowWise : List Expr → Bool
  | [] => true
  | e :: es => rowWise e && allRowWise es

end

variable {isAgg} {cte cte' : List Row} {i : Nat}

mutual

/-- What passes the test and is row-wise has its value from the row alone. -/
theorem value_congr (hrow : cte.getD i [] = cte'.getD i []) (e : Expr)
    (hagg : e.containsAgg isAgg = false) (hwise : e.rowWise = true)
    : e.value isAgg cte i = e.value isAgg cte' i := by
  cases e with
  | leaf f => rw [value, value, hrow]
  | operator args f => rw [value, value, values_congr hrow args hagg hwise]
  | function name star windowed args scalar whole =>
    rw [containsAgg, Bool.or_eq_false_iff] at hagg
    rw [rowWise, Bool.and_eq_true, Bool.not_eq_true'] at hwise
    obtain ⟨hcall, hargs⟩ := hagg
    rw [hwise.1, Bool.not_false, Bool.true_and] at hcall
    rw [value, value, hwise.1, hcall, values_congr hrow args hargs hwise.2]
    rfl
  | closed f => cases hwise

theorem values_congr (hrow : cte.getD i [] = cte'.getD i []) (es : List Expr)
    (hagg : anyContainsAgg isAgg es = false) (hwise : allRowWise es = true)
    : values isAgg cte i es = values isAgg cte' i es := by
  cases es with
  | nil => rfl
  | cons e es =>
    rw [anyContainsAgg, Bool.or_eq_false_iff] at hagg
    rw [allRowWise, Bool.and_eq_true] at hwise
    rw [values, values, value_congr hrow e hagg.1 hwise.1, values_congr hrow es hagg.2 hwise.2]

end

end Expr

inductive ResultColumn where
  | wildcard
  | expr (e : Expr)

/-- The expression of a column other than `*`. -/
def ResultColumn.expr? : ResultColumn → Option Expr
  | wildcard => none
  | expr e => some e

/-- A consuming query: its columns, which of its clauses are present, whether its one source is the
CTE by name, and the values of its `LIMIT` and `OFFSET`.
-/
structure OuterSelect where
  ctes : Nat
  columns : List ResultColumn
  compound : Bool
  distinct : Bool
  groupBy : Bool
  orderBy : Bool
  whereClause : Bool
  having : Option Expr
  recursive : Bool
  plainSource : Bool
  limit : Option Int
  offset : Option Int

/-- Aggregates that are built in, or registered with the connection under a lower-case name. -/
def isAgg (aggregates : List String) (name : String) (nargs : Nat) (star : Bool) : Bool :=
  isAggregateCall name nargs star || aggregates.any (·.toList == toAsciiLower name)

namespace OuterSelect

def hasResultAggregate (aggregates : List String) (sel : OuterSelect) : Bool :=
  sel.columns.any (·.expr?.any (Expr.containsAgg (isAgg aggregates)))

def hasAggregate (aggregates : List String) (sel : OuterSelect) : Bool :=
  sel.hasResultAggregate aggregates || sel.having.any (Expr.containsAgg (isAgg aggregates))

def skip (sel : OuterSelect) : Nat :=
  (max (sel.offset.getD 0) 0).toNat

end OuterSelect

def recursiveCteOuterCap (aggregates : List String) (sel : OuterSelect) : Option Nat :=
  if sel.ctes ≠ 1 || sel.compound || sel.distinct || sel.groupBy || sel.orderBy || sel.whereClause
      || sel.having.isSome || sel.hasAggregate aggregates || !sel.recursive || !sel.plainSource then
    none
  else
    match sel.limit with
    | none => none
    | some n => if n < 0 then none else some (n.toNat + sel.skip)

namespace OuterSelect

variable (aggregates : List String)

/-- The result row for a position of the CTE. Window functions and subqueries may read all rows. -/
def project (sel : OuterSelect) (cte : List Row) (i : Nat) : Row :=
  sel.columns.flatMap fun column =>
    match column with
    | .wildcard => cte.getD i []
    | .expr e => [e.value (isAgg aggregates) cte i]

/-- The result of a query for which there is a cap. -/
def rows (sel : OuterSelect) (cte : List Row) : List Row :=
  Recursion.window (sel.limit.map Int.toNat) sel.skip
    ((List.range cte.length).map (sel.project aggregates cte))

def rowWise (sel : OuterSelect) : Bool :=
  sel.columns.all (·.expr?.all Expr.rowWise)

end OuterSelect

namespace Recursion

variable {c : Recursion} {total : List Row}

section Cut

variable {stop stop' : Nat → Bool} (early : ∀ n, stop n = true → stop' n = true)

include early

/-- A run that stops earlier returns the first rows of the other. -/
theorem batchLoop_cut {rounds : Nat} {working all : List Row}
    (h : c.batchLoop stop rounds working all = .ok total)
    : all <+: total ∧ ∃ part, c.batchLoop stop' rounds working all = .ok part ∧ part <+: total
      ∧ (part = total ∨ stop' part.length = true) := by
  induction rounds generalizing working all with
  | zero => cases h
  | succ rounds ih =>
    rw [batchLoop] at h ⊢
    by_cases hlast : c.fresh working all = []
    · rw [if_pos hlast] at h ⊢
      cases h
      exact ⟨List.prefix_refl _, _, rfl, List.prefix_refl _, .inl rfl⟩
    rw [if_neg hlast] at h ⊢
    split at h
    · rename_i hstop
      cases h
      rw [if_pos (early _ hstop)]
      exact ⟨List.prefix_append .., _, rfl, List.prefix_refl _, .inl rfl⟩
    obtain ⟨hall, hpart⟩ := ih h
    refine ⟨(List.prefix_append ..).trans hall, ?_⟩
    split
    · exact ⟨_, rfl, hall, .inr ‹_›⟩
    · exact hpart

theorem queueLoop_cut (keys : List SortKey) {rounds : Nat} {seen queue all : List Row}
    (h : c.queueLoop keys stop rounds seen queue all = .ok total)
    : all <+: total ∧ ∃ part, c.queueLoop keys stop' rounds seen queue all = .ok part
      ∧ part <+: total ∧ (part = total ∨ stop' part.length = true) := by
  induction rounds generalizing seen queue all with
  | zero | succ rounds ih =>
    cases queue with
    | nil =>
      obtain rfl : all = total := by simpa [queueLoop] using h
      exact ⟨List.prefix_refl _, all, by simp [queueLoop], List.prefix_refl _, .inl rfl⟩
    | cons first others =>
      first
      | cases h
      | rw [queueLoop] at h ⊢
        split at h
        · rename_i hstop
          cases h
          rw [if_pos (early _ hstop)]
          exact ⟨List.prefix_append .., _, rfl, List.prefix_refl _, .inl rfl⟩
        obtain ⟨hall, hpart⟩ := ih h
        refine ⟨(List.prefix_append ..).trans hall, ?_⟩
        split
        · exact ⟨_, rfl, hall, .inr (by simpa using ‹_›)⟩
        · exact hpart

theorem loop_cut (h : c.loop stop = .ok total)
    : ∃ part,
      c.loop stop' = .ok part ∧ part <+: total ∧ (part = total ∨ stop' part.length = true) := by
  unfold loop at h ⊢
  cases hkeys : c.keys with
  | some keys =>
    rw [hkeys] at h
    exact (queueLoop_cut early keys h).2
  | none =>
    rw [hkeys] at h
    exact (batchLoop_cut early h).2

end Cut

theorem eval_eq_ok {limit cap : Option Nat} {offset : Nat} {rows : List Row}
    : c.eval limit offset cap = .ok rows
      ↔ ∃ part, c.loop (stops limit offset cap) = .ok part ∧ rows = window limit offset part := by
  rw [eval]
  cases c.loop (stops limit offset cap) <;> simp [eq_comm]

section Window

variable {limit : Option Nat} {offset : Nat} {part : List Row} (hpart : part <+: total)

include hpart

theorem window_isPrefix (limit : Option Nat) (offset : Nat)
    : window limit offset part <+: window limit offset total := by
  cases limit with
  | none => exact hpart.drop offset
  | some limit => exact (hpart.drop offset).take limit

/-- A cut behind the `LIMIT` does not change the rows that it keeps. -/
theorem window_cut (hlong : limit.any (offset + · ≤ part.length))
    : window limit offset part = window limit offset total := by
  cases limit with
  | none => cases hlong
  | some limit =>
    have hfits : offset + limit ≤ part.length := by simpa using hlong
    have hle := hpart.length_le
    refine (window_isPrefix hpart _ _).eq_of_length ?_
    simp only [window, List.length_take, List.length_drop]
    omega

end Window

end Recursion

open Recursion List

section Outer

variable {aggregates : List String} {sel : OuterSelect} {cap : Nat}
  (hcap : recursiveCteOuterCap aggregates sel = some cap)

include hcap

theorem recursiveCteOuterCap_some
    : sel.hasResultAggregate aggregates = false
      ∧ ∃ n : Int, sel.limit = some n ∧ cap = n.toNat + sel.skip := by
  unfold recursiveCteOuterCap at hcap
  split_ifs at hcap with hshape
  have hplain : sel.hasResultAggregate aggregates = false := by
    simp only [OuterSelect.hasAggregate, Bool.or_eq_true, not_or, Bool.not_eq_true] at hshape
    tauto
  cases hlimit : sel.limit with
  | none => simp [hlimit] at hcap
  | some n =>
    rw [hlimit] at hcap
    dsimp only at hcap
    split_ifs at hcap
    exact ⟨hplain, n, rfl, (Option.some.inj hcap).symm⟩

/-- The row for a position depends on the row of the CTE there alone. -/
theorem OuterSelect.project_congr (hwise : sel.rowWise = true) {part full : List Row} {i : Nat}
    (hrow : part.getD i [] = full.getD i [])
    : sel.project aggregates part i = sel.project aggregates full i := by
  obtain ⟨hplain, -⟩ := recursiveCteOuterCap_some hcap
  refine flatMap_congr fun column hmem => ?_
  cases column with
  | wildcard => exact hrow
  | expr e =>
    have hagg : e.containsAgg (isAgg aggregates) = false :=
      Bool.eq_false_iff.mpr (any_eq_false.mp hplain _ hmem)
    exact congrArg (fun v => [v]) (Expr.value_congr hrow e hagg (all_eq_true.mp hwise _ hmem))

theorem OuterSelect.rows_getElem? (cte : List Row) (j : Nat)
    : (sel.rows aggregates cte)[j]?
      = if sel.skip + j < cap ∧ sel.skip + j < cte.length then
          some (sel.project aggregates cte (sel.skip + j))
        else none := by
  obtain ⟨-, n, hn, rfl⟩ := recursiveCteOuterCap_some hcap
  rw [OuterSelect.rows, hn]
  simp only [window, Option.map_some, getElem?_take, getElem?_drop, getElem?_map]
  rw [Nat.add_comm n.toNat]
  by_cases hlen : sel.skip + j < cte.length <;> simp [hlen]

/-- Rows below the cap are enough for a query that is row-wise. -/
theorem OuterSelect.rows_eq (hwise : sel.rowWise = true) {part full : List Row}
    (hpart : part <+: full) (hlong : ∀ i < cap, i < full.length → i < part.length)
    : sel.rows aggregates part = sel.rows aggregates full := by
  refine List.ext_getElem? fun j => ?_
  rw [rows_getElem? hcap, rows_getElem? hcap]
  by_cases hj : sel.skip + j < cap ∧ sel.skip + j < full.length
  · have hin := hlong _ hj.1 hj.2
    obtain ⟨rest, rfl⟩ := hpart
    rw [if_pos hj, if_pos ⟨hj.1, hin⟩,
      project_congr hcap hwise (getD_append _ rest _ _ hin).symm]
  · rw [if_neg hj, if_neg fun h => hj ⟨h.1, h.2.trans_le hpart.length_le⟩]

end Outer

/-- The numbers from 1 to 4, by `UNION ALL`. -/
def counting : Recursion where
  anchor := [[.integer 1]]
  arms := [List.flatMap fun row =>
    match row with
    | [.integer i] => if i < 4 then [[.integer (i + 1)]] else []
    | _ => []]
  distinct := false
  keys := none

/-- `SELECT column FROM c LIMIT n`. -/
def firstOf (n : Int) (column : ResultColumn) : OuterSelect where
  ctes := 1
  columns := [column]
  compound := false
  distinct := false
  groupBy := false
  orderBy := false
  whereClause := false
  having := none
  recursive := true
  plainSource := true
  limit := some n
  offset := none

/-- `count(*) OVER ()`. -/
def countOver : Expr :=
  .function "count" true true [] (fun _ => .null) fun rows _ => .integer (.ofNat rows.length)

/-- `max(x, 0)`, which is no aggregate. -/
def maxScalar : Expr :=
  .function "max" false false [.leaf (·.headD .null), .leaf fun _ => .integer 0] (·.headD .null)
    fun _ _ => .null

end GraphiteSql.Cte
