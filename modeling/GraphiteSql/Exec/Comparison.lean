import GraphiteSql.Lib.Truth
import GraphiteSql.Value

/-! Comparisons of the tree-walking evaluator, and the constructs that handle NULL on their own:
`AND`, `OR`, `BETWEEN`, `IN` and `CASE`.
-/

namespace GraphiteSql.Eval

open Lib List

inductive Affinity where
  | blob
  | text
  | numeric
  | integer
  | real
deriving DecidableEq

/-- The conversions between texts and numbers. `isTrue` tells whether the number that a text or blob
begins with is not zero.
-/
structure Conversion where
  toText : Int64 ⊕ F64 → Bytes
  toNumberStrict : Bytes → Option (Int64 ⊕ F64)
  integralRealToInt : F64 → Option Int64
  isTrue : Value → Bool

def Conversion.reduce (c : Conversion) (r : F64) : Value :=
  match c.integralRealToInt r with
  | some i => .integer i
  | none => .real r

variable (c : Conversion)

def Affinity.coerce : Affinity → Value → Value
  | .blob, v => v
  | .text, .integer i => .text (c.toText (.inl i))
  | .text, .real r => .text (c.toText (.inr r))
  | .text, v => v
  | .real, .integer i => .real (F64.ofI64 i)
  | .real, .text t =>
      match c.toNumberStrict t with
      | some (.inl i) => .real (F64.ofI64 i)
      | some (.inr r) => .real r
      | none => .text t
  | .real, v => v
  | .integer, .real r | .numeric, .real r => c.reduce r
  | .integer, .text t | .numeric, .text t =>
      match c.toNumberStrict t with
      | some (.inl i) => .integer i
      | some (.inr r) => c.reduce r
      | none => .text t
  | .integer, v | .numeric, v => v

def isNumeric : Option Affinity → Bool
  | some .integer | some .real | some .numeric => true
  | _ => false

/-- The affinity of one side is applied to the other. The `TEXT` rule needs a side without any
affinity: a typeless column has the affinity `BLOB`.
-/
def applyComparisonAffinity (l : Value) (la : Option Affinity) (r : Value)
    (ra : Option Affinity) : Value × Value :=
  if isNumeric la && !isNumeric ra then (l, Affinity.numeric.coerce c r)
  else if isNumeric ra && !isNumeric la then (Affinity.numeric.coerce c l, r)
  else if la = some .text && ra.isNone then (l, Affinity.text.coerce c r)
  else if ra = some .text && la.isNone then (Affinity.text.coerce c l, r)
  else (l, r)

def boolValue (b : Bool) : Value :=
  .integer (if b then 1 else 0)

inductive CompareOp where
  | eq
  | notEq
  | lt
  | ltEq
  | gt
  | gtEq
deriving DecidableEq

def CompareOp.holds : CompareOp → Ordering → Bool
  | .eq, ord => ord == .eq
  | .notEq, ord => ord != .eq
  | .lt, ord => ord == .lt
  | .ltEq, ord => ord != .gt
  | .gt, ord => ord == .gt
  | .gtEq, ord => ord != .lt

def compareOp (op : CompareOp) (l r : Value) (coll : Collation) : Value :=
  if l = .null || r = .null then .null else boolValue (op.holds (cmpValuesColl l r coll))

/-- What the evaluation of an operand depends on: its value, its affinity, the collations of a
`COLLATE` around it and of the column it names, and whether it is the literal `TRUE` or `FALSE`.
-/
structure Operand where
  value : Result Value
  affinity : Option Affinity
  explicitCollation : Option Collation
  columnCollation : Option Collation

def Operand.Evaluates (e : Operand) : Prop :=
  ∃ v, e.value = .ok v

def resolveCollation (l r : Operand) : Collation :=
  (l.explicitCollation <|> r.explicitCollation <|> l.columnCollation <|> r.columnCollation).getD
    .binary

def keyCollation (e : Operand) : Collation :=
  (e.explicitCollation <|> e.columnCollation).getD .binary

/-- A comparison of `l` with `r`, where `r` takes part with the affinity `ra`. -/
def compareUnder (op : CompareOp) (coll : Collation) (l r : Operand)
    (ra : Option Affinity) : Result Value := do
  let (lv, rv) := applyComparisonAffinity c (← l.value) l.affinity (← r.value) ra
  return compareOp op lv rv coll

def evalCompare (op : CompareOp) (l r : Operand) : Result Value :=
  compareUnder c op (resolveCollation l r) l r r.affinity

def truth : Value → Truth
  | .null => none
  | .integer i => some (i != 0)
  | .real r => some (r.partialCmp ⟨0⟩ != some .eq)
  | v => some (c.isTrue v)

def truthValue : Truth → Value
  | none => .null
  | some b => boolValue b

def evalNot (operand : Result Value) : Result Value := do
  match truth c (← operand) with
  | none => return .null
  | some b => return boolValue !b

def evalAnd (left right : Result Value) : Result Value := do
  let l := truth c (← left)
  if l = some false then return boolValue false
  else
    match l, truth c (← right) with
    | some true, some true => return boolValue true
    | _, some false => return boolValue false
    | _, _ => return .null

def evalOr (left right : Result Value) : Result Value := do
  let l := truth c (← left)
  if l = some true then return boolValue true
  else
    match l, truth c (← right) with
    | some false, some false => return boolValue false
    | _, some true => return boolValue true
    | _, _ => return .null

/-- `BETWEEN` with scalar operands. Of the NULLs it looks at that of `x` alone. -/
def evalBetween (x low high : Operand) (negated : Bool) : Result Value := do
  let v ← x.value
  let lo ← low.value
  let hi ← high.value
  if v = .null then return .null
  else
    let (vl, lo) := applyComparisonAffinity c v x.affinity lo low.affinity
    let (vh, hi) := applyComparisonAffinity c v x.affinity hi high.affinity
    let ge := cmpValuesColl vl lo (resolveCollation x low) != .lt
    let le := cmpValuesColl vh hi (resolveCollation x high) != .gt
    return boolValue ((ge && le) != negated)

def inLoop (v : Value) (ea ra : Option Affinity) (coll : Collation) (negated : Bool)
    : (sawNull : Bool) → List Operand → Result Value
  | sawNull, [] => .ok (if sawNull then .null else boolValue negated)
  | sawNull, item :: items => do
      let iv ← item.value
      if iv = .null then inLoop v ea ra coll negated true items
      else
        let (lv, iv) := applyComparisonAffinity c v ea iv ra
        if cmpValuesColl lv iv coll = .eq then return boolValue !negated
        else inLoop v ea ra coll negated sawNull items

/-- A list of one element is compared like `x = e`, a longer one under the collation of `x`. -/
def inCollation (x : Operand) : List Operand → Collation
  | [e] => resolveCollation x e
  | _ => keyCollation x

def evalIn (x : Operand) (list : List Operand) (negated : Bool)
    (candidate : Option Affinity) : Result Value :=
  if list = [] then .ok (boolValue negated)
  else do
    let v ← x.value
    if v = .null then return .null
    else inLoop c v x.affinity candidate (inCollation x list) negated false list

def caseMatches (base : Option (Value × Operand)) (w : Operand) : Result Bool := do
  let v ← w.value
  match base with
  | some (b, x) =>
      let (bv, wv) := applyComparisonAffinity c b x.affinity v w.affinity
      return bv != .null && wv != .null && cmpValuesColl bv wv (resolveCollation x w) == .eq
  | none => return truth c v == some true

def caseLoop (base : Option (Value × Operand)) (otherwise : Option Operand)
    : List (Operand × Operand) → Result Value
  | [] =>
      match otherwise with
      | some e => e.value
      | none => .ok .null
  | (w, t) :: rest => do
      if ← caseMatches c base w then t.value else caseLoop base otherwise rest

def evalCase (operand : Option Operand) (whens : List (Operand × Operand))
    (otherwise : Option Operand) : Result Value :=
  match operand with
  | some x => do caseLoop c (some (← x.value, x)) otherwise whens
  | none => caseLoop c none otherwise whens

def evalAny (rs : List (Result Value)) : Result Value :=
  rs.foldr (evalOr c) (.ok (boolValue false))

/-- The `NOT` form of a construct. -/
def evalNegated (negated : Bool) (r : Result Value) : Result Value :=
  if negated then evalNot c r else r

-- Affinity and NULL

variable {c}

theorem reduce_ne_null (r : F64) : c.reduce r ≠ .null := by
  unfold Conversion.reduce
  split <;> exact nofun

theorem coerce_eq_null {a : Affinity} {v : Value} : a.coerce c v = .null ↔ v = .null := by
  cases a <;> cases v <;> simp [Affinity.coerce, reduce_ne_null] <;> split <;>
    simp [reduce_ne_null]

theorem applyComparisonAffinity_null {l r : Value} {la ra : Option Affinity}
    : ((applyComparisonAffinity c l la r ra).1 = .null ↔ l = .null)
      ∧ ((applyComparisonAffinity c l la r ra).2 = .null ↔ r = .null) := by
  unfold applyComparisonAffinity
  split_ifs <;> simp [coerce_eq_null]

theorem cmpValuesColl_null {v : Value} (hv : v ≠ .null) (coll : Collation)
    : cmpValuesColl v .null coll = .gt := by
  cases v with
  | null => exact absurd rfl hv
  | _ => rfl

section Values

variable (c) (op : CompareOp) (coll : Collation) (v : Value) (la : Option Affinity) (w : Value)
  (ra : Option Affinity)

/-- How a comparison of the values `v` and `w` comes out when NULL counts as the smallest value. -/
def decided : Bool :=
  let (lv, rv) := applyComparisonAffinity c v la w ra
  op.holds (cmpValuesColl lv rv coll)

def comparison : Truth :=
  if v = .null || w = .null then none else some (decided c op coll v la w ra)

end Values

theorem decided_null {v : Value} (hv : v ≠ .null) (op : CompareOp) (coll : Collation)
    (la ra : Option Affinity) : decided c op coll v la .null ra = op.holds .gt := by
  have hnull := @applyComparisonAffinity_null c v .null la ra
  simp only [decided, hnull.2.mpr rfl, cmpValuesColl_null (mt hnull.1.mp hv)]

theorem compareUnder_eq {op : CompareOp} {coll : Collation} {l r : Operand} {ra : Option Affinity}
    {v w : Value} (hl : l.value = .ok v) (hr : r.value = .ok w)
    : compareUnder c op coll l r ra
      = .ok (truthValue (comparison c op coll v l.affinity w ra)) := by
  have hnull := @applyComparisonAffinity_null c v w l.affinity ra
  simp only [compareUnder, hl, hr, except_ok_bind, compareOp, comparison, decided, hnull.1, hnull.2]
  split_ifs <;> rfl

-- The logical operators

@[simp]
theorem truth_truthValue (p : Truth) : truth c (truthValue p) = p := by
  rcases p with _ | _ | _ <;> rfl

theorem evalNot_ok (v : Value) : evalNot c (.ok v) = .ok (truthValue (truth c v).not) := by
  simp only [evalNot, except_ok_bind]
  cases truth c v <;> rfl

theorem evalAnd_ok (v w : Value)
    : evalAnd c (.ok v) (.ok w) = .ok (truthValue ((truth c v).and (truth c w))) := by
  simp only [evalAnd, except_ok_bind]
  rcases truth c v with _ | _ | _ <;> rcases truth c w with _ | _ | _ <;> rfl

theorem evalOr_ok (v w : Value)
    : evalOr c (.ok v) (.ok w) = .ok (truthValue ((truth c v).or (truth c w))) := by
  simp only [evalOr, except_ok_bind]
  rcases truth c v with _ | _ | _ <;> rcases truth c w with _ | _ | _ <;> rfl

theorem evalAny_cons (r : Result Value) (rs : List (Result Value))
    : evalAny c (r :: rs) = evalOr c r (evalAny c rs) := rfl

theorem evalNegated_ok (negated : Bool) (p : Truth)
    : evalNegated c negated (.ok (truthValue p))
      = .ok (truthValue (if negated then p.not else p)) := by
  unfold evalNegated
  split_ifs
  · rw [evalNot_ok, truth_truthValue]
  · rfl

theorem truthValue_inj {p q : Truth} : truthValue p = truthValue q ↔ p = q := by
  rcases p with _ | _ | _ <;> rcases q with _ | _ | _ <;> decide

-- The constructs

section Operands

variable {x : Operand} {v : Value} (hx : x.value = .ok v)

include hx

theorem evalCompare_eq {y : Operand} {w : Value} (hy : y.value = .ok w) (op : CompareOp)
    : evalCompare c op x y
      = .ok (truthValue (comparison c op (resolveCollation x y) v x.affinity w y.affinity)) :=
  compareUnder_eq hx hy

/-- `BETWEEN` agrees with the two comparisons unless a bound is NULL and the other one would leave
the answer open.
-/
theorem evalBetween_iff {low high : Operand} {lo hi : Value} (hlow : low.value = .ok lo)
    (hhigh : high.value = .ok hi) (negated : Bool)
    : evalBetween c x low high negated
        = evalNegated c negated (evalAnd c (evalCompare c .gtEq x low) (evalCompare c .ltEq x high))
      ↔ (v ≠ .null → (lo = .null → evalCompare c .ltEq x high = .ok (boolValue false))
        ∧ (hi = .null → evalCompare c .gtEq x low = .ok (boolValue false))) := by
  have hfalse (p : Truth)
      : (.ok (truthValue p) : Result Value) = .ok (boolValue false) ↔ p = some false := by
    rw [Except.ok.injEq, ← truthValue_inj]
    rfl
  rw [evalCompare_eq hx hlow, evalCompare_eq hx hhigh, evalAnd_ok, truth_truthValue,
    truth_truthValue,
    evalNegated_ok, hfalse, hfalse]
  by_cases hv : v = .null
  · simp only [evalBetween, hx, hlow, hhigh, except_ok_bind, comparison, hv]
    cases negated <;> simp [Truth.and, Truth.not, truthValue]
  have hbetween : evalBetween c x low high negated = .ok (truthValue (some
      ((decided c .gtEq (resolveCollation x low) v x.affinity lo low.affinity
        && decided c .ltEq (resolveCollation x high) v x.affinity hi high.affinity) !=
          negated))) := by
    simp only [evalBetween, hx, hlow, hhigh, except_ok_bind, if_neg hv]
    rfl
  -- A NULL bound counts as the smallest value in `BETWEEN` and as unknown in the comparison.
  have hge : lo = .null
      → decided c .gtEq (resolveCollation x low) v x.affinity lo low.affinity := by
    rintro rfl
    rw [decided_null hv]
    rfl
  have hle : hi = .null
      → ¬decided c .ltEq (resolveCollation x high) v x.affinity hi high.affinity := by
    rintro rfl
    rw [decided_null hv]
    decide
  rw [hbetween, Except.ok.injEq, truthValue_inj, comparison, comparison]
  generalize decided c .gtEq (resolveCollation x low) v x.affinity lo low.affinity = ge at hge
  generalize decided c .ltEq (resolveCollation x high) v x.affinity hi high.affinity = le at hle
  clear hbetween hfalse hlow hhigh hx
  by_cases hlo : lo = .null <;> by_cases hhi : hi = .null <;> cases ge <;> cases le <;>
    cases negated <;> simp_all [Truth.and, Truth.not]

omit hx in
/-- One item of a loop that searches for a true comparison: `q` is the comparison with the item, `p`
the disjunction of the comparisons with the items after it.
-/
theorem search_step {negated : Bool} {p : Truth} {next : Bool → Result Value}
    (hnext : ∀ sawNull : Bool, next sawNull
      = evalNegated c negated
        (.ok (truthValue (Truth.or (if sawNull then none else some false) p))))
    (sawNull : Bool) (q : Truth)
    : (match q with
        | some true => .ok (boolValue !negated)
        | some false => next sawNull
        | none => next true)
      = evalNegated c negated
        (.ok (truthValue (Truth.or (if sawNull then none else some false) (q.or p)))) := by
  rcases q with _ | _ | _
  · simp only [hnext]
    rcases p with _ | _ | _ <;> cases sawNull <;> rfl
  · simp only [hnext]
    rfl
  · cases sawNull <;> cases negated <;> rfl

/-- The loop over a list of values is the disjunction of the comparisons with them, and of NULL if
it has seen one before.
-/
theorem inLoop_eq (hv : v ≠ .null) {ra : Option Affinity} {coll : Collation} {items : List Operand}
    (hitems : ∀ e ∈ items, e.Evaluates) (negated : Bool)
    : ∃ p, evalAny c (items.map fun e => compareUnder c .eq coll x e ra) = .ok (truthValue p)
      ∧ ∀ sawNull : Bool, inLoop c v x.affinity ra coll negated sawNull items
        = evalNegated c negated
          (.ok (truthValue (Truth.or (if sawNull then none else some false) p))) := by
  induction items with
  | nil =>
    refine ⟨some false, rfl, fun sawNull => ?_⟩
    cases sawNull <;> cases negated <;> rfl
  | cons e items ih =>
    obtain ⟨⟨w, hw⟩, hrest⟩ := forall_mem_cons.mp hitems
    obtain ⟨p, hp, hloop⟩ := ih hrest
    refine ⟨(comparison c .eq coll v x.affinity w ra).or p, ?_, fun sawNull => ?_⟩
    · rw [map_cons, evalAny_cons, hp, compareUnder_eq hx hw, evalOr_ok, truth_truthValue,
        truth_truthValue]
    rw [← search_step hloop]
    simp only [inLoop, hw, except_ok_bind, comparison, hv, decided, CompareOp.holds]
    by_cases hnull : w = .null
    · simp [hnull]
    · cases cmpValuesColl (applyComparisonAffinity c v x.affinity w ra).1
        (applyComparisonAffinity c v x.affinity w ra).2 coll <;> simp [hnull]

theorem disjunction_null (hv : v = .null) {ra : Option Affinity} {coll : Collation}
    {items : List Operand} (hitems : ∀ e ∈ items, e.Evaluates)
    : evalAny c (items.map fun e => compareUnder c .eq coll x e ra)
      = .ok (truthValue (if items = [] then some false else none)) := by
  induction items with
  | nil => rfl
  | cons e items ih =>
    obtain ⟨⟨w, hw⟩, hrest⟩ := forall_mem_cons.mp hitems
    rw [map_cons, evalAny_cons, ih hrest, compareUnder_eq hx hw, hv]
    cases items <;> rfl

theorem evalIn_eq {list : List Operand} (hne : list ≠ []) (hlist : ∀ e ∈ list, e.Evaluates)
    (negated : Bool) (candidate : Option Affinity)
    : evalIn c x list negated candidate
      = evalNegated c negated (evalAny c (list.map fun e =>
          compareUnder c .eq (inCollation x list) x e candidate)) := by
  simp only [evalIn, if_neg hne, hx, except_ok_bind]
  split_ifs with hv
  · rw [disjunction_null hx hv hlist, if_neg hne]
    cases negated <;> rfl
  · obtain ⟨p, hp, hloop⟩ := inLoop_eq hx hv hlist negated
    rw [hp, hloop]
    rfl

theorem caseMatches_iff {w : Operand} (hw : w.Evaluates)
    : caseMatches c (some (v, x)) w
      = .ok (decide (evalCompare c .eq x w = .ok (boolValue true))) := by
  obtain ⟨u, hu⟩ := hw
  simp only [caseMatches, evalCompare, compareUnder, hx, hu, except_ok_bind, compareOp]
  generalize applyComparisonAffinity c v x.affinity u w.affinity = values
  by_cases hl : values.1 = .null
  · simp [hl, boolValue, pure, Except.pure]
  by_cases hr : values.2 = .null
  · simp [hr, boolValue, pure, Except.pure]
  · cases cmpValuesColl values.1 values.2 (resolveCollation x w) <;>
      simp [hl, hr, boolValue, CompareOp.holds, pure, Except.pure]

/-- `CASE` takes the first branch whose comparison with the operand is true. -/
theorem evalCase_eq {whens : List (Operand × Operand)}
    (hwhens : ∀ branch ∈ whens, branch.1.Evaluates) (otherwise : Option Operand)
    : evalCase c (some x) whens otherwise
      = match whens.find? fun branch => evalCompare c .eq x branch.1 = .ok (boolValue true) with
        | some branch => branch.2.value
        | none => otherwise.elim (.ok .null) Operand.value := by
  simp only [evalCase, hx, except_ok_bind]
  induction whens with
  | nil => cases otherwise <;> rfl
  | cons branch whens ih =>
    obtain ⟨hw, hrest⟩ := forall_mem_cons.mp hwhens
    rw [caseLoop, caseMatches_iff hx hw]
    by_cases hbranch : evalCompare c .eq x branch.1 = .ok (boolValue true)
    · simp [hbranch]
    · simp [hbranch, ih hrest]

end Operands

/-- `BETWEEN` is the conjunction of its comparisons exactly when `x` is NULL or, where a bound is
NULL, the comparison with the other one is false. `IN` is the disjunction of the comparisons with
the elements, `CASE` takes the first branch whose comparison is true, and `AND` and `OR` are those
of three-valued logic.
-/
theorem three_valued (c : Conversion)
    : (∀ x v low lo high hi negated, x.value = .ok v → low.value = .ok lo → high.value = .ok hi
        → (evalBetween c x low high negated
            = evalNegated c negated
              (evalAnd c (evalCompare c .gtEq x low) (evalCompare c .ltEq x high))
          ↔ (v ≠ .null → (lo = .null → evalCompare c .ltEq x high = .ok (boolValue false))
            ∧ (hi = .null → evalCompare c .gtEq x low = .ok (boolValue false)))))
      ∧ (∀ x v list negated candidate, x.value = .ok v → list ≠ []
        → (∀ e ∈ list, e.Evaluates)
        → evalIn c x list negated candidate
          = evalNegated c negated (evalAny c (list.map fun e =>
              compareUnder c .eq (inCollation x list) x e candidate)))
      ∧ (∀ x v whens otherwise, x.value = .ok v → (∀ branch ∈ whens, branch.1.Evaluates)
        → evalCase c (some x) whens otherwise
          = match whens.find? fun branch => evalCompare c .eq x branch.1 = .ok (boolValue true) with
            | some branch => branch.2.value
            | none => otherwise.elim (.ok .null) Operand.value)
      ∧ ∀ v w, evalAnd c (.ok v) (.ok w) = .ok (truthValue ((truth c v).and (truth c w)))
        ∧ evalOr c (.ok v) (.ok w) = .ok (truthValue ((truth c v).or (truth c w)))
        ∧ evalNot c (evalAnd c (.ok v) (.ok w)) = evalOr c (evalNot c (.ok v)) (evalNot c (.ok w))
        ∧ evalNot c (evalOr c (.ok v) (.ok w))
          = evalAnd c (evalNot c (.ok v)) (evalNot c (.ok w)) := by
  refine ⟨fun x v low lo high hi negated hx hlow hhigh => evalBetween_iff hx hlow hhigh negated,
    fun x v list negated candidate hx hne hlist => evalIn_eq hx hne hlist negated candidate,
    fun x v whens otherwise hx hwhens => evalCase_eq hx hwhens otherwise, fun v w => ?_⟩
  refine ⟨evalAnd_ok v w, evalOr_ok v w, ?_, ?_⟩
  · simp only [evalAnd_ok, evalNot_ok, evalOr_ok, truth_truthValue, Truth.not_and]
  · simp only [evalAnd_ok, evalNot_ok, evalOr_ok, truth_truthValue, Truth.not_or]

def literal (v : Value) : Operand where
  value := .ok v
  affinity := none
  explicitCollation := none
  columnCollation := none

/-- Conversions that are never called, as integers and NULL are not converted. -/
def inert : Conversion :=
  ⟨fun _ => [], fun _ => none, fun _ => none, fun _ => false⟩

/-- `5 BETWEEN NULL AND 10` is true and `5 BETWEEN 1 AND NULL` is false, where the comparisons give
NULL.
-/
theorem between_null_bound
    : evalBetween inert (literal (.integer 5)) (literal .null) (literal (.integer 10)) false
        = .ok (boolValue true)
      ∧ evalAnd inert (evalCompare inert .gtEq (literal (.integer 5)) (literal .null))
        (evalCompare inert .ltEq (literal (.integer 5)) (literal (.integer 10))) = .ok .null
      ∧ evalBetween inert (literal (.integer 5)) (literal (.integer 1)) (literal .null) false
        = .ok (boolValue false)
      ∧ evalAnd inert (evalCompare inert .gtEq (literal (.integer 5)) (literal (.integer 1)))
        (evalCompare inert .ltEq (literal (.integer 5)) (literal .null)) = .ok .null :=
  ⟨rfl, rfl, rfl, rfl⟩

theorem three_valued_numbers
    : evalBetween inert (literal (.integer 5)) (literal (.integer 1)) (literal (.integer 10)) false
        = evalAnd inert (evalCompare inert .gtEq (literal (.integer 5)) (literal (.integer 1)))
          (evalCompare inert .ltEq (literal (.integer 5)) (literal (.integer 10)))
      ∧ evalIn inert (literal (.integer 5)) [literal .null, literal (.integer 5)] true none
        = .ok (boolValue false)
      ∧ evalCase inert (some (literal (.integer 5))) [(literal (.integer 5), literal .null)] none
        = .ok .null := by
  have h := three_valued inert
  refine ⟨(h.1 _ _ _ _ _ _ false rfl rfl rfl).mpr fun _ => ⟨nofun, nofun⟩, ?_, ?_⟩
  · rw [h.2.1 _ _ _ true none rfl (cons_ne_nil _ _) (by simp [literal, Operand.Evaluates])]
    rfl
  · rw [h.2.2.1 _ _ _ none rfl (by simp [literal, Operand.Evaluates])]
    rfl

end GraphiteSql.Eval
