import GraphiteSql.Value

/-! `json_patch` against the merge patches of RFC 7396. Documents keep the order of their members;
the RFC is stated on trees, whose objects are maps.
-/

namespace GraphiteSql

open List

inductive StrSrc where
  | textJ (body : String)
  | text5 (body : String)
  | raw

inductive Json where
  | null
  | bool (b : Bool)
  | int (i : Int64) (src : Option String)
  | real (r : F64) (src : Option String)
  | str (s : String) (src : Option StrSrc)
  | array (elems : List Json)
  | object (members : List (String × Option StrSrc × Json))

namespace Json

abbrev Member := String × Option StrSrc × Json

def isNull : Json → Bool
  | .null => true
  | _ => false

def members : Json → List Member
  | .object m => m
  | _ => []

def update (k : String) (f : Json → Json) : List Member → List Member
  | [] => []
  | x :: m => if x.1 = k then (x.1, x.2.1, f x.2.2) :: m else x :: update k f m

def putMember (tm : List Member) (k : String) (kraw : Option StrSrc) (remove : Bool)
    (merge : Json → Json) : List Member :=
  if remove then tm.filter (·.1 ≠ k)
  else if tm.any (·.1 = k) then update k merge tm
  else tm ++ [(k, kraw, merge .null)]

mutual

def mergePatch : Json → Json → Json
  | target, .object pm => .object (mergeMembers target.members pm)
  | _, patch => patch

def mergeMembers : List Member → List Member → List Member
  | tm, [] => tm
  | tm, (k, kraw, pv) :: pm => mergeMembers (putMember tm k kraw pv.isNull (mergePatch · pv)) pm

end

-- Trees

inductive Tree where
  | leaf (j : Json)
  | object (members : String → Option Tree)

def Tree.isNull : Tree → Bool
  | .leaf j => j.isNull
  | .object _ => false

def Tree.members : Tree → String → Option Tree
  | .leaf _ => fun _ => none
  | .object f => f

mutual

def rfcMerge : Tree → Tree → Tree
  | t, .object f => .object fun k => rfcMember (t.members k) (f k)
  | _, p => p

def rfcMember : Option Tree → Option Tree → Option Tree
  | t, none => t
  | t, some p => if p.isNull then none else some (rfcMerge (t.getD (.leaf .null)) p)

end

mutual

def tree : Json → Tree
  | .object m => .object (treeMembers m)
  | j => .leaf j

def treeMembers : List Member → String → Option Tree
  | [], _ => none
  | (k, _, v) :: m, j => if k = j then some (tree v) else treeMembers m j

end

/-- No object outside an array has two members with one key. -/
inductive Distinct : Json → Prop where
  | object {m : List Member} (keys : (m.map (·.1)).Nodup) (values : ∀ x ∈ m, Distinct x.2.2)
    : Distinct (.object m)
  | other {j : Json} (h : ∀ m, j ≠ .object m) : Distinct j

def get (k : String) (m : List Member) : Option Json :=
  (m.find? (·.1 = k)).map (·.2.2)

-- Lookups

variable {j k : String} {m tm pm : List Member} {p : Json} {merge : Json → Json}
  {kraw : Option StrSrc} {remove : Bool}

@[simp]
theorem get_cons (x : Member) : get j (x :: m) = if x.1 = j then some x.2.2 else get j m := by
  unfold get
  by_cases h : x.1 = j <;> simp [h]

theorem get_eq_none : get k m = none ↔ k ∉ m.map (·.1) := by
  simp [get]
  grind

theorem get_of_mem {x : Member} (keys : (m.map (·.1)).Nodup) (hx : x ∈ m)
    : get x.1 m = some x.2.2 := by
  induction m with
  | nil => cases hx
  | cons y m ih =>
    rw [map_cons, nodup_cons] at keys
    rw [get_cons]
    rcases mem_cons.mp hx with rfl | hx
    · rw [if_pos rfl]
    · have hne : y.1 ≠ x.1 := fun h => keys.1 (h ▸ mem_map_of_mem hx)
      rw [if_neg hne, ih keys.2 hx]

theorem mem_of_get {v : Json} (h : get k m = some v) : ∃ x ∈ m, x.1 = k ∧ x.2.2 = v := by
  obtain ⟨x, hx, rfl⟩ := Option.map_eq_some_iff.mp h
  exact ⟨x, mem_of_find?_eq_some hx, by simpa using find?_some hx, rfl⟩

theorem get_filter : get j (m.filter (·.1 ≠ k)) = if j = k then none else get j m := by
  induction m with
  | nil => simp [get]
  | cons x m ih => grind [get_cons]

theorem get_update : get j (update k merge m) = if j = k then (get k m).map merge else get j m := by
  induction m with
  | nil => simp [get, update]
  | cons x m ih => grind [get_cons, update]

theorem get_append (x : Member) : get j (m ++ [x]) = (get j m).or (get j [x]) := by
  induction m with
  | nil => rfl
  | cons y m ih => grind [get_cons]

theorem any_key : tm.any (·.1 = k) = (get k tm).isSome := by
  induction tm with
  | nil => rfl
  | cons x tm ih => grind [get_cons]

def mergeMember : Option Json → Option Json → Option Json
  | tv, none => tv
  | tv, some pv => if pv.isNull then none else some (mergePatch (tv.getD .null) pv)

theorem get_putMember
    : get j (putMember tm k kraw remove merge)
      = if j = k then if remove then none else some (merge ((get k tm).getD .null))
        else get j tm := by
  have hnil : get j [] = none := rfl
  rw [putMember, any_key]
  cases remove with
  | true => simp only [if_true, get_filter]
  | false =>
    cases hget : get k tm with
    | none => grind [get_append, get_cons]
    | some v => grind [get_update]

theorem get_mergeMembers (keys : (pm.map (·.1)).Nodup)
    : get j (mergeMembers tm pm) = mergeMember (get j tm) (get j pm) := by
  induction pm generalizing tm with
  | nil => rfl
  | cons x pm ih =>
    rw [map_cons, nodup_cons] at keys
    rw [mergeMembers, ih keys.2, get_putMember, get_cons]
    by_cases hj : j = x.1
    · rw [hj, get_eq_none.mpr keys.1, if_pos rfl, if_pos rfl]
      rfl
    · rw [if_neg hj, if_neg (Ne.symm hj)]

-- The specification

theorem mergePatch_other {t : Json} (h : ∀ m, p ≠ .object m) : mergePatch t p = p := by
  cases p with
  | object m => exact absurd rfl (h m)
  | _ => rw [mergePatch]; exact h

theorem treeMembers_eq : treeMembers m j = (get j m).map tree := by
  induction m with
  | nil => rfl
  | cons x m ih =>
    rw [treeMembers, get_cons, ih]
    split_ifs <;> rfl

theorem tree_members (t : Json) : t.tree.members j = (get j t.members).map tree := by
  cases t with
  | object m => exact treeMembers_eq
  | _ => rfl

theorem tree_isNull (t : Json) : t.tree.isNull = t.isNull := by
  cases t <;> rfl

theorem tree_mergePatch (h : Distinct p) (t : Json)
    : (mergePatch t p).tree = rfcMerge t.tree p.tree := by
  induction h generalizing t with
  | @object pm keys values ih =>
    rw [mergePatch, tree]
    congr 1
    funext j
    rw [treeMembers_eq, treeMembers_eq, tree_members, get_mergeMembers keys]
    cases hpv : get j pm with
    | none => rfl
    | some pv =>
      obtain ⟨x, hx, -, rfl⟩ := mem_of_get hpv
      rw [mergeMember, Option.map_some, rfcMember, tree_isNull]
      split_ifs
      · rfl
      · rw [Option.map_some, ih x hx]
        cases get j t.members <;> rfl
  | @other p h =>
    cases p with
    | object m => exact absurd rfl (h m)
    | _ => rfl

theorem update_fixed {v : Json} (hget : get k tm = some v) (hv : merge v = v)
    : update k merge tm = tm := by
  induction tm with
  | nil => rfl
  | cons x tm ih => grind [get_cons, update]

/-- A member that is merged in already changes nothing. -/
theorem putMember_fixed (hnull : remove → get k tm = none)
    (hmerged : remove = false → ∃ v, get k tm = some v ∧ merge v = v)
    : putMember tm k kraw remove merge = tm := by
  rw [putMember, any_key]
  cases remove with
  | true =>
    rw [if_pos rfl, filter_eq_self]
    have := get_eq_none.mp (hnull rfl)
    grind
  | false =>
    obtain ⟨v, hget, hv⟩ := hmerged rfl
    rw [if_neg Bool.false_ne_true, hget, Option.isSome_some, if_pos rfl, update_fixed hget hv]

theorem mergeMembers_fixed
    (h : ∀ x ∈ pm, putMember tm x.1 x.2.1 x.2.2.isNull (mergePatch · x.2.2) = tm)
    : mergeMembers tm pm = tm := by
  induction pm with
  | nil => rfl
  | cons x pm ih =>
    rw [mergeMembers, h x mem_cons_self]
    exact ih fun y hy => h y (mem_cons_of_mem _ hy)

theorem mergePatch_idempotent (h : Distinct p) (t : Json)
    : mergePatch (mergePatch t p) p = mergePatch t p := by
  induction h generalizing t with
  | @object pm keys values ih =>
    show Json.object (mergeMembers (mergeMembers t.members pm) pm) = .object (mergeMembers _ pm)
    congr 1
    apply mergeMembers_fixed
    intro x hx
    have hget : get x.1 (mergeMembers t.members pm)
        = mergeMember (get x.1 t.members) (some x.2.2) := by
      rw [get_mergeMembers keys, get_of_mem keys hx]
    rw [mergeMember] at hget
    apply putMember_fixed
    · intro hnull
      rw [hget, if_pos hnull]
    · intro hvalue
      rw [hget, if_neg (by simp [hvalue])]
      exact ⟨_, rfl, ih x hx _⟩
  | other h => rw [mergePatch_other h, mergePatch_other h]

def removes (pm : List Member) (k : String) : Bool :=
  (get k pm).any isNull

theorem keys_putMember
    : (putMember tm k kraw remove merge).map (·.1)
      = if remove then (tm.map (·.1)).filter (· ≠ k)
        else if k ∈ tm.map (·.1) then tm.map (·.1) else tm.map (·.1) ++ [k] := by
  have hany : tm.any (·.1 = k) ↔ k ∈ tm.map (·.1) := by simp
  have hupdate : (update k merge tm).map (·.1) = tm.map (·.1) := by
    induction tm with
    | nil => rfl
    | cons x tm ih =>
      rw [update]
      split_ifs
      · rfl
      · rw [map_cons, ih (by simp), map_cons]
  unfold putMember
  simp only [hany]
  split_ifs
  · rw [filter_map]
    rfl
  · exact hupdate
  · rw [map_append]
    rfl

theorem removes_cons (x : Member)
    : removes (x :: pm) k = if x.1 = k then x.2.2.isNull else removes pm k := by
  rw [removes, get_cons]
  split_ifs <;> rfl

/-- The members of the target that stay keep their order, and new ones follow in that of the patch.
-/
theorem keys_mergeMembers (keys : (pm.map (·.1)).Nodup)
    : (mergeMembers tm pm).map (·.1)
      = (tm.map (·.1)).filter (!removes pm ·)
        ++ (pm.filter fun x => !x.2.2.isNull && !(tm.map (·.1)).contains x.1).map (·.1) := by
  induction pm generalizing tm with
  | nil => simp [mergeMembers, removes, get]
  | cons x pm ih =>
    rw [map_cons, nodup_cons] at keys
    have hself : removes pm x.1 = false := by rw [removes, get_eq_none.mpr keys.1, Option.any_none]
    have hother : ∀ y ∈ pm, y.1 ≠ x.1 := fun y hy h => keys.1 (h ▸ mem_map_of_mem hy)
    rw [mergeMembers, ih keys.2, keys_putMember]
    have hstays (hvalue : ¬x.2.2.isNull) (j : String) : removes (x :: pm) j = removes pm j := by
      rw [removes_cons]
      split_ifs with hj
      · rw [← hj, hself]
        exact Bool.eq_false_iff.mpr hvalue
      · rfl
    -- the rest of the patch has other keys, so it sees the target as before
    split_ifs with hnull hmem
    · rw [filter_filter, filter_cons_of_neg (by simp [hnull])]
      congr 1
      · refine filter_congr fun j _ => ?_
        rw [removes_cons]
        by_cases hj : x.1 = j
        · simp [hj, hnull]
        · simp [hj, Ne.symm hj]
      congr 1
      refine filter_congr fun y hy => ?_
      congr 2
      simp [hother y hy]
    · rw [filter_cons_of_neg (by simpa using fun _ => by simpa using hmem)]
      simp only [hstays hnull]
    · rw [filter_append, filter_cons_of_pos (by simp [hself]), filter_nil,
        filter_cons_of_pos (by simpa [hnull] using hmem), append_assoc]
      simp only [hstays hnull, map_cons, singleton_append]
      congr 3
      refine filter_congr fun y hy => ?_
      congr 2
      simp [hother y hy]

def resolve (t : Json) : List String → Option Json
  | [] => some t
  | k :: path => (get k t.members).bind (resolve · path)

theorem mergePatch_isNull (h : Distinct p) (t : Json) : (mergePatch t p).isNull = p.isNull := by
  cases h with
  | object => rfl
  | other h => rw [mergePatch_other h]

/-- Where the target has nothing, the merge has no null. -/
theorem mergePatch_no_null (h : Distinct p) {t : Json} {path : List String}
    (ht : t.resolve path = none)
    : (mergePatch t p).resolve path ≠ some .null := by
  induction path generalizing t p with
  | nil => cases ht
  | cons k path ih =>
    cases h with
    | @object pm keys values =>
      rw [mergePatch, resolve, members, get_mergeMembers keys]
      rw [resolve] at ht
      cases hpv : get k pm with
      | none =>
        rw [mergeMember, ht]
        nofun
      | some pv =>
        obtain ⟨x, hx, -, rfl⟩ := mem_of_get hpv
        rw [mergeMember]
        split_ifs with hnull
        · nofun
        cases htv : get k t.members with
        | some tv =>
          rw [htv] at ht
          exact ih (values x hx) ht
        | none =>
          cases path with
          | nil =>
            intro hresult
            have := mergePatch_isNull (values x hx) .null
            simp_all [resolve, isNull]
          | cons k' path => exact ih (values x hx) rfl
    | other h =>
      cases p with
      | object m => exact absurd rfl (h m)
      | _ => nofun

/-- The merge is the one of the RFC, at every level in the order of the target and then of the
patch; merging again changes nothing; and no null is left where the target had nothing.
-/
theorem mergePatch_rfc7396 (t p : Json) (hp : Distinct p)
    : (mergePatch t p).tree = rfcMerge t.tree p.tree
      ∧ (∀ pm, p = .object pm
        → (mergePatch t p).members.map (·.1)
            = (t.members.map (·.1)).filter (!removes pm ·)
              ++ (pm.filter fun x => !x.2.2.isNull && !(t.members.map (·.1)).contains x.1).map (·.1)
          ∧ ∀ k, get k (mergePatch t p).members = mergeMember (get k t.members) (get k pm))
      ∧ mergePatch (mergePatch t p) p = mergePatch t p
      ∧ ∀ path, t.resolve path = none → (mergePatch t p).resolve path ≠ some .null := by
  refine ⟨tree_mergePatch hp t, ?_, mergePatch_idempotent hp t, fun _ => mergePatch_no_null hp⟩
  rintro pm rfl
  cases hp with
  | object keys => exact ⟨keys_mergeMembers keys, fun k => get_mergeMembers keys⟩
  | other h => exact absurd rfl (h pm)

/-- A null nested in a patch removes nothing where there is nothing. -/
theorem mergePatch_rfc7396_nested
    : Distinct (.object [("a", none, .object [("b", none, .null)])])
      ∧ (mergePatch (.object []) (.object [("a", none, .object [("b", none, .null)])])).resolve
        ["a", "b"] ≠ some .null := by
  have hp : Distinct (.object [("a", none, .object [("b", none, .null)])]) := by
    refine .object (by decide) ?_
    rintro x (_ | ⟨_, ⟨⟩⟩)
    refine .object (by decide) ?_
    rintro y (_ | ⟨_, ⟨⟩⟩)
    exact .other nofun
  exact ⟨hp, (mergePatch_rfc7396 _ _ hp).2.2.2 _ rfl⟩

/-- An array is copied with the nulls of its objects. -/
theorem mergePatch_array_null
    : mergePatch (.object []) (.object [("a", none, .array [.object [("b", none, .null)]])])
      = .object [("a", none, .array [.object [("b", none, .null)]])] := by
  rfl

end Json

end GraphiteSql
