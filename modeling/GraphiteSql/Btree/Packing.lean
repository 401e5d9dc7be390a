import GraphiteSql.Btree.Balance
import Mathlib.Algebra.Order.BigOperators.Group.List
import Mathlib.Tactic.Linarith

/-! The packing pass of a balance: page sizes are differences of prefix sums throughout, and every
page but the last ends up as full as it gets.
-/

namespace GraphiteSql.Balance

open Lib List Nat

variable {α : Type} {i j : Nat} {leafData : Bool}

-- Vectors

theorem index_eq {xs : List α} (h : i < xs.length) (d : α)
    : index xs i = .ok (xs.getD i d) := by
  rw [index, getElem?_eq_getElem h, getD_eq_getElem _ _ h]
  rfl

theorem assign_eq {xs : List α} (h : i < xs.length) (a : α)
    : assign xs i a = .ok (xs.set i a) :=
  if_pos h

theorem getD_set {xs : List α} (h : i < xs.length) (a d : α) (j : Nat)
    : (xs.set i a).getD j d = if j = i then a else xs.getD j d := by
  by_cases hj : j = i
  · rw [if_pos hj, hj, getD_eq_getElem?_getD, getElem?_set_self h, Option.getD_some]
  · rw [if_neg hj, getD_eq_getElem?_getD, getElem?_set_ne (Ne.symm hj),
      ← getD_eq_getElem?_getD]

section Sums

variable {sz : List Nat}

theorem getD_mem (h : i < sz.length) : sz.getD i 0 ∈ sz := by
  rw [getD_eq_getElem _ _ h]
  exact getElem_mem h

def pre (sz : List Nat) (x : Nat) : Int :=
  (((sz.take x).map (· + 2)).sum : Nat)

theorem pre_succ {x : Nat} (h : x < sz.length) : pre sz (x + 1) = pre sz x + (sz.getD x 0 + 2) := by
  rw [pre, pre, take_add_one, getElem?_eq_getElem h, getD_eq_getElem _ _ h,
    Option.toList_some, map_append, List.sum_append]
  simp only [map_cons, map_nil, sum_cons, sum_nil]
  omega

theorem pre_past {x : Nat} (h : sz.length ≤ x) : pre sz x = pre sz sz.length := by
  rw [pre, pre, take_of_length_le h, take_length]

theorem pre_le_succ (x : Nat) : pre sz x ≤ pre sz (x + 1) := by
  by_cases h : x < sz.length
  · rw [pre_succ h]
    omega
  · rw [@pre_past sz x (by omega), @pre_past sz (x + 1) (by omega)]

theorem pre_mono {x y : Nat} (h : x ≤ y) : pre sz x ≤ pre sz y := by
  induction h with
  | refl => exact Int.le_refl _
  | step _ ih => exact Int.le_trans ih (pre_le_succ _)

theorem pre_strict {x y : Nat} (h : x < y) (hx : x < sz.length) : pre sz x < pre sz y := by
  have hmono := @pre_mono sz (x + 1) y h
  rw [pre_succ hx] at hmono
  omega

theorem lt_of_pre_lt {x y : Nat} (h : pre sz x < pre sz y) : x < y := by
  by_contra hge
  have hmono := @pre_mono sz y x (by omega)
  omega

theorem cell_eq (h : i < sz.length) : cell sz i = .ok (sz.getD i 0 : Int) := by
  rw [cell, index_eq h 0]
  rfl

theorem sumCells_eq {start stop : Nat} (h : start ≤ stop) (hstop : stop ≤ sz.length)
    : sumCells sz start stop = .ok (pre sz stop - pre sz start) := by
  have hgo : ∀ (n start : Nat) (s : Int), start + n ≤ sz.length
      → (range' start n).foldlM (addCell sz) s
        = .ok (s + (pre sz (start + n) - pre sz start)) := by
    intro n
    induction n with
    | zero =>
      simp
    | succ n ih =>
      intro start s hle
      have hstart := @pre_succ sz start (by omega)
      rw [range'_succ, foldlM_cons, addCell, cell_eq (by omega)]
      simp only [except_ok_bind, except_pure]
      rw [ih (start + 1) _ (by omega)]
      congr 1
      rw [show start + 1 + n = start + (n + 1) by omega]
      omega
  rw [sumCells, hgo _ _ _ (by omega), Int.zero_add]
  congr 3
  omega

theorem neighbour_eq {s : Int} (c : Nat)
    : neighbour sz leafData s c
      = .ok (if leafData then s else pre sz (c + 1) - pre sz c) := by
  cases leafData with
  | true => rfl
  | false =>
    by_cases hc : c < sz.length
    · have hsucc := pre_succ hc
      simp only [neighbour, Bool.false_eq_true, if_false, if_pos hc, cell_eq hc, except_ok_bind,
        except_pure]
      congr 1
      omega
    · have hsame : pre sz (c + 1) - pre sz c = 0 := by
        rw [@pre_past sz (c + 1) (by omega), @pre_past sz c (by omega), Int.sub_self]
      simp only [neighbour, Bool.false_eq_true, if_false, if_neg hc, hsame]

end Sums

namespace Pages

def size (p : Pages) (j : Nat) : Int := p.szNew.getD j 0

def cnt (p : Pages) (j : Nat) : Nat := p.cntNew.getD j 0

def start (leafData : Bool) (p : Pages) (j : Nat) : Nat :=
  if j = 0 then 0 else startAfter leafData (p.cnt (j - 1))

theorem start_succ (p : Pages) (j : Nat)
    : p.start leafData (j + 1) = startAfter leafData (p.cnt j) := rfl

end Pages

/-- The boundaries are boundaries of the pool, the last one is its end, and the sizes are those of
the cells between them, even where a boundary has overtaken the next one.
-/
structure Laid (sz : List Nat) (leafData : Bool) (p : Pages) : Prop where
  szLen : p.szNew.length = sz.length + 2
  cntLen : p.cntNew.length = sz.length + 2
  pos : 0 < p.k
  cap : p.k ≤ sz.length + 2
  cntLe : ∀ j, j < p.k → p.cnt j ≤ sz.length
  last : p.cnt (p.k - 1) = sz.length
  sizes : ∀ j, j < p.k → p.size j = pre sz (p.cnt j) - pre sz (p.start leafData j)

/-- Page `j` has no room for the next cell. -/
structure Full (sz : List Nat) (leafData : Bool) (space : Int) (p : Pages) (j : Nat) : Prop where
  nonempty : p.start leafData j < p.cnt j
  more : p.cnt j < sz.length
  fits : p.size j ≤ space
  tight : space < p.size j + (sz.getD (p.cnt j) 0 + 2)

theorem Full.congr {sz : List Nat} {space : Int} {p p' : Pages} (h : Full sz leafData space p j)
    (hstart : p'.start leafData j = p.start leafData j) (hcnt : p'.cnt j = p.cnt j)
    (hsize : p'.size j = p.size j) : Full sz leafData space p' j :=
  ⟨by rw [hstart, hcnt]; exact h.nonempty, by rw [hcnt]; exact h.more,
    by rw [hsize]; exact h.fits, by rw [hsize, hcnt]; exact h.tight⟩

section Updates

variable {sz : List Nat} {p : Pages}

def Pages.move (p : Pages) (i c : Nat) (size right : Int) : Pages :=
  { p with
    szNew := (p.szNew.set i size).set (i + 1) right
    cntNew := p.cntNew.set i c }

section

variable (h : Laid sz leafData p)

include h

theorem Laid.index_cnt (hj : j < p.k) : index p.cntNew j = .ok (p.cnt j) := by
  have hcap := h.cap
  exact index_eq (by rw [h.cntLen]; omega) 0

theorem Laid.index_size (hj : j < p.k) : index p.szNew j = .ok (p.size j) := by
  have hcap := h.cap
  exact index_eq (by rw [h.szLen]; omega) 0

theorem Laid.succ_lt (hi : i < p.k) (hmore : p.cnt i < sz.length) : i + 1 < p.k := by
  by_contra hlast
  have hend := h.last
  rw [show p.k - 1 = i by omega] at hend
  omega

theorem Laid.assign_cnt (hj : j < sz.length + 2) (c : Nat)
    : assign p.cntNew j c = .ok (p.cntNew.set j c) :=
  assign_eq (by rwa [h.cntLen]) c

theorem Laid.assign_size (hj : j < sz.length + 2) (size : Int)
    : assign p.szNew j size = .ok (p.szNew.set j size) :=
  assign_eq (by rwa [h.szLen]) size

section

variable (hi : i + 1 < p.k)

include hi

theorem Laid.index_next (size : Int)
    : index (p.szNew.set i size) (i + 1) = .ok (p.size (i + 1)) := by
  have hcap := h.cap
  rw [index_eq (by rw [length_set, h.szLen]; omega) 0, getD_set (by rw [h.szLen]; omega),
    if_neg (by omega)]
  rfl

theorem Laid.assign_next (size right : Int)
    : assign (p.szNew.set i size) (i + 1) right = .ok ((p.szNew.set i size).set (i + 1) right) := by
  have hcap := h.cap
  exact assign_eq (by rw [length_set, h.szLen]; omega) right

theorem Laid.cnt_move (c : Nat) (size right : Int)
    (j : Nat) : (p.move i c size right).cnt j = if j = i then c else p.cnt j := by
  have hcap := h.cap
  exact getD_set (by rw [h.cntLen]; omega) c 0 j

theorem Laid.size_move (c : Nat) (size right : Int)
    (j : Nat)
    : (p.move i c size right).size j
      = if j = i + 1 then right else if j = i then size else p.size j := by
  have hcap := h.cap
  rw [Pages.move, Pages.size, getD_set (by rw [length_set, h.szLen]; omega),
    getD_set (by rw [h.szLen]; omega)]
  rfl

theorem Laid.start_move (c : Nat) (size right : Int)
    (j : Nat)
    : (p.move i c size right).start leafData j
      = if j = i + 1 then startAfter leafData c else p.start leafData j := by
  rw [Pages.start, Pages.start, h.cnt_move hi]
  by_cases hj : j = 0
  · rw [if_pos hj, if_neg (by omega), if_pos hj]
  rw [if_neg hj, if_neg hj]
  by_cases hji : j = i + 1
  · rw [if_pos (by omega), if_pos hji]
  · rw [if_neg (by omega), if_neg hji]

/-- Moving a boundary keeps the layout, if the two sizes follow it. -/
theorem Laid.move {c : Nat} (hc : c ≤ sz.length)
    (size right : Int) (hsize : size = pre sz c - pre sz (p.start leafData i))
    (hright : right = pre sz (p.cnt (i + 1)) - pre sz (startAfter leafData c))
    : Laid sz leafData (p.move i c size right) where
  szLen := by rw [Pages.move, length_set, length_set, h.szLen]
  cntLen := by rw [Pages.move, length_set, h.cntLen]
  pos := h.pos
  cap := h.cap
  cntLe := by
    intro j hj
    rw [h.cnt_move hi]
    split
    · exact hc
    · exact h.cntLe j hj
  last := by
    have hk : (p.move i c size right).k = p.k := rfl
    rw [hk, h.cnt_move hi, if_neg (by omega), h.last]
  sizes := by
    intro j hj
    rw [h.size_move hi, h.cnt_move hi, h.start_move hi]
    rcases lt_trichotomy j i with hlt | rfl | hgt
    · rw [if_neg (by omega), if_neg (by omega), if_neg (by omega), if_neg (by omega)]
      exact h.sizes j hj
    · rw [if_neg (by omega), if_pos rfl, if_pos rfl, if_neg (by omega)]
      exact hsize
    by_cases hji : j = i + 1
    · subst hji
      rw [if_pos rfl, if_neg (by omega), if_pos rfl]
      exact hright
    · rw [if_neg hji, if_neg (by omega), if_neg (by omega), if_neg hji]
      exact h.sizes j hj

theorem Full.move {space : Int} (c : Nat)
    (size right : Int) (hj : j < i) (hfull : Full sz leafData space p j)
    : Full sz leafData space (p.move i c size right) j :=
  hfull.congr (by rw [h.start_move hi, if_neg (by omega)])
    (by rw [h.cnt_move hi, if_neg (by omega)])
    (by rw [h.size_move hi, if_neg (by omega), if_neg (by omega)])

end

end

end Updates

section Packing

variable {sz : List Nat} {space : Int} {p : Pages}

theorem pre_startAfter {c : Nat} (h : c < sz.length)
    : pre sz (startAfter leafData (c + 1)) = pre sz (startAfter leafData c)
      + (if leafData then 2 + (sz.getD c 0 : Int) else pre sz (c + 1 + 1) - pre sz (c + 1)) := by
  cases leafData with
  | true =>
    have hcell := pre_succ h
    show pre sz (c + 1) = pre sz c + (2 + (sz.getD c 0 : Int))
    omega
  | false =>
    show pre sz (c + 1 + 1) = pre sz (c + 1) + (pre sz (c + 1 + 1) - pre sz (c + 1))
    omega

section

variable (hfull : ∀ j, j < i → Full sz leafData space p j)

include hfull

theorem lt_cnt_of_full (hj : j < i)
    : j < p.cnt j := by
  induction j with
  | zero => exact lt_of_le_of_lt (zero_le _) (hfull 0 hj).nonempty
  | succ j ih =>
    have hhere := (hfull (j + 1) hj).nonempty
    rw [Pages.start_succ, startAfter] at hhere
    split at hhere <;> omega

theorem le_of_full : i ≤ sz.length := by
  cases i with
  | zero => exact zero_le _
  | succ i =>
    have hlt := lt_cnt_of_full hfull (lt_succ_self i)
    have hmore := (hfull i (lt_succ_self i)).more
    omega

theorem start_le_of_full
    : p.start leafData i ≤ sz.length := by
  rw [Pages.start]
  split
  · exact zero_le _
  · have hmore := (hfull (i - 1) (by omega)).more
    rw [startAfter]
    split <;> omega

end

/-- A page added at the end is empty. -/
theorem Laid.grow (h : Laid sz leafData p) (hi : i < p.k)
    (hfull : ∀ j, j < i → Full sz leafData space p j)
    : ∃ p', grow sz i p = .ok p' ∧ Laid sz leafData p' ∧ i + 1 < p'.k
      ∧ p'.cnt i = p.cnt i ∧ p'.size i = p.size i
      ∧ ∀ j, j < i → Full sz leafData space p' j := by
  have hle := le_of_full hfull
  by_cases hlast : p.k ≤ i + 1
  · have hk : p.k - 1 = i := by omega
    have hend := h.last
    rw [hk] at hend
    obtain ⟨p', hp'⟩ : ∃ p' : Pages, p' =
        { szNew := p.szNew.set (i + 1) 0, cntNew := p.cntNew.set (i + 1) sz.length, k := i + 2 } :=
      ⟨_, rfl⟩
    have hcnt : ∀ j, p'.cnt j = if j = i + 1 then sz.length else p.cnt j := by
      rw [hp']
      exact getD_set (by rw [h.cntLen]; omega) _ _
    have hsize : ∀ j, p'.size j = if j = i + 1 then 0 else p.size j := by
      rw [hp']
      exact getD_set (by rw [h.szLen]; omega) _ _
    have hstart : ∀ j, j ≤ i + 1 → p'.start leafData j = p.start leafData j := by
      intro j hj
      rw [Pages.start, Pages.start, hcnt]
      split
      · rfl
      · rw [if_neg (by omega)]
    have hk' : p'.k = i + 2 := by rw [hp']
    refine ⟨p', ?_, ⟨?_, ?_, ?_, ?_, ?_, ?_, ?_⟩, ?_, ?_, ?_, ?_⟩
    · rw [Balance.grow, if_pos hlast, if_neg (by omega), h.assign_size (by omega),
        h.assign_cnt (by omega), hp']
      rfl
    · rw [hp', length_set, h.szLen]
    · rw [hp', length_set, h.cntLen]
    · omega
    · omega
    · intro j hj
      rw [hcnt]
      split
      · exact le_refl _
      · exact h.cntLe j (by omega)
    · rw [hcnt, if_pos (by rw [hk']; rfl)]
    · intro j hj
      rw [hcnt, hsize, hstart j (by omega)]
      by_cases hji : j = i + 1
      · rw [if_pos hji, if_pos hji, hji, Pages.start_succ, hend, startAfter]
        split
        · rw [Int.sub_self]
        · rw [@pre_past sz (sz.length + 1) (by omega), Int.sub_self]
      · rw [if_neg hji, if_neg hji]
        exact h.sizes j (by omega)
    · omega
    · rw [hcnt, if_neg (by omega)]
    · rw [hsize, if_neg (by omega)]
    · exact fun j hj => (hfull j hj).congr (hstart j (by omega)) (by rw [hcnt, if_neg (by omega)])
        (by rw [hsize, if_neg (by omega)])
  · exact ⟨p, if_neg hlast, h, by omega, rfl, rfl, hfull⟩

/-- Spilling leaves a page that fits. -/
theorem Laid.spill {fuel : Nat} (h : Laid sz leafData p) (hi : i < p.k) (hspace : 0 ≤ space)
    (hfull : ∀ j, j < i → Full sz leafData space p j) (hfuel : p.cnt i < fuel)
    : ∃ p', spill sz leafData space i fuel p = .ok p' ∧ Laid sz leafData p' ∧ i < p'.k
      ∧ p'.size i ≤ space ∧ ∀ j, j < i → Full sz leafData space p' j := by
  induction fuel generalizing p with
  | zero => omega
  | succ fuel ih =>
    rw [Balance.spill, h.index_size hi, except_ok_bind]
    split
    · rename_i hfits
      exact ⟨p, rfl, h, hi, hfits, hfull⟩
    obtain ⟨q, hgrow, hq, hiq, hcnt, hsize, hfullq⟩ := h.grow hi hfull
    have hsum := hq.sizes i (by omega)
    have hpos := lt_of_pre_lt (show pre sz (q.start leafData i) < pre sz (q.cnt i) by omega)
    have hle := hq.cntLe i (by omega)
    obtain ⟨r, hr⟩ : ∃ r, q.cnt i = r + 1 := ⟨q.cnt i - 1, by omega⟩
    have hcell := @pre_succ sz r (by omega)
    have hcap := hq.cap
    have hright := hq.sizes (i + 1) hiq
    rw [Pages.start_succ, hr] at hright
    have hmoved := @Laid.move _ _ _ _ hq hiq r (by omega)
      (p.size i - (2 + (sz.getD r 0 : Int)))
      (q.size (i + 1)
        + (if leafData then 2 + (sz.getD r 0 : Int) else pre sz (r + 1 + 1) - pre sz (r + 1)))
      (by rw [hr] at hsum; omega) (by rw [hright, pre_startAfter (by omega)]; omega)
    have hstep := ih hmoved (show i < q.k by omega)
      (fun j hj => (hfullq j hj).move hq hiq _ _ _ hj) (by
        rw [hq.cnt_move hiq, if_pos rfl]
        omega)
    obtain ⟨p', hok, hrest⟩ := hstep
    refine ⟨p', ?_, hrest⟩
    rw [hgrow, except_ok_bind, hq.index_cnt (by omega), except_ok_bind, hr, pred, except_ok_bind,
      cell_eq (by omega), except_ok_bind, hq.assign_size (by omega), except_ok_bind, neighbour_eq,
      except_ok_bind, hq.index_next hiq, except_ok_bind, hq.assign_next hiq,
        hq.assign_cnt (by omega)]
    exact hok

/-- Filling leaves a page that ends with the last cell or has no room for the next one. -/
theorem Laid.fill {fuel : Nat} (h : Laid sz leafData p) (hi : i < p.k) (hfits : p.size i ≤ space)
    (hfull : ∀ j, j < i → Full sz leafData space p j) (hfuel : sz.length < p.cnt i + fuel)
    : ∃ p', fill sz leafData space i fuel p = .ok p' ∧ Laid sz leafData p' ∧ i < p'.k
      ∧ p'.size i ≤ space
      ∧ (p'.cnt i < sz.length → space < p'.size i + (sz.getD (p'.cnt i) 0 + 2))
      ∧ ∀ j, j < i → Full sz leafData space p' j := by
  induction fuel generalizing p with
  | zero =>
    have hle := h.cntLe i hi
    omega
  | succ fuel ih =>
    rw [Balance.fill, h.index_cnt hi, except_ok_bind]
    split
    · exact ⟨p, rfl, h, hi, hfits, fun hmore => absurd hmore (by omega), hfull⟩
    have hi' := h.succ_lt hi (by omega)
    obtain ⟨c, hc⟩ : ∃ c, p.cnt i = c := ⟨_, rfl⟩
    rw [cell_eq (by omega), except_ok_bind, h.index_size hi, except_ok_bind, hc]
    split
    · refine ⟨p, rfl, h, hi, hfits, fun _ => ?_, hfull⟩
      rw [hc]
      omega
    have hcap := h.cap
    have hsum := h.sizes i hi
    have hright := h.sizes (i + 1) hi'
    have hcell := @pre_succ sz c (by omega)
    rw [Pages.start_succ, hc] at hright
    rw [hc] at hsum
    have hmoved := @Laid.move _ _ _ _ h hi' (c + 1) (by omega)
      (p.size i + (2 + (sz.getD c 0 : Int)))
      (p.size (i + 1)
        - (if leafData then 2 + (sz.getD c 0 : Int) else pre sz (c + 1 + 1) - pre sz (c + 1)))
      (by omega) (by rw [hright, pre_startAfter (by omega)]; omega)
    obtain ⟨p', hok, hrest⟩ := ih hmoved (show i < p.k from hi)
      (by rw [h.size_move hi']; omega)
      (fun j hj => (hfull j hj).move h hi' _ _ _ hj)
      (by rw [h.cnt_move hi', if_pos rfl]; omega)
    refine ⟨p', ?_, hrest⟩
    rw [h.assign_size (by omega), except_ok_bind, h.assign_cnt (by omega), except_ok_bind,
      neighbour_eq, except_ok_bind, h.index_next hi', except_ok_bind, h.assign_next hi']
    exact hok

/-- Every page but the last is full. -/
structure Packed (sz : List Nat) (leafData : Bool) (space : Int) (p : Pages) : Prop where
  laid : Laid sz leafData p
  full : ∀ j, j + 1 < p.k → Full sz leafData space p j
  fits : p.size (p.k - 1) ≤ space

theorem Laid.nonempty (h : Laid sz leafData p) (hi : i < p.k) (hmore : p.cnt i < sz.length)
    (hcells : ∀ s ∈ sz, (s : Int) + 2 ≤ space)
    (htight : space < p.size i + (sz.getD (p.cnt i) 0 + 2))
    : p.start leafData i < p.cnt i := by
  have hsum := h.sizes i hi
  have hcell := pre_succ hmore
  have hone := hcells _ (getD_mem hmore)
  by_contra hempty
  rcases lt_or_ge (p.cnt i) (p.start leafData i) with hlt | hge
  · have hmono := @pre_mono sz (p.cnt i + 1) _ hlt
    omega
  · rw [show p.start leafData i = p.cnt i by omega] at hsum
    omega

theorem Laid.truncate (h : Laid sz leafData p) (hi : i < p.k) (hend : p.cnt i = sz.length)
    : Laid sz leafData { p with k := i + 1 } where
  szLen := h.szLen
  cntLen := h.cntLen
  pos := succ_pos i
  cap := by
    have hcap := h.cap
    show i + 1 ≤ _
    omega
  cntLe := fun j hj => h.cntLe j (by dsimp only at hj; omega)
  last := hend
  sizes := fun j hj => h.sizes j (by dsimp only at hj; omega)

/-- The packing pass ends with packed pages. -/
theorem Laid.pack {fuel : Nat} (h : Laid sz leafData p) (hi : i < p.k) (hspace : 0 ≤ space)
    (hcells : ∀ s ∈ sz, (s : Int) + 2 ≤ space)
    (hfull : ∀ j, j < i → Full sz leafData space p j) (hfuel : sz.length + 3 ≤ i + fuel)
    : ∃ p', pack sz leafData space fuel i p = .ok p' ∧ Packed sz leafData space p' := by
  induction fuel generalizing i p with
  | zero =>
    have hcap := h.cap
    omega
  | succ fuel ih =>
    have hle := h.cntLe i hi
    obtain ⟨q, hspill, hq, hiq, hfitsq, hfullq⟩ :=
      @Laid.spill _ _ _ _ _ (sz.length + 2) h hi hspace hfull (by omega)
    obtain ⟨r, hfill, hr, hir, hfitsr, htight, hfullr⟩ :=
      @Laid.fill _ _ _ _ _ (sz.length + 2) hq hiq hfitsq hfullq (by omega)
    rw [Balance.pack, if_pos hi, hspill, except_ok_bind, hfill, except_ok_bind, close,
      hr.index_cnt hir, except_ok_bind]
    by_cases hend : sz.length ≤ r.cnt i
    · have hcnt : r.cnt i = sz.length := le_antisymm (hr.cntLe i hir) hend
      rw [if_pos hend]
      refine ⟨{ r with k := i + 1 }, ?_, hr.truncate hir hcnt, fun j hj => ?_, hfitsr⟩
      · obtain ⟨m, hm⟩ : ∃ m, fuel = m + 1 := ⟨fuel - 1, by
          have hcap := h.cap
          omega⟩
        rw [hm]
        simp [Balance.pack]
      · have hj := hfullr j (by dsimp only at hj; omega)
        exact { hj with }
    · rw [if_neg hend]
      refine ih hr (hr.succ_lt hir (by omega)) (fun j hj => ?_) (by omega)
      by_cases hj' : j < i
      · exact hfullr j hj'
      have hji : j = i := by omega
      subst hji
      exact ⟨hr.nonempty hir (by omega) hcells (htight (by omega)), by omega, hfitsr,
        htight (by omega)⟩

end Packing

end GraphiteSql.Balance
