import GraphiteSql.Btree.Packing

/-! The new pages of a balance are sound: their boundaries increase to the end of the pool, no page
is empty and every page fits.
-/

namespace GraphiteSql.Balance

open Lib List Nat

variable {p : Pages} {sz : List Nat} {leafData : Bool}

-- Seeding

/-- The boundaries divide a pool of `n` cells from `start` on. Without leaf data a divider stands
between two siblings.
-/
def Divides (leafData : Bool) (n : Nat) : (start : Nat) → List Nat → Prop
  | _, [] => True
  | start, c :: rest =>
      start ≤ c ∧ (if rest = [] then c = n else c ≤ n)
        ∧ Divides leafData n (startAfter leafData c) rest

theorem Divides.le {n start c : Nat} {rest : List Nat}
    (h : Divides leafData n start (c :: rest)) : c ≤ n := by
  have hc := h.2.1
  split at hc <;> omega

section Seed

/-- The first `i` pages are laid out, up to the cell `start`. -/
structure Seeded (sz : List Nat) (leafData : Bool) (i start : Nat) (p : Pages) : Prop where
  szLen : p.szNew.length = sz.length + 2
  cntLen : p.cntNew.length = sz.length + 2
  cntLe : ∀ j, j < i → p.cnt j ≤ sz.length
  start : p.start leafData i = start
  sizes : ∀ j, j < i → p.size j = pre sz (p.cnt j) - pre sz (p.start leafData j)

theorem Seeded.page {i start c : Nat} (h : Seeded sz leafData i start p)
    (hi : i < sz.length + 2) (hc : c ≤ sz.length)
    : Seeded sz leafData (i + 1) (startAfter leafData c)
      { p with szNew := p.szNew.set i (pre sz c - pre sz start), cntNew := p.cntNew.set i c } := by
  obtain ⟨q, hq⟩ : ∃ q : Pages, q =
      { p with szNew := p.szNew.set i (pre sz c - pre sz start), cntNew := p.cntNew.set i c } :=
    ⟨_, rfl⟩
  have hcnt : ∀ j, q.cnt j = if j = i then c else p.cnt j := by
    rw [hq]
    exact getD_set (by rw [h.cntLen]; omega) _ _
  have hsize : ∀ j, q.size j = if j = i then pre sz c - pre sz start else p.size j := by
    rw [hq]
    exact getD_set (by rw [h.szLen]; omega) _ _
  have hstart : ∀ j, j ≤ i → q.start leafData j = p.start leafData j := by
    intro j hj
    rw [Pages.start, Pages.start, hcnt]
    split
    · rfl
    · rw [if_neg (by omega)]
  rw [← hq]
  refine ⟨by rw [hq, length_set, h.szLen], by rw [hq, length_set, h.cntLen], ?_, ?_, ?_⟩
  · intro j hj
    rw [hcnt]
    split
    · exact hc
    · exact h.cntLe j (by omega)
  · rw [Pages.start_succ, hcnt, if_pos rfl]
  intro j hj
  rw [hcnt, hsize, hstart j (by omega)]
  by_cases hji : j = i
  · rw [if_pos hji, if_pos hji, hji, h.start]
  · rw [if_neg hji, if_neg hji]
    exact h.sizes j (by omega)

/-- Seeding lays the pages out at the old boundaries. -/
theorem Seeded.seed {i start : Nat} {cntOld : List Nat} (h : Seeded sz leafData i start p)
    (hdiv : Divides leafData sz.length start cntOld) (hi : i + cntOld.length ≤ sz.length + 2)
    : ∃ p', seed sz leafData i start cntOld p = .ok p' ∧ p'.k = p.k
      ∧ (∃ start', Seeded sz leafData (i + cntOld.length) start' p')
      ∧ (cntOld ≠ [] → p'.cnt (i + cntOld.length - 1) = sz.length) := by
  induction cntOld generalizing i start p with
  | nil => exact ⟨p, rfl, rfl, ⟨start, h⟩, absurd rfl⟩
  | cons c rest ih =>
    rw [length_cons] at hi
    have hc := hdiv.le
    have hpage := h.page (c := c) (by omega) hc
    obtain ⟨p', hok, hk, hseeded, hlast⟩ := ih hpage hdiv.2.2 (by omega)
    refine ⟨p', ?_, hk, ?_, fun _ => ?_⟩
    · rw [Balance.seed, sumCells_eq hdiv.1 hc, except_ok_bind, assign_eq (by rw [h.szLen]; omega),
        assign_eq (by rw [h.cntLen]; omega)]
      exact hok
    · rwa [length_cons, show i + (rest.length + 1) = i + 1 + rest.length by omega]
    by_cases hrest : rest = []
    · have hend : c = sz.length := by
        have hc := hdiv.2.1
        rwa [if_pos hrest] at hc
      subst hrest
      have hp' : p' = _ := (Except.ok.inj hok).symm
      rw [hp', length_cons, length_nil, Pages.cnt,
        getD_set (by rw [h.cntLen]; omega), if_pos (by omega), hend]
    · have hend := hlast hrest
      rwa [length_cons, show i + (rest.length + 1) - 1 = i + 1 + rest.length - 1 by omega]

end Seed

section Rebalance

variable {space : Int}

/-- Shifting cells between two pages, one from `start` to `c` and one from there to `stop`, leaves
both of them fitting and neither of them empty. An empty right page takes a cell in any case, so the
left one must have another.
-/
theorem shift_sound {lastPair : Bool} {i c start stop : Nat} {right left : Int} {cntNew : List Nat}
    (hcells : ∀ s ∈ sz, (s : Int) + 2 ≤ space) (hi : i < cntNew.length) (hcnt : cntNew.getD i 0 = c)
    (hstart : start < c) (hc : c < sz.length) (hstop : startAfter leafData c ≤ stop)
    (hright : right = pre sz stop - pre sz (startAfter leafData c))
    (hleft : left = pre sz c - pre sz start) (hrightFits : right ≤ space) (hleftFits : left ≤ space)
    (hroom : right ≠ 0 ∨ ∀ s ∈ sz, (s : Int) + 2 < left)
    : ∃ c' right' left',
      shift sz leafData lastPair i c right left cntNew = .ok (right', left', cntNew.set i c')
        ∧ start < c' ∧ c' ≤ c ∧ startAfter leafData c' < stop
        ∧ right' = pre sz stop - pre sz (startAfter leafData c')
        ∧ left' = pre sz c' - pre sz start ∧ right' ≤ space ∧ left' ≤ space := by
  induction c generalizing right left cntNew with
  | zero => omega
  | succ r ih =>
    obtain ⟨d, hd⟩ : ∃ d, (if leafData then r else r + 1) = d := ⟨_, rfl⟩
    have hdlt : d < sz.length := by
      rw [← hd]
      split <;> omega
    have hafter : startAfter leafData r = d := hd
    have hpast : startAfter leafData (r + 1) = d + 1 := by
      rw [← hd, startAfter]
      split <;> rfl
    rw [hpast] at hstop hright
    have hcellD := pre_succ hdlt
    have hcellR := @pre_succ sz r (by omega)
    have honeD := hcells _ (getD_mem hdlt)
    have hnonneg := @pre_mono sz (d + 1) stop hstop
    obtain ⟨slack, hslack⟩ : ∃ slack : Int, (if lastPair then 0 else 2) = slack := ⟨_, rfl⟩
    rw [shift, cell_eq (by omega), except_ok_bind, hd, cell_eq hdlt, except_ok_bind, hslack]
    split
    · refine ⟨r + 1, right, left, ?_, hstart, le_refl _, ?_, by rw [hpast]; exact hright, hleft,
        hrightFits, hleftFits⟩
      · rw [getD_eq_getElem _ _ hi] at hcnt
        rw [← hcnt, set_getElem_self]
        rfl
      · rw [hpast]
        exact lt_of_pre_lt (show pre sz (d + 1) < pre sz stop by omega)
    have hbound : right + ((sz.getD d 0 : Int) + 2) ≤ space
        ∧ (sz.getD r 0 : Int) + 2 < left := by
      by_cases hzero : right = 0
      · have hmore := hroom.resolve_left (fun hne => hne hzero) _
          (getD_mem (show r < sz.length by omega))
        omega
      · omega
    have hlt : start < r := lt_of_pre_lt (show pre sz start < pre sz r by omega)
    obtain ⟨c', right', left', hok, hstart', hle', hrest⟩ := @ih
      (right + ((sz.getD d 0 : Int) + 2)) (left - ((sz.getD r 0 : Int) + 2)) (cntNew.set i r)
      (by rwa [length_set]) (by rw [getD_set hi, if_pos rfl]) hlt (by omega)
      (by rw [hafter]; omega) (by rw [hafter]; omega) (by omega) hbound.1 (by omega)
      (.inl (by omega))
    refine ⟨c', right', left', ?_, hstart', by omega, hrest⟩
    rw [assign_eq hi, except_ok_bind, hok, set_set]

/-- The pages from `i` on are sound as far as they depend on the pages before. If page `i` is empty,
the one before it has two cells to give.
-/
structure Sound (sz : List Nat) (leafData : Bool) (space : Int) (i : Nat) (p : Pages) : Prop where
  laid : Laid sz leafData p
  inside : i < p.k
  fits : ∀ j, j < p.k → p.size j ≤ space
  before : ∀ j, j < i → p.start leafData j < p.cnt j ∧ p.cnt j < sz.length
  startLe : p.start leafData i ≤ p.cnt i
  room : p.start leafData i < p.cnt i ∨ (0 < i ∧ ∀ s ∈ sz, (s : Int) + 2 < p.size (i - 1))
  after : ∀ j, i < j → j < p.k → p.start leafData j < p.cnt j

/-- One pair balanced. -/
theorem Sound.pair {i : Nat} (hcells : ∀ s ∈ sz, (s : Int) + 2 ≤ space)
    (h : Sound sz leafData space (i + 1) p)
    : ∃ c right left,
      shift sz leafData (i + 1 == p.k - 1) i (p.cnt i) (p.size (i + 1)) (p.size i) p.cntNew
          = .ok (right, left, p.cntNew.set i c)
        ∧ Sound sz leafData space i (p.move i c left right) := by
  have hlaid := h.laid
  have hi := h.inside
  have hcap := hlaid.cap
  obtain ⟨hne, hmore⟩ := h.before i (lt_succ_self i)
  have hright := hlaid.sizes (i + 1) hi
  have hroom : p.size (i + 1) ≠ 0 ∨ ∀ s ∈ sz, (s : Int) + 2 < p.size i := by
    rcases h.room with hroom | hroom
    · have hle := hlaid.cntLe (i + 1) hi
      have hlt := @pre_strict sz _ _ hroom (by omega)
      omega
    · right
      exact hroom.2
  obtain ⟨c, right, left, hok, hstart, hle, hstop, hr, hl, hrf, hlf⟩ :=
    @shift_sound sz leafData space (i + 1 == p.k - 1) i (p.cnt i) (p.start leafData i)
      (p.cnt (i + 1)) (p.size (i + 1)) (p.size i) p.cntNew hcells (by rw [hlaid.cntLen]; omega) rfl
      hne hmore h.startLe hright (hlaid.sizes i (by omega))
      (h.fits (i + 1) hi) (h.fits i (by omega)) hroom
  refine ⟨c, right, left, hok, ?_⟩
  have hstartSame : ∀ j, j ≤ i → (p.move i c left right).start leafData j = p.start leafData j := by
    intro j hj
    rw [hlaid.start_move hi, if_neg (by omega)]
  refine ⟨hlaid.move hi (by omega) left right hl hr, by show i < p.k; omega, ?_, ?_, ?_, ?_, ?_⟩
  · intro j hj
    rw [hlaid.size_move hi]
    split
    · exact hrf
    · split
      · exact hlf
      · exact h.fits j hj
  · intro j hj
    rw [hstartSame j (by omega), hlaid.cnt_move hi, if_neg (by omega)]
    exact h.before j (by omega)
  · rw [hstartSame i (le_refl i), hlaid.cnt_move hi, if_pos rfl]
    omega
  · left
    rw [hstartSame i (le_refl i), hlaid.cnt_move hi, if_pos rfl]
    exact hstart
  intro j hij hj
  rw [hlaid.cnt_move hi, if_neg (by omega), hlaid.start_move hi]
  split
  · rename_i hji
    rw [hji]
    exact hstop
  · exact h.after j (by omega) hj

theorem Sound.rebalance {i : Nat} (hcells : ∀ s ∈ sz, (s : Int) + 2 ≤ space)
    (h : Sound sz leafData space i p)
    : ∃ p', rebalance sz leafData i p = .ok p' ∧ Sound sz leafData space 0 p' ∧ p'.k = p.k := by
  induction i generalizing p with
  | zero => exact ⟨p, rfl, h, rfl⟩
  | succ i ih =>
    have hlaid := h.laid
    have hi := h.inside
    have hcap := hlaid.cap
    obtain ⟨c, right, left, hok, hsound⟩ := h.pair hcells
    obtain ⟨p', hrest, hp', hk⟩ := ih hsound
    refine ⟨p', ?_, hp', hk⟩
    rw [Balance.rebalance, hlaid.index_size hi, except_ok_bind, hlaid.index_size (by omega),
      except_ok_bind, hlaid.index_cnt (by omega), except_ok_bind, hok, except_ok_bind]
    dsimp only
    rw [hlaid.assign_size (by omega), except_ok_bind,
      assign_eq (by rw [length_set, hlaid.szLen]; omega), set_comm _ _ (by omega)]
    exact hrest

end Rebalance

-- The whole balance

/-- The largest cell of a leaf: the largest local payload, with its varints and the pointer to its
overflow pages. Only cells of a table have a rowid.
-/
def maxCell (leafData : Bool) (usable : Nat) : Nat :=
  if leafData then 9 + 9 + (usable - 35) + 4 else 9 + ((usable - 12) * 64 / 255 - 23) + 4

def pageCells (sz : List Nat) (leafData : Bool) (cntNew : List Nat) (j : Nat) : List Nat :=
  (sz.take (cntNew.getD j 0)).drop
    (if j = 0 then 0 else startAfter leafData (cntNew.getD (j - 1) 0))

/-- The new pages: boundaries that increase to the end of the pool, no page empty, and each page
with room for its cells and their pointers.
-/
structure SoundPages (sz : List Nat) (leafData : Bool) (usable : Nat) (cntNew : List Nat)
    : Prop where
  last : cntNew.getLast? = some sz.length
  increasing : cntNew.Pairwise (· < ·)
  nonempty : ∀ j, j < cntNew.length → pageCells sz leafData cntNew j ≠ []
  fits : ∀ j, j < cntNew.length
    → ((pageCells sz leafData cntNew j).map (· + 2)).sum ≤ usable - 8

theorem pre_sub {start stop : Nat} (h : start ≤ stop)
    : (((((sz.take stop).drop start).map (· + 2)).sum : Nat) : Int)
      = pre sz stop - pre sz start := by
  have hsplit : sz.take start ++ (sz.take stop).drop start = sz.take stop := by
    have happend := take_append_drop start (sz.take stop)
    rwa [take_take, min_eq_left h] at happend
  have hsum : ((sz.take stop).map (· + 2)).sum
      = ((sz.take start).map (· + 2)).sum + (((sz.take stop).drop start).map (· + 2)).sum := by
    rw [← List.sum_append, ← map_append, hsplit]
  rw [pre, pre]
  omega

/-- Packed pages are sound from the last one on: only without leaf data can that one be empty, and
then the page before it has several cells.
-/
theorem Packed.sound {space : Int} (h : Packed sz leafData space p)
    (hne : 0 < sz.length) (hsmall : leafData = false → ∀ s ∈ sz, 2 * ((s : Int) + 2) ≤ space)
    : Sound sz leafData space (p.k - 1) p := by
  have hlaid := h.laid
  have hpos := hlaid.pos
  have hlast := hlaid.last
  have hfull : ∀ j, j < p.k - 1 → Full sz leafData space p j := fun j hj => h.full j (by omega)
  refine ⟨hlaid, by omega, ?_, ?_, ?_, ?_, fun j hj hk => by omega⟩
  · intro j hj
    by_cases hj' : j < p.k - 1
    · exact (hfull j hj').fits
    · rw [show j = p.k - 1 by omega]
      exact h.fits
  · intro j hj
    exact ⟨(hfull j hj).nonempty, (hfull j hj).more⟩
  · rw [hlast]
    exact start_le_of_full hfull
  rw [hlast]
  by_cases hstart : p.start leafData (p.k - 1) < sz.length
  · exact .inl hstart
  right
  have hk : p.k - 1 ≠ 0 := by
    intro hzero
    rw [hzero, Pages.start, if_pos rfl] at hstart
    omega
  have hbefore := hfull (p.k - 1 - 1) (by omega)
  have hmore := hbefore.more
  refine ⟨by omega, fun s hs => ?_⟩
  rw [Pages.start, if_neg hk, startAfter] at hstart
  cases hdata : leafData with
  | true =>
    rw [hdata, if_pos rfl] at hstart
    omega
  | false =>
    have htight := hbefore.tight
    have hone := hsmall hdata s hs
    have hnext := hsmall hdata _ (getD_mem hmore)
    omega

/-- Sound pages have the properties that the tree needs. -/
theorem Sound.pages {usable : Nat}
    (h : Sound sz leafData ((usable : Int) - 8) 0 p) (husable : 8 ≤ usable)
    : SoundPages sz leafData usable (p.cntNew.take p.k) := by
  have hlaid := h.laid
  have hcap := hlaid.cap
  have hlen : (p.cntNew.take p.k).length = p.k := by
    rw [length_take, hlaid.cntLen]
    omega
  have hget : ∀ j, j < p.k → (p.cntNew.take p.k).getD j 0 = p.cnt j := by
    intro j hj
    rw [getD_eq_getElem?_getD, getElem?_take_of_lt hj]
    rfl
  have hne : ∀ j, j < p.k → p.start leafData j < p.cnt j := by
    intro j hj
    by_cases hzero : j = 0
    · subst hzero
      rcases h.room with hroom | hroom
      · exact hroom
      · exact absurd hroom.1 (lt_irrefl 0)
    · exact h.after j (by omega) hj
  have hcells : ∀ j, j < p.k → pageCells sz leafData (p.cntNew.take p.k) j
      = (sz.take (p.cnt j)).drop (p.start leafData j) := by
    intro j hj
    rw [pageCells, hget j hj, Pages.start]
    split
    · rfl
    · rw [hget (j - 1) (by omega)]
  refine ⟨?_, ?_, ?_, ?_⟩
  · have hpos := hlaid.pos
    rw [getLast?_eq_getElem?, hlen, getElem?_take_of_lt (by omega),
      getElem?_eq_getElem (by rw [hlaid.cntLen]; omega)]
    have hlast := hlaid.last
    rw [Pages.cnt, getD_eq_getElem _ _ (by rw [hlaid.cntLen]; omega)] at hlast
    rw [hlast]
  · rw [pairwise_iff_getElem]
    intro a b ha hb hab
    rw [hlen] at ha hb
    have hstep : ∀ j, j + 1 < p.k → p.cnt j < p.cnt (j + 1) := by
      intro j hj
      have hnext := hne (j + 1) hj
      rw [Pages.start_succ, startAfter] at hnext
      split at hnext <;> omega
    have hlt : p.cnt a < p.cnt b := by
      induction hab with
      | refl => exact hstep a hb
      | @step m _ ih => exact lt_trans (ih (by omega) (by omega)) (hstep m hb)
    rw [← hget a ha, ← hget b hb, getD_eq_getElem _ _ (by omega),
      getD_eq_getElem _ _ (by omega)] at hlt
    exact hlt
  · intro j hj
    rw [hlen] at hj
    rw [hcells j hj]
    have hlt := hne j hj
    have hle := hlaid.cntLe j hj
    apply ne_nil_of_length_pos
    rw [length_drop, length_take]
    omega
  · intro j hj
    rw [hlen] at hj
    have hsum := @pre_sub sz _ _ (le_of_lt (hne j hj))
    have hfits := h.fits j hj
    rw [hlaid.sizes j hj] at hfits
    rw [hcells j hj]
    omega

/-- Redistributing the cells of up to three leaves, none of them larger than a leaf cell can be,
returns and gives sound pages, wherever the old boundaries were.
-/
theorem distribute_sound {sz cntOld : List Nat} {leafData : Bool} {usable : Nat}
    (husable : 480 ≤ usable) (hcells : ∀ s ∈ sz, s ≤ maxCell leafData usable) (hne : sz ≠ [])
    (hold : 1 ≤ cntOld.length ∧ cntOld.length ≤ 3) (hdiv : Divides leafData sz.length 0 cntOld)
    : ∃ cntNew, distribute sz cntOld true leafData usable = .ok cntNew
      ∧ SoundPages sz leafData usable cntNew := by
  have hlen := length_pos_of_ne_nil hne
  have hspace : ((usable + if (true : Bool) then 4 else 0 : Nat) : Int) - 12 = usable - 8 := by
    rw [if_pos rfl]
    omega
  have hfit : ∀ s ∈ sz, (s : Int) + 2 ≤ usable - 8 := by
    intro s hs
    have hle := hcells s hs
    rw [maxCell] at hle
    split at hle <;> omega
  have hsmall : leafData = false → ∀ s ∈ sz, 2 * ((s : Int) + 2) ≤ usable - 8 := by
    intro hdata s hs
    have hle := hcells s hs
    rw [maxCell, hdata, if_neg (by decide)] at hle
    omega
  have hstart : Seeded sz leafData 0 0
      { szNew := replicate (sz.length + 2) 0, cntNew := replicate (sz.length + 2) 0,
        k := cntOld.length } :=
    ⟨length_replicate, length_replicate, fun j hj => absurd hj (by omega), rfl,
      fun j hj => absurd hj (by omega)⟩
  obtain ⟨p₁, hseed, hk, ⟨start, hseeded⟩, hlast⟩ := hstart.seed hdiv (by omega)
  have hlast := hlast (ne_nil_of_length_pos (by omega))
  rw [zero_add] at hseeded hlast
  have hk : p₁.k = cntOld.length := hk
  rw [← hk] at hseeded hlast
  have hlaid : Laid sz leafData p₁ :=
    ⟨hseeded.szLen, hseeded.cntLen, by omega, by omega, hseeded.cntLe, hlast, hseeded.sizes⟩
  obtain ⟨p₂, hpack, hpacked⟩ := @Laid.pack 0 leafData sz ((usable : Int) - 8) p₁ (sz.length + 3)
    hlaid hlaid.pos (by omega) hfit (fun j hj => absurd hj (by omega)) (by omega)
  obtain ⟨p₃, hrebalance, hsound, _⟩ := (hpacked.sound hlen hsmall).rebalance hfit
  obtain ⟨m, hm⟩ : ∃ m, p₂.k = m + 1 := ⟨p₂.k - 1, by
    have hpos := hpacked.laid.pos
    omega⟩
  rw [hm, Nat.add_sub_cancel] at hrebalance
  refine ⟨p₃.cntNew.take p₃.k, ?_, hsound.pages (by omega)⟩
  rw [distribute, hspace, hseed, except_ok_bind, hpack, except_ok_bind, hm, pred, except_ok_bind,
    hrebalance]
  rfl

/-- Ten cells of a third of a page each, in three siblings of which the middle one overflows. -/
theorem distribute_sound_sample
    : ∃ cntNew, distribute (List.replicate 10 150) [3, 7, 10] true true 480 = .ok cntNew
      ∧ SoundPages (List.replicate 10 150) true 480 cntNew :=
  distribute_sound (by decide) (by decide) (by decide) (by decide)
    ⟨by decide, by decide, by decide, by decide, by decide, by decide, trivial⟩

end GraphiteSql.Balance
