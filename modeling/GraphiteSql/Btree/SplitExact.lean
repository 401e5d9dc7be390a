import GraphiteSql.Btree.InteriorSplit

/-! An interior split loses nothing: the parts fit, none is empty, and joining them with the
promoted separators gives the page back. The lists of a parent that adopts the split stay in
step.
-/

namespace GraphiteSql

open Lib List Nat

section Packing

variable {κ : Type} {size : κ → Nat} {cap used usable : Nat} {cells : List (UInt32 × κ)}
variable {right : UInt32}

def cellsSize (size : κ → Nat) (cells : List (UInt32 × κ)) : Nat :=
  (cells.map fun cell => size cell.2).sum

@[simp]
theorem cellsSize_cons (cell : UInt32 × κ)
    : cellsSize size (cell :: cells) = size cell.2 + cellsSize size cells := rfl

theorem cellsSize_append {more : List (UInt32 × κ)}
    : cellsSize size (cells ++ more) = cellsSize size cells + cellsSize size more := by
  rw [cellsSize, map_append, List.sum_append]
  rfl

theorem fitsInterior_iff {body : Nat}
    : fitsInterior size cells body usable = true ↔ cellsSize size cells ≤ usable - (body + 12) := by
  rw [fitsInterior, decide_eq_true_eq]
  rfl

theorem fillGroup_spec (hused : used ≤ cap)
    : (fillGroup size cap used cells).1 ++ (fillGroup size cap used cells).2 = cells ∧
      used + cellsSize size (fillGroup size cap used cells).1 ≤ cap := by
  induction cells generalizing used with
  | nil => exact ⟨rfl, hused⟩
  | cons cell cells ih =>
    rw [fillGroup]
    split
    · rename_i hfits
      obtain ⟨happend, hsize⟩ := ih hfits
      refine ⟨congrArg (cell :: ·) happend, ?_⟩
      rw [cellsSize_cons]
      omega
    · exact ⟨rfl, hused⟩

/-- Two cells that are at most half a page go into one group. -/
theorem takeGroup_spec {group rest : List (UInt32 × κ)} (hne : cells ≠ [])
    (hhalf : ∀ cell ∈ cells, 2 * size cell.2 ≤ cap) (h : takeGroup size cap cells = (group, rest))
    : group ++ rest = cells ∧ cellsSize size group ≤ cap ∧ (rest ≠ [] → 1 < group.length) := by
  cases cells with
  | nil => exact absurd rfl hne
  | cons cell cells =>
    have hcell := hhalf cell mem_cons_self
    have hused : size cell.2 ≤ cap := by omega
    obtain ⟨happend, hsize⟩ := @fillGroup_spec κ size cap (size cell.2) cells hused
    obtain ⟨rfl, rfl⟩ := Prod.mk.inj h
    refine ⟨congrArg (cell :: ·) happend, hsize, fun hrest => ?_⟩
    -- the second cell still fits beside the first
    cases cells with
    | nil => exact absurd rfl hrest
    | cons second cells =>
      have hsecond := hhalf second (mem_cons_of_mem _ mem_cons_self)
      rw [fillGroup, if_pos (by omega)]
      simp only [length_cons]
      omega

/-- The cut keeps the cells in order around the promoted one, and leaves no part empty. -/
theorem cutGroup_spec {group rest part later : List (UInt32 × κ)} {next promoted : UInt32 × κ}
    (hgroup : 1 < group.length) (h : cutGroup group next rest = (part, promoted, later))
    : part ++ promoted :: later = group ++ next :: rest ∧ part ≠ [] ∧ later ≠ [] ∧
      cellsSize size part ≤ cellsSize size group := by
  rw [cutGroup] at h
  split at h
  · rename_i hback
    obtain ⟨rfl, rfl, rfl⟩ : group.dropLast = part ∧ group.getLastD next = promoted ∧
        [next] = later := by simpa only [Prod.mk.injEq] using h
    have hrest : rest = [] := isEmpty_iff.mp hback.1
    have hne : group ≠ [] := ne_nil_of_length_pos (by omega)
    have hsplit : group.dropLast ++ [group.getLastD next] = group := by
      rw [getLastD_eq_getLast?, getLast?_eq_some_getLast hne, Option.getD_some,
        dropLast_append_getLast hne]
    refine ⟨?_, ?_, cons_ne_nil _ _, ?_⟩
    · rw [hrest, ← singleton_append, ← append_assoc, hsplit]
    · exact ne_nil_of_length_pos (by rw [length_dropLast]; omega)
    calc cellsSize size group.dropLast
      _ ≤ cellsSize size (group.dropLast ++ [group.getLastD next]) := by
        rw [cellsSize_append]
        exact le_add_right _ _
      _ = cellsSize size group := by rw [hsplit]
  · rename_i hkeep
    obtain ⟨rfl, rfl, rfl⟩ : group = part ∧ next = promoted ∧ rest = later := by
      simpa only [Prod.mk.injEq] using h
    refine ⟨rfl, ne_nil_of_length_pos (by omega), ?_, le_refl _⟩
    rintro rfl
    exact hkeep ⟨rfl, hgroup⟩

-- Exact splits

/-- Join the parts again: each part's cells, then its right pointer with the separator that
follows it.
-/
def rejoin : List (InteriorPart κ) → List κ → List (UInt32 × κ) × UInt32
  | [], _ => ([], 0)
  | part :: _, [] => part
  | part :: parts, sep :: seps =>
      (part.1 ++ (part.2, sep) :: (rejoin parts seps).1, (rejoin parts seps).2)

/-- The parts and separators of a page with the given cells and right pointer, the first part
behind `body` bytes.
-/
structure ExactSplit (fits : List (UInt32 × κ) → (body usable : Nat) → Bool)
    (cells : List (UInt32 × κ)) (right : UInt32) (body usable : Nat)
    (parts : List (InteriorPart κ)) (seps : List κ) : Prop where
  separators : seps.length + 1 = parts.length
  nonempty : ∀ part ∈ parts, part.1 ≠ []
  fits : ∀ k part, parts[k]? = some part →
    fits part.1 (if k = 0 then body else 0) usable = true
  rejoins : rejoin parts seps = (cells, right)

/-- One more part in front of an exact split. -/
theorem ExactSplit.cons {fits : List (UInt32 × κ) → (body usable : Nat) → Bool}
    {later : List (UInt32 × κ)} {body : Nat} {parts : List (InteriorPart κ)}
    {seps : List κ} {part : List (UInt32 × κ)} {promoted : UInt32 × κ}
    (h : ExactSplit fits later right 0 usable parts seps) (hne : part ≠ [])
    (hfits : fits part body usable = true)
    : ExactSplit fits (part ++ promoted :: later) right body usable
        ((part, promoted.1) :: parts) (promoted.2 :: seps) where
  separators := by
    rw [length_cons, length_cons, h.separators]
  nonempty := forall_mem_cons.mpr ⟨hne, h.nonempty⟩
  fits k other hother := by
    cases k with
    | zero =>
      obtain rfl : (part, promoted.1) = other := Option.some.inj hother
      exact hfits
    | succ k =>
      have := h.fits k other hother
      simpa only [ite_self, add_one_ne_zero, if_false] using this
  rejoins := by
    rw [rejoin, h.rejoins]

/-- Packing cells that are at most half a page each is exact. -/
theorem packParts_exact {rounds body : Nat} (hne : cells ≠ [])
    (hrounds : cells.length < rounds) (hbody : body ≤ 100)
    (hhalf : ∀ cell ∈ cells, 2 * size cell.2 ≤ usable - 112)
    : ExactSplit (fitsInterior size) cells right body usable
      (packParts size right usable rounds body cells).1
      (packParts size right usable rounds body cells).2 := by
  induction rounds generalizing body cells with
  | zero => omega
  | succ rounds ih =>
    obtain ⟨⟨group, rest⟩, htake⟩ : ∃ taken,
      takeGroup size (usable - (body + 12)) cells = taken := ⟨_, rfl⟩
    obtain ⟨happend, hsize, htwo⟩ := takeGroup_spec hne
      (fun cell hcell => le_trans (hhalf cell hcell) (by omega)) htake
    rw [packParts, htake]
    cases rest with
    | nil =>
      obtain rfl : group = cells := by simpa only [append_nil] using happend
      refine ⟨rfl, fun part hpart => ?_, fun k part hpart => ?_, rfl⟩
      · obtain rfl := mem_singleton.mp hpart
        exact hne
      cases k with
      | zero =>
        obtain rfl : (group, right) = part := Option.some.inj hpart
        exact fitsInterior_iff.mpr hsize
      | succ k => cases hpart
    | cons next rest =>
      obtain ⟨⟨part, promoted, later⟩, hcut⟩ : ∃ cut, cutGroup group next rest = cut := ⟨_, rfl⟩
      obtain ⟨hcells, hpart, hlater, hle⟩ :=
        @cutGroup_spec _ size _ _ _ _ _ _ (htwo (cons_ne_nil _ _)) hcut
      have hcells := hcells.trans happend
      have hlen : part.length + (later.length + 1) = cells.length := by
        rw [← hcells, length_append, length_cons]
      dsimp only
      rw [hcut, ← hcells]
      refine (ih hlater (by omega) (zero_le _) fun cell hcell => ?_).cons hpart
        (fitsInterior_iff.mpr (le_trans hle hsize))
      exact hhalf cell (hcells ▸ mem_append_right _ (mem_cons_of_mem _ hcell))

theorem packCells_exact {body : Nat} (hne : cells ≠ []) (hbody : body ≤ 100)
    (hhalf : ∀ cell ∈ cells, 2 * size cell.2 ≤ usable - 112)
    : ExactSplit (fitsInterior size) cells right body usable
      (packCells size cells right body usable).1 (packCells size cells right body usable).2 :=
  packParts_exact hne (lt_succ_self _) hbody hhalf

end Packing

theorem packInterior_exact {cells : List InteriorCell} {body usable : Nat}
    (hne : cells ≠ []) (hbody : body ≤ 100) (husable : 480 ≤ usable)
    : ExactSplit interiorFits cells right body usable (packInterior cells right body usable).1
      (packInterior cells right body usable).2 := by
  refine @packCells_exact _ (fun key => interiorCellLen key + 2) _ _ _ _ hne hbody
    fun cell _ => ?_
  have := Varint.len_le cell.2.toUInt64.toNat
  rw [interiorCellLen]
  omega

theorem packIndexInterior_exact {cells : List InteriorEntry} {body usable : Nat}
    (hne : cells ≠ []) (hbody : body ≤ 100) (husable : 480 ≤ usable)
    (hquarter : ∀ cell ∈ cells, 4 * cell.2.2.length ≤ usable)
    : ExactSplit indexInteriorFits cells right body usable
      (packIndexInterior cells right body usable).1
      (packIndexInterior cells right body usable).2 := by
  refine @packCells_exact _ (fun key => 4 + key.2.length + 2) _ _ _ _ hne hbody
    fun cell hcell => ?_
  have := hquarter cell hcell
  omega

section Bookkeeping

variable {κ : Type}

def InStep (children : List UInt32) (dividers : List κ) : Prop :=
  children.length = dividers.length + 1

theorem splice_ok {α : Type} {xs new : List α} {start stop : Nat} (h : start ≤ stop)
    (hstop : stop ≤ xs.length)
    : splice xs start stop new = .ok (xs.take start ++ new ++ xs.drop stop) :=
  if_pos ⟨h, hstop⟩

theorem writeSiblings_length {serialize : InteriorWriter κ} {placeholder : κ}
    {pageSize usable : Nat} {parts : List (InteriorPart κ)} {seps : List κ}
    {siblings : List (κ × UInt32)} {s t : PagerState}
    (h : writeSiblings serialize placeholder pageSize usable parts seps s = .ok siblings t)
    : siblings.length = parts.length := by
  induction parts generalizing seps siblings s with
  | nil =>
    cases h
    rfl
  | cons part parts ih =>
    obtain ⟨pg, s₁, -, h⟩ := estate_bind_eq_ok.mp h
    obtain ⟨buf, s₂, -, h⟩ := estate_bind_eq_ok.mp h
    obtain ⟨⟨⟩, s₃, -, h⟩ := estate_bind_eq_ok.mp h
    obtain ⟨rest, s₄, hrest, h⟩ := estate_bind_eq_ok.mp h
    cases h
    rw [length_cons, length_cons, ih hrest]

/-- A split that bubbles up has a new page. -/
theorem finishInteriorWith_siblings {cell : Type} {size : κ → Nat}
    {serialize : InteriorWriter κ} {placeholder : κ} {pageNo : UInt32}
    {body pageSize usable : Nat} {children : List UInt32} {dividers : List κ}
    {headerPrefix : Option Bytes} {s t : PagerState} {split : Split κ}
    (h : (finishInteriorWith size serialize placeholder pageNo body pageSize usable children
      dividers headerPrefix : PagerM (Up cell κ)) s = .ok (.split split) t)
    : split.siblings ≠ [] := by
  obtain ⟨⟨cells, right⟩, s₁, -, h⟩ := estate_bind_eq_ok.mp h
  dsimp only at h
  split at h
  · obtain ⟨buf, s₂, -, h⟩ := estate_bind_eq_ok.mp h
    obtain ⟨⟨⟩, s₃, -, h⟩ := estate_bind_eq_ok.mp h
    cases h
  match packCells size cells right body usable, h with
  | ([], _), h => cases h
  | ([part], _), h =>
    obtain ⟨buf, s₂, -, h⟩ := estate_bind_eq_ok.mp h
    obtain ⟨⟨⟩, s₃, -, h⟩ := estate_bind_eq_ok.mp h
    cases h
  | (_ :: _ :: _, []), h => cases h
  | (part :: second :: parts, firstKey :: seps), h =>
    obtain ⟨buf, s₂, -, h⟩ := estate_bind_eq_ok.mp h
    obtain ⟨⟨⟩, s₃, -, h⟩ := estate_bind_eq_ok.mp h
    obtain ⟨siblings, s₄, hsiblings, h⟩ := estate_bind_eq_ok.mp h
    cases h
    exact ne_nil_of_length_pos (by rw [writeSiblings_length hsiblings, length_cons]; omega)

/-- Adopting a split keeps the lists in step, whichever child it came from. -/
theorem adoptSplit_inStep {children : List UInt32} {dividers : List κ} {p : Nat} {split : Split κ}
    (hstep : InStep children dividers) (hsiblings : split.siblings ≠ [])
    : ∃ children' dividers', adoptSplit children dividers p split = .ok (children', dividers') ∧
      InStep children' dividers' := by
  unfold InStep at hstep
  have hpos := length_pos_of_ne_nil hsiblings
  have hlast := getLast?_eq_some_getLast hsiblings
  cases hold : dividers[p]? with
  | none =>
    refine ⟨_, _, by rw [adoptSplit, hold, hlast], ?_⟩
    simp only [InStep, length_append, length_map, length_dropLast,
      length_cons, length_nil]
    omega
  | some oldDiv =>
    have hp : p < dividers.length := (List.getElem?_eq_some_iff.mp hold).1
    refine ⟨_, _, by
      rw [adoptSplit, hold, hlast]
      dsimp only
      rw [splice_ok (le_refl _) (by omega), splice_ok (by omega) (by omega)]
      rfl, ?_⟩
    simp only [InStep, length_append, length_map, length_dropLast,
      length_cons, length_nil, length_take, length_drop]
    omega

theorem grownRoot_children {newLeft : UInt32} {split : Split κ} (hsiblings : split.siblings ≠ [])
    : ∃ cells right, grownRoot newLeft split = .ok (cells, right) ∧
      cells.map Prod.fst ++ [right] = newLeft :: split.siblings.map Prod.snd ∧
      cells.map Prod.snd = split.firstKey :: split.siblings.dropLast.map Prod.fst := by
  have hlast := getLast?_eq_some_getLast hsiblings
  refine ⟨_, _, by rw [grownRoot, hlast], ?_, ?_⟩
  · rw [map_cons, map_map, cons_append]
    congr 1
    conv_rhs => rw [← dropLast_append_getLast hsiblings, map_append]
    rfl
  · rw [map_cons, map_map]
    rfl

end Bookkeeping

-- Interior splits

/-- An interior split is exact, for tables and for indexes, and the lists it leaves to the
parent or to a grown root stay in step.
-/
theorem interiorSplit_exact (usable body : Nat) (husable : 480 ≤ usable)
    (hbody : body = 0 ∨ body = 100)
    : (∀ cells right, cells ≠ [] →
        ExactSplit interiorFits cells right body usable (packInterior cells right body usable).1
          (packInterior cells right body usable).2) ∧
      (∀ cells right, cells ≠ [] →
        (∀ cell : InteriorEntry, cell ∈ cells → 4 * cell.2.2.length ≤ usable) →
        ExactSplit indexInteriorFits cells right body usable
          (packIndexInterior cells right body usable).1
          (packIndexInterior cells right body usable).2) ∧
      (∀ pageNo pageSize children dividers headerPrefix s t split,
        finishInterior pageNo body pageSize usable children dividers headerPrefix s
          = .ok (.split split) t → split.siblings ≠ []) ∧
      (∀ pageNo pageSize children dividers headerPrefix s t split,
        finishIndexInterior pageNo body pageSize usable children dividers headerPrefix s
          = .ok (.split split) t → split.siblings ≠ []) ∧
      (∀ (κ : Type) (children : List UInt32) (dividers : List κ) (p : Nat) (split : Split κ),
        InStep children dividers → split.siblings ≠ [] →
        ∃ children' dividers',
          adoptSplit children dividers p split = .ok (children', dividers') ∧
          InStep children' dividers') ∧
      (∀ (κ : Type) (newLeft : UInt32) (split : Split κ), split.siblings ≠ [] →
        ∃ cells right, grownRoot newLeft split = .ok (cells, right) ∧
          InStep (cells.map Prod.fst ++ [right]) (cells.map Prod.snd)) := by
  have hbody : body ≤ 100 := by omega
  refine ⟨fun cells right hne => packInterior_exact hne hbody husable,
    fun cells right hne => packIndexInterior_exact hne hbody husable,
    fun _ _ _ _ _ _ _ _ => finishInteriorWith_siblings,
    fun _ _ _ _ _ _ _ _ => finishInteriorWith_siblings,
    fun κ children dividers p split => adoptSplit_inStep, fun κ newLeft split hne => ?_⟩
  obtain ⟨cells, right, hcells, -⟩ := @grownRoot_children κ newLeft split hne
  refine ⟨cells, right, hcells, ?_⟩
  rw [InStep, length_append, length_map, length_map]
  rfl

def ninetyFiveCells : List InteriorCell :=
  (range 95).map fun i => (.ofNat (i + 2), .ofNat (10 * i))

/-- At body offset 100 of the smallest usable size, 95 cells are split into two parts. -/
theorem interiorSplit_exact_pageOne
    : (packInterior ninetyFiveCells 97 100 480).1.length = 2 ∧
      ExactSplit interiorFits ninetyFiveCells 97 100 480
        (packInterior ninetyFiveCells 97 100 480).1
        (packInterior ninetyFiveCells 97 100 480).2 :=
  ⟨by decide +kernel, (interiorSplit_exact 480 100 (by decide) (by decide)).1 _ _ (by decide)⟩

/-- A page without cells is kept as one part without a cell. -/
theorem packInterior_empty
    : packInterior [] 4 0 512 = ([([], 4)], []) ∧
      ¬ ∀ part ∈ (packInterior [] 4 0 512).1, part.1 ≠ [] := by
  decide

end GraphiteSql
