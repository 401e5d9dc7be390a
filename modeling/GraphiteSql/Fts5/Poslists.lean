import GraphiteSql.Fts5.SegmentReader
import GraphiteSql.Fts5.Varints

/-! Position lists: what a written list reads back as, in each `detail` mode. -/

namespace GraphiteSql.Fts5

open Lib List Nat UInt32 Varint

variable {c p col fuel : Nat} {cols rest : List (List UInt32)} {buf post : Bytes}

theorem collistFrom_varints (prev : UInt32) (positions : List UInt32)
    : Varints (collistFrom prev positions) := by
  induction positions generalizing prev with
  | nil => exact .nil
  | cons pos rest ih =>
    have hlt := (pos - prev).toNat_lt
    exact .cons (by omega) (ih pos)

theorem fullContent_varints (hc : c + cols.length ≤ 2 ^ 64)
    : Varints (fullContent c cols) := by
  induction cols generalizing c with
  | nil => exact .nil
  | cons positions rest ih =>
    rw [length_cons] at hc
    have hrest := @ih (c + 1) (by omega)
    rw [fullContent]
    split
    · exact hrest
    refine .append (.append ?_ (collistFrom_varints 0 positions)) hrest
    split
    · exact .append (a := [0x01]) (Varints.single (v := 1) (by omega)) (.single (by omega))
    · exact .nil

/-- The columns and the content of a posting are small enough for the fields that number and
measure them.
-/
structure Posting.Sized (p : Posting) (detail : Fts5Detail) : Prop where
  cols : p.cols.length ≤ 2 ^ 32
  content : (poslist p detail).length < 2 ^ 63

theorem sized_varints {content : Bytes} {del : Bool} (h : Varints content)
    (hlen : content.length < 2 ^ 63) : Varints (sized content del) := by
  have hdel := Bool.toNat_le del
  exact .cons (by omega) h

theorem poslist_varints {p : Posting} {detail : Fts5Detail} (h : p.Sized detail)
    : Varints (poslist p detail) := by
  have hcols := h.cols
  have hlen := h.content
  have hzero : Varints [0x00] := Varints.single (v := 0) (by omega)
  cases detail with
  | full =>
    refine sized_varints (fullContent_varints (by omega)) ?_
    rw [poslist, sized, length_append] at hlen
    omega
  | columns =>
    refine sized_varints (collistFrom_varints 0 _) ?_
    rw [poslist, sized, length_append] at hlen
    omega
  | none =>
    rw [poslist]
    split
    · split
      · exact .append (a := [0x00]) hzero hzero
      · exact hzero
    · exact .nil

theorem padCols_getD (cols : List (List UInt32)) (c i : Nat)
    : (padCols cols c).getD i [] = cols.getD i [] :=
  getD_append_replicate

theorem lt_padCols_length (cols : List (List UInt32)) (c : Nat) : c < (padCols cols c).length := by
  rw [padCols, length_append, length_replicate]
  omega

theorem getD_set_self (hc : c < cols.length)
    (positions : List UInt32) : (cols.set c positions).getD c [] = positions := by
  rw [getD_eq_getElem?_getD, getElem?_set_self hc, Option.getD_some]

theorem getD_set_ne {i : Nat} (hi : c ≠ i) (positions : List UInt32)
    : (cols.set c positions).getD i [] = cols.getD i [] := by
  rw [getD_eq_getElem?_getD, getElem?_set_ne hi, ← getD_eq_getElem?_getD]

-- Positions

theorem nextPos_sub {done : List UInt32} {pos : UInt32} (h : done.getLast?.getD 0 ≤ pos)
    : nextPos done (pos - done.getLast?.getD 0) = some pos := by
  rw [nextPos]
  cases hlast : done.getLast? with
  | none => simp
  | some last =>
    rw [hlast, Option.getD_some] at h
    have hsub := UInt32.toNat_sub_of_le pos last h
    have hpos := pos.toNat_lt
    have hle := le_iff_toNat_le.mp h
    simp only [Option.getD_some]
    rw [if_pos (by omega)]
    congr 1
    exact UInt32.toNat_inj.mp (by rw [UInt32.toNat_add]; omega)

/-- Reading one column's positions, after `done` of them. -/
theorem fullEntries_collist {stop : Nat}
    {done positions : List UInt32} (hcol : col < cols.length) (hdone : cols.getD col [] = done)
    (hsorted : (done.getLast?.getD 0 :: positions).Pairwise (· ≤ ·))
    (hbuf : buf.drop p = collistFrom (done.getLast?.getD 0) positions ++ post)
    (hstop : p + (collistFrom (done.getLast?.getD 0) positions).length ≤ stop)
    (hfuel : stop ≤ p + fuel)
    : ∃ fuel', stop ≤ p + (collistFrom (done.getLast?.getD 0) positions).length + fuel'
      ∧ fullEntries buf stop fuel p col cols
        = fullEntries buf stop fuel'
            (p + (collistFrom (done.getLast?.getD 0) positions).length) col
            (cols.set col (done ++ positions)) := by
  induction positions generalizing p fuel cols done with
  | nil =>
    refine ⟨fuel, hfuel, ?_⟩
    have hset : cols.set col done = cols := by
      rw [← hdone, getD_eq_getElem _ _ hcol, set_getElem_self]
    simp [collistFrom, hset]
  | cons pos rest ih =>
    have hle : done.getLast?.getD 0 ≤ pos := (pairwise_cons.mp hsorted).1 pos mem_cons_self
    have hrest := (pairwise_cons.mp hsorted).2
    have hlt := (pos - done.getLast?.getD 0).toNat_lt
    simp only [collistFrom, append_assoc, length_append] at hbuf hstop ⊢
    have henc := encode_length_pos ((pos - done.getLast?.getD 0).toNat + 2)
    have hread := readVarint_encode (by omega) hbuf
    have hlast : (done ++ [pos]).getLast?.getD 0 = pos := by simp
    obtain ⟨fuel, rfl⟩ : ∃ k, fuel = k + 1 := ⟨fuel - 1, by omega⟩
    obtain ⟨fuel', hfuel', hgo⟩ :=
      @ih (p + (encode ((pos - done.getLast?.getD 0).toNat + 2)).length)
      fuel (cols.set col (done ++ [pos])) (done ++ [pos]) (by simpa using hcol)
      (getD_set_self hcol _) (by rwa [hlast]) (by rw [hlast]; exact drop_after hbuf)
      (by rw [hlast]; omega) (by omega)
    rw [hlast] at hfuel' hgo
    refine ⟨fuel', by omega, ?_⟩
    have hhead : buf.getD p 0 ≠ 0x01 := by
      intro h
      have hne := head_ne (b := 0x01) (by omega) (by decide)
        (by rw [show (0x01 : UInt8).toNat = 1 from rfl]; omega)
        (collistFrom pos rest ++ post)
        (v := (pos - done.getLast?.getD 0).toNat + 2)
      have hlen := length_of_drop (encode_ne_nil _) hbuf
      rw [← hbuf, getElem?_drop] at hne
      rw [getD_eq_getElem _ _ (by omega)] at h
      exact hne (List.getElem?_eq_some_iff.mpr ⟨by omega, h⟩)
    rw [fullEntries, if_pos (by omega), if_neg hhead, hread]
    simp only [Option.bind_eq_bind, Option.bind_some]
    rw [if_neg (by omega), hdone, Nat.add_sub_cancel, UInt32.ofNat_toNat, nextPos_sub hle]
    simp only [Option.bind_some]
    rw [hgo]
    congr 1
    · omega
    · rw [set_set, append_assoc, singleton_append]

def SortedCols (cols : List (List UInt32)) : Prop :=
  ∀ positions ∈ cols, positions.Pairwise (· ≤ ·)

def columnSwitch (c : Nat) : Bytes :=
  if c ≠ 0 then 0x01 :: Varint.encode c else []

/-- After a switch the column exists, and no column has changed. -/
theorem fullEntries_switch {stop : Nat} (hc : c < 2 ^ 64)
    (hzero : c = 0 → col = 0 ∧ 0 < cols.length) (hbuf : buf.drop p = columnSwitch c ++ post)
    (hstop : p + (columnSwitch c).length ≤ stop) (hfuel : stop ≤ p + fuel)
    : ∃ fuel' cols', stop ≤ p + (columnSwitch c).length + fuel' ∧ c < cols'.length
      ∧ (∀ i, cols'.getD i [] = cols.getD i [])
      ∧ fullEntries buf stop fuel p col cols
        = fullEntries buf stop fuel' (p + (columnSwitch c).length) c cols' := by
  by_cases h0 : c = 0
  · obtain ⟨rfl, hlen⟩ := hzero h0
    subst h0
    exact ⟨fuel, cols, hfuel, hlen, fun _ => rfl, rfl⟩
  rw [columnSwitch, if_pos h0] at hbuf hstop ⊢
  have hone : (0x01 :: encode c : Bytes) = [0x01] ++ encode c := rfl
  rw [length_cons] at hstop
  obtain ⟨fuel, rfl⟩ : ∃ k, fuel = k + 1 := ⟨fuel - 1, by omega⟩
  have hnext : buf.drop (p + 1) = encode c ++ post := by
    rw [hone, append_assoc] at hbuf
    exact drop_after hbuf
  have hhead : buf.getD p 0 = 0x01 := by
    have hget := congrArg (·[0]?) hbuf
    simp only [getElem?_drop, Nat.add_zero, cons_append, getElem?_cons_zero] at hget
    rw [getD_eq_getElem?_getD, hget, Option.getD_some]
  refine ⟨fuel, padCols cols c, ?_, lt_padCols_length cols c, padCols_getD cols c, ?_⟩
  · rw [length_cons]
    omega
  rw [fullEntries, if_pos (by omega), if_pos hhead, readVarint_encode hc hnext]
  simp only [Option.bind_eq_bind, Option.bind_some]
  congr 1
  rw [length_cons]
  omega

/-- The columns read from `c` on are those of `rest`, the ones before it those of `cols`. -/
def Placed (c : Nat) (cols rest out : List (List UInt32)) : Prop :=
  ∀ i, out.getD i [] = if i < c then cols.getD i [] else rest.getD (i - c) []

theorem Placed.nil (h : ∀ i, c ≤ i → cols.getD i [] = [])
    : Placed c cols [] cols := by
  intro i
  split
  · rfl
  · rw [h i (by omega), getD_nil]

theorem Placed.cons {cols' out : List (List UInt32)} {positions : List UInt32}
    (h : Placed (c + 1) cols' rest out) (hc : cols'.getD c [] = positions)
    (hbefore : ∀ i, i < c → cols'.getD i [] = cols.getD i [])
    : Placed c cols (positions :: rest) out := by
  intro i
  rw [h i]
  rcases Nat.lt_trichotomy i c with hi | rfl | hi
  · rw [if_pos (by omega), if_pos hi, hbefore i hi]
  · rw [if_pos (by omega), if_neg (by omega), hc, Nat.sub_self, getD_cons_zero]
  · rw [if_neg (by omega), if_neg (by omega), show i - c = (i - (c + 1)) + 1 by omega,
      getD_cons_succ]

/-- Reading the columns from `c` on. -/
theorem fullEntries_fullContent (hsorted : SortedCols rest) (hc : c + rest.length ≤ 2 ^ 64)
    (hempty : ∀ i, c ≤ i → cols.getD i [] = []) (hzero : c = 0 → col = 0 ∧ 0 < cols.length)
    (hbuf : buf.drop p = fullContent c rest ++ post) (hfuel : (fullContent c rest).length ≤ fuel)
    : ∃ out, fullEntries buf (p + (fullContent c rest).length) fuel p col cols = some out
      ∧ Placed c cols rest out := by
  induction rest generalizing p fuel c col cols with
  | nil =>
    refine ⟨cols, ?_, .nil hempty⟩
    cases fuel with
    | zero => rfl
    | succ fuel => rw [fullEntries, if_neg (by simp [fullContent])]
  | cons positions rest ih =>
    rw [length_cons] at hc
    have hlater : SortedCols rest := fun q hq => hsorted q (mem_cons_of_mem _ hq)
    by_cases hnil : positions = []
    · rw [fullContent, if_pos hnil] at hbuf hfuel ⊢
      obtain ⟨out, hout, hplaced⟩ := @ih (c + 1) p col fuel cols hlater (by omega)
        (fun i hi => hempty i (by omega)) (by omega) hbuf hfuel
      exact ⟨out, hout, hplaced.cons ((hempty c (Nat.le_refl c)).trans hnil.symm) fun _ _ => rfl⟩
    have hcontent : fullContent c (positions :: rest)
        = columnSwitch c ++ (collistFrom 0 positions ++ fullContent (c + 1) rest) := by
      rw [fullContent, if_neg hnil, append_assoc]
      rfl
    rw [hcontent] at hfuel ⊢
    rw [hcontent, append_assoc] at hbuf
    simp only [length_append] at hfuel ⊢
    obtain ⟨stop, hstop⟩ : ∃ stop, p + ((columnSwitch c).length
        + ((collistFrom 0 positions).length + (fullContent (c + 1) rest).length)) = stop :=
      ⟨_, rfl⟩
    rw [hstop]
    obtain ⟨fuel₁, cols₁, hfuel₁, hlen₁, hsame, hswitch⟩ :=
      @fullEntries_switch c p col fuel cols buf _ stop (by omega) hzero hbuf (by omega) (by omega)
    have hbuf₁ := drop_after hbuf
    rw [append_assoc] at hbuf₁
    have hnone : cols₁.getD c [] = [] := (hsame c).trans (hempty c (Nat.le_refl c))
    have hhere : (0 :: positions).Pairwise (· ≤ ·) :=
      pairwise_cons.mpr ⟨fun q _ => UInt32.zero_le, hsorted positions mem_cons_self⟩
    obtain ⟨fuel₂, hfuel₂, hread⟩ :=
      fullEntries_collist hlen₁ hnone hhere hbuf₁
        (by simp only [getLast?_nil, Option.getD_none]; omega) hfuel₁
    simp only [getLast?_nil, Option.getD_none, nil_append] at hfuel₂ hread
    obtain ⟨out, hout, hplaced⟩ :=
      @ih (c + 1) (p + (columnSwitch c).length + (collistFrom 0 positions).length) c fuel₂
        (cols₁.set c positions) hlater (by omega)
        (fun i hi => by rw [getD_set_ne (by omega), hsame, hempty i (by omega)])
        (by omega) (drop_after hbuf₁) (by omega)
    refine ⟨out, ?_, hplaced.cons (getD_set_self hlen₁ positions) fun i hi => ?_⟩
    · rw [hswitch, hread, ← hout]
      congr 1
      omega
    · rw [getD_set_ne (by omega), hsame]

def mark (positions : List UInt32) : List UInt32 :=
  if positions = [] then [] else [0]

/-- Reading the marks of the columns from `c` on. -/
theorem columnEntries_present {prev : UInt32} (hc : c + rest.length ≤ 2 ^ 32)
    (hprev : prev.toNat ≤ c) (hempty : ∀ i, c ≤ i → cols.getD i [] = [])
    (hbuf : buf.drop p = collistFrom prev (presentFrom c rest) ++ post)
    (hfuel : (collistFrom prev (presentFrom c rest)).length ≤ fuel)
    : ∃ out,
      columnEntries buf (p + (collistFrom prev (presentFrom c rest)).length) fuel p prev cols
          = some out
        ∧ Placed c cols (rest.map mark) out := by
  induction rest generalizing p fuel c prev cols with
  | nil =>
    refine ⟨cols, ?_, .nil hempty⟩
    cases fuel with
    | zero => rfl
    | succ fuel => rw [columnEntries, if_neg (by simp [presentFrom, collistFrom])]
  | cons positions rest ih =>
    rw [length_cons] at hc
    by_cases hnil : positions = []
    · rw [presentFrom, if_pos hnil] at hbuf hfuel ⊢
      obtain ⟨out, hout, hplaced⟩ := @ih (c + 1) p fuel cols prev (by omega) (by omega)
        (fun i hi => hempty i (by omega)) hbuf hfuel
      refine ⟨out, hout, hplaced.cons ?_ fun _ _ => rfl⟩
      rw [hempty c (Nat.le_refl c), mark, if_pos hnil]
    have hnat : (UInt32.ofNat c).toNat = c := toNat_ofNat_of_lt' (by
      rw [UInt32.size]
      omega)
    have hsub : (UInt32.ofNat c - prev).toNat = c - prev.toNat := by
      rw [UInt32.toNat_sub_of_le _ _ (le_iff_toNat_le.mpr (by omega)), hnat]
    simp only [presentFrom, if_neg hnil, collistFrom, append_assoc, length_append,
      hsub] at hbuf hfuel ⊢
    have henc := encode_length_pos (c - prev.toNat + 2)
    have hread := readVarint_encode (by omega) hbuf
    obtain ⟨fuel, rfl⟩ : ∃ k, fuel = k + 1 := ⟨fuel - 1, by omega⟩
    have hlen := lt_padCols_length cols c
    obtain ⟨out, hout, hplaced⟩ :=
      @ih (c + 1) (p + (encode (c - prev.toNat + 2)).length) fuel
        ((padCols cols c).set c [0]) (UInt32.ofNat c) (by omega) (by omega)
        (fun i hi => by rw [getD_set_ne (by omega), padCols_getD, hempty i (by omega)])
        (drop_after hbuf) (by omega)
    refine ⟨out, ?_, hplaced.cons ?_ fun i hi => ?_⟩
    · rw [columnEntries, if_pos (by omega), hread]
      simp only [Option.bind_eq_bind, Option.bind_some]
      have hcol : prev.toNat + (c - prev.toNat + 2 - 2) = c := by omega
      rw [if_neg (by omega), hcol, if_neg (by omega), padCols_getD, hempty c (Nat.le_refl c),
        ← hout]
      congr 1
      omega
    · rw [getD_set_self hlen, mark, if_neg hnil]
    · rw [getD_set_ne (by omega), padCols_getD]

-- Whole lists

/-- What the columns of a posting read back as: the same positions, their presence only, or
nothing.
-/
def ReadsAs (detail : Fts5Detail) (cols out : List (List UInt32)) : Prop :=
  match detail with
  | .full => ∀ i, out.getD i [] = cols.getD i []
  | .columns => ∀ i, out.getD i [] = mark (cols.getD i [])
  | .none => out = []

/-- A sized list reads as its entries do. -/
theorem sizedList_sized {content : Bytes} {pos : Nat} {del : Bool}
    {entries : (stop fuel p : Nat) → Option (List (List UInt32))}
    {good : List (List UInt32) → Prop} (hlen : (sized content del).length < 2 ^ 63)
    (hbuf : buf.drop pos = sized content del ++ post)
    (hentries : ∀ p, buf.drop p = content ++ post
      → ∃ out, entries (p + content.length) content.length p = some out ∧ good out)
    : ∃ out, sizedList buf pos entries = some (out, del, pos + (sized content del).length)
      ∧ good out := by
  have hdel := Bool.toNat_le del
  rw [sized, length_append] at hlen
  rw [sized, append_assoc] at hbuf
  have hread := readVarint_encode (v := content.length * 2 + del.toNat) (by omega) hbuf
  have hinside := length_of_drop (encode_ne_nil _) hbuf
  rw [length_append] at hinside
  have hhalf : (content.length * 2 + del.toNat) / 2 = content.length := by omega
  have hlow : ((content.length * 2 + del.toNat) % 2 == 1) = del := by
    cases del <;> simp
  obtain ⟨out, hout, hgood⟩ := hentries _ (drop_after hbuf)
  refine ⟨out, ?_, hgood⟩
  rw [sizedList, hread]
  simp only [Option.bind_eq_bind, Option.bind_some, hhalf, hlow]
  rw [if_neg (by omega), hout, sized, length_append, ← Nat.add_assoc]
  rfl

theorem ReadsAs.of_placed {out : List (List UInt32)} {f : List UInt32 → List UInt32}
    (hf : f [] = []) (h : Placed 0 [[]] (cols.map f) out) (i : Nat)
    : out.getD i [] = f (cols.getD i []) := by
  rw [h i, if_neg (not_lt_zero i), Nat.sub_zero]
  nth_rewrite 1 [← hf]
  rw [getD_map]

/-- A written position list reads back whole, with its delete flag, up to where it ends. With
`detail=none` nothing marks that end, so no zero byte may follow.
-/
theorem decodePoslistKeepdel_poslist {p : Posting} {detail : Fts5Detail}
    {pos : Nat} (hp : p.Sized detail) (hsorted : SortedCols p.cols)
    (hpost : detail = .none → post[0]? ≠ some 0) (hbuf : buf.drop pos = poslist p detail ++ post)
    : ∃ out, decodePoslistKeepdel buf pos detail
        = some (out, p.del, pos + (poslist p detail).length)
      ∧ ReadsAs detail p.cols out := by
  have hcols := hp.cols
  have hone : ∀ i, 0 ≤ i → ([[]] : List (List UInt32)).getD i [] = [] := fun i _ => by
    cases i <;> rfl
  cases detail with
  | full =>
    rw [decodePoslistKeepdel]
    refine sizedList_sized hp.content hbuf fun q hq => ?_
    obtain ⟨out, hout, hplaced⟩ := fullEntries_fullContent hsorted (by omega) hone
      (fun _ => ⟨rfl, Nat.zero_lt_one⟩) hq (Nat.le_refl _)
    refine ⟨out, hout, ReadsAs.of_placed (f := id) rfl ?_⟩
    rwa [map_id]
  | columns =>
    rw [decodePoslistKeepdel]
    refine sizedList_sized hp.content hbuf fun q hq => ?_
    obtain ⟨out, hout, hplaced⟩ := @columnEntries_present 0 q _ [[]] p.cols buf post 0
      (by omega) (Nat.le_refl 0) hone hq (Nat.le_refl _)
    exact ⟨out, hout, ReadsAs.of_placed rfl hplaced⟩
  | none =>
    refine ⟨[], ?_, rfl⟩
    have h0 : buf[pos]? = (poslist p .none ++ post)[0]? := by
      rw [← hbuf, getElem?_drop, Nat.add_zero]
    have h1 : buf[pos + 1]? = (poslist p .none ++ post)[1]? := by
      rw [← hbuf, getElem?_drop]
    rw [decodePoslistKeepdel, h0, h1, poslist]
    cases p.del with
    | false => simp [hpost]
    | true => cases p.cols.any fun c => !c.isEmpty <;> simp [hpost]

end GraphiteSql.Fts5
