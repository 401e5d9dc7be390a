import GraphiteSql.Pager.State

/-! Writing whole b-tree pages: the cell pointer array after the header, the cells packed
against the end of the usable area.
-/

namespace GraphiteSql

open Lib List Nat

variable {buf buf' : Bytes} {ptr content headerLen pageSize usable body : Nat} {cells : List Bytes}
  {overflow : String} {kind : UInt8} {headerPrefix : Option Bytes}

abbrev LeafCell := Int64 × Bytes

abbrev InteriorCell := UInt32 × Int64

abbrev LeafEntry := Bytes × Bytes

abbrev IdxKey := Bytes × Bytes

abbrev InteriorEntry := UInt32 × IdxKey

def copyInto (buf : Bytes) (off : Nat) (src : Bytes) : Result Bytes :=
  orPanic "range end index out of range for slice" (patch buf off src)

/-- Place the cells from the pointer slot `ptr` on, each directly below the content before
it. The content start and the page are returned.
-/
def placeCells (overflow : String) (ptrEnd : Nat)
    : (ptr content : Nat) → (cells : List Bytes) → (buf : Bytes) → Result (Nat × Bytes)
  | _, content, [], buf => .ok (content, buf)
  | ptr, content, cell :: cells, buf => do
      if content < cell.length ∨ content - cell.length < ptrEnd then throw (.corrupt overflow) else
      let content := content - cell.length
      let buf ← copyInto buf content cell
      let buf ← copyInto buf ptr (u16ToBytes (.ofNat content))
      placeCells overflow ptrEnd (ptr + 2) content cells buf

def cellContentStart (content : Nat) : UInt16 :=
  if 65536 ≤ content then 0 else .ofNat content

def blankPage (pageSize : Nat) : (headerPrefix : Option Bytes) → Result Bytes
  | some h => copyInto (zeroPage pageSize) 0 h
  | none => .ok (zeroPage pageSize)

/-- The pages of all four kinds: a blank page, the cells, then the page header. `headerLen` is
where the pointer array begins after `body`.
-/
def serializeCells (kind : UInt8) (headerLen : Nat) (overflow : String)
    (pageSize usable body : Nat) (cells : List Bytes) (headerPrefix : Option Bytes)
    : Result Bytes := do
  let buf ← blankPage pageSize headerPrefix
  let ptrBase := body + headerLen
  let (content, buf) ←
    placeCells overflow (ptrBase + 2 * cells.length) ptrBase usable cells buf
  let buf ← copyInto buf body [kind]
  let buf ← copyInto buf (body + 3) (u16ToBytes (.ofNat cells.length))
  copyInto buf (body + 5) (u16ToBytes (cellContentStart content))

def serializeLeaf (pageSize usable body : Nat) (cells : List LeafCell)
    (headerPrefix : Option Bytes) : Result Bytes :=
  serializeCells 0x0d 8 "leaf page overflow while serializing" pageSize usable body
    (cells.map Prod.snd) headerPrefix

def serializeInterior (pageSize usable body : Nat) (cells : List InteriorCell) (right : UInt32)
    (headerPrefix : Option Bytes) : Result Bytes := do
  let buf ← serializeCells 0x05 12 "interior page overflow while serializing" pageSize usable
    body (cells.map fun (child, key) => u32ToBytes child ++ Varint.encodeI64 key) headerPrefix
  copyInto buf (body + 8) (u32ToBytes right)

def serializeIndexLeaf (pageSize usable body : Nat) (rcells : List Bytes)
    (headerPrefix : Option Bytes) : Result Bytes :=
  serializeCells 0x0a 8 "index leaf page overflow while serializing" pageSize usable body
    rcells headerPrefix

def serializeIndexInterior (pageSize usable body : Nat) (cells : List InteriorEntry)
    (right : UInt32) (headerPrefix : Option Bytes) : Result Bytes := do
  let buf ← serializeCells 0x02 12 "index interior page overflow while serializing" pageSize
    usable body (cells.map fun (child, _, rcell) => u32ToBytes child ++ rcell) headerPrefix
  copyInto buf (body + 8) (u32ToBytes right)

theorem copyInto_eq_ok {src : Bytes} {off : Nat}
    : copyInto buf off src = .ok buf'
      ↔ off + src.length ≤ buf.length ∧ overwrite buf off src = buf' := by
  rw [copyInto, orPanic_eq_ok, patch_eq_some]

/-- The cells are in `buf'` from `start` on, each with its pointer. -/
structure Placed (ptr content : Nat) (cells : List Bytes) (buf : Bytes) (start : Nat)
    (buf' : Bytes) : Prop where
  length : buf'.length = buf.length
  total : start + (cells.map List.length).sum = content
  cell : ∀ i cell, cells[i]? = some cell → ∃ off, start ≤ off ∧ off + cell.length ≤ content ∧
    slice buf' (ptr + 2 * i) 2 = some (u16ToBytes (.ofNat off)) ∧
    slice buf' off cell.length = some cell
  /-- What lies outside the pointer slots and the content is kept. -/
  frame : ∀ off len, (off + len ≤ ptr ∨ ptr + 2 * cells.length ≤ off) →
    (off + len ≤ start ∨ content ≤ off) → slice buf' off len = slice buf off len

/-- One cell and its pointer in front of the cells that follow. -/
theorem Placed.cons {start : Nat} {cell : Bytes}
    (hcell : cell.length ≤ content)
    (hroom : ptr + 2 + 2 * cells.length ≤ content - cell.length)
    (hstart : ptr + 2 + 2 * cells.length ≤ start) (hlen : content ≤ buf.length)
    (h : Placed (ptr + 2) (content - cell.length) cells
      (overwrite (overwrite buf (content - cell.length) cell) ptr
        (u16ToBytes (.ofNat (content - cell.length)))) start buf')
    : Placed ptr content (cell :: cells) buf start buf' := by
  have hfit : content - cell.length + cell.length ≤ buf.length := by omega
  have hlen₁ := overwrite_length hfit
  have hfit₂ : ptr + (u16ToBytes (.ofNat (content - cell.length))).length
      ≤ (overwrite buf (content - cell.length) cell).length := by
    rw [u16ToBytes_length]
    omega
  have htotal := h.total
  refine ⟨?_, ?_, ?_, ?_⟩
  · rw [h.length, overwrite_length hfit₂, hlen₁]
  · rw [map_cons, sum_cons]
    omega
  · intro i c hc
    cases i with
    | zero =>
      obtain rfl : cell = c := Option.some.inj hc
      refine ⟨content - cell.length, by omega, by omega, ?_, ?_⟩
      · rw [h.frame _ _ (.inl (by omega)) (by omega)]
        exact slice_overwrite_self hfit₂
      · rw [h.frame _ _ (by omega) (.inr (by omega)),
          slice_overwrite_disjoint hfit₂ (.inr (by rw [u16ToBytes_length]; omega))]
        exact slice_overwrite_self hfit
    | succ i =>
      obtain ⟨off, hlo, hhi, hptr, hslice⟩ := h.cell i c hc
      refine ⟨off, hlo, by omega, ?_, hslice⟩
      rw [show ptr + 2 * (i + 1) = ptr + 2 + 2 * i by omega]
      exact hptr
  · intro off len hptr hcontent
    rw [length_cons] at hptr
    rw [h.frame off len (by omega) (by omega),
      slice_overwrite_disjoint hfit₂ (by rw [u16ToBytes_length]; omega),
      slice_overwrite_disjoint hfit (by omega)]

/-- Cells that are placed without an overflow are all on the page. -/
theorem placeCells_placed {ptrEnd start : Nat} (hptr : ptr + 2 * cells.length ≤ ptrEnd)
    (hlen : content ≤ buf.length)
    (h : placeCells overflow ptrEnd ptr content cells buf = .ok (start, buf'))
    : Placed ptr content cells buf start buf' ∧ (cells ≠ [] → ptrEnd ≤ start) := by
  induction cells generalizing ptr content buf with
  | nil =>
    cases h
    exact ⟨⟨rfl, rfl, nofun, fun _ _ _ _ => rfl⟩, absurd rfl⟩
  | cons cell cells ih =>
    rw [placeCells] at h
    split at h
    · cases h
    rename_i hfits
    rw [length_cons] at hptr
    obtain ⟨buf₁, hbuf₁, h⟩ := except_bind_eq_ok.mp h
    obtain ⟨buf₂, hbuf₂, h⟩ := except_bind_eq_ok.mp h
    obtain ⟨hfit₁, rfl⟩ := copyInto_eq_ok.mp hbuf₁
    obtain ⟨hfit₂, rfl⟩ := copyInto_eq_ok.mp hbuf₂
    obtain ⟨hplaced, hrest⟩ := ih (by omega)
      (by rw [overwrite_length hfit₂, overwrite_length hfit₁]; omega) h
    have htotal := hplaced.total
    have hend : ptrEnd ≤ start := by
      by_cases hne : cells = []
      · subst hne
        have hsum : start = content - cell.length := htotal
        omega
      · exact hrest hne
    exact ⟨hplaced.cons (by omega) (by omega) (by omega) hlen, fun _ => hend⟩

/-- Cells that fit between the pointer array and the content are placed. -/
theorem placeCells_ok {ptrEnd : Nat} (hptr : ptr + 2 * cells.length ≤ ptrEnd)
    (hroom : ptrEnd + (cells.map length).sum ≤ content) (hlen : content ≤ buf.length)
    : ∃ start buf', placeCells overflow ptrEnd ptr content cells buf = .ok (start, buf') := by
  induction cells generalizing ptr content buf with
  | nil => exact ⟨content, buf, rfl⟩
  | cons cell cells ih =>
    rw [map_cons, sum_cons] at hroom
    rw [length_cons] at hptr
    have hfit₁ : content - cell.length + cell.length ≤ buf.length := by omega
    have hlen₁ := overwrite_length hfit₁
    have hfit₂ : ptr + (u16ToBytes (.ofNat (content - cell.length))).length
        ≤ (overwrite buf (content - cell.length) cell).length := by
      rw [u16ToBytes_length]
      omega
    rw [placeCells, if_neg (by omega)]
    dsimp only
    rw [copyInto_eq_ok.mpr ⟨hfit₁, rfl⟩, except_ok_bind, copyInto_eq_ok.mpr ⟨hfit₂, rfl⟩]
    exact ih (by omega) (by omega) (by rw [overwrite_length hfit₂]; omega)

/-- A page image with these cells. -/
structure Serialized (kind : UInt8) (headerLen pageSize usable body : Nat) (cells : List Bytes)
    (headerPrefix : Option Bytes) (buf : Bytes) : Prop where
  length : buf.length = pageSize
  kind : slice buf body 1 = some [kind]
  count : slice buf (body + 3) 2 = some (u16ToBytes (.ofNat cells.length))
  room : cells ≠ [] →
    body + headerLen + 2 * cells.length + (cells.map List.length).sum ≤ usable
  cell : ∀ i cell, cells[i]? = some cell → ∃ off,
    body + headerLen + 2 * cells.length ≤ off ∧ off + cell.length ≤ usable ∧
    slice buf (body + headerLen + 2 * i) 2 = some (u16ToBytes (.ofNat off)) ∧
    slice buf off cell.length = some cell
  dbHeader : ∀ h, headerPrefix = some h → h.length ≤ body → slice buf 0 h.length = some h

/-- Writing part of the page header keeps what the page holds. -/
theorem Serialized.patch {at' : Nat} {src : Bytes}
    (h : Serialized kind headerLen pageSize usable body cells headerPrefix buf)
    (hat : body + 5 ≤ at') (hsrc : at' + src.length ≤ body + headerLen)
    (hcopy : copyInto buf at' src = .ok buf')
    : Serialized kind headerLen pageSize usable body cells headerPrefix buf' := by
  obtain ⟨hfit, rfl⟩ := copyInto_eq_ok.mp hcopy
  refine ⟨?_, ?_, ?_, h.room, ?_, ?_⟩
  · rw [overwrite_length hfit]
    exact h.length
  · rw [slice_overwrite_disjoint hfit (.inl (by omega))]
    exact h.kind
  · rw [slice_overwrite_disjoint hfit (.inl (by omega))]
    exact h.count
  · intro i cell hc
    obtain ⟨off, hlo, hhi, hptr, hslice⟩ := h.cell i cell hc
    refine ⟨off, hlo, hhi, ?_, ?_⟩
    · rw [slice_overwrite_disjoint hfit (.inr (by omega))]
      exact hptr
    · rw [slice_overwrite_disjoint hfit (.inr (by omega))]
      exact hslice
  · intro p hp hlen
    rw [slice_overwrite_disjoint hfit (.inl (by omega))]
    exact h.dbHeader p hp hlen

theorem blankPage_eq_ok (hblank : blankPage pageSize headerPrefix = .ok buf)
    : buf.length = pageSize ∧ ∀ h, headerPrefix = some h → slice buf 0 h.length = some h := by
  have hzero : (zeroPage pageSize).length = pageSize := length_replicate
  cases headerPrefix with
  | none =>
    cases hblank
    exact ⟨hzero, nofun⟩
  | some h =>
    obtain ⟨hfit, rfl⟩ := copyInto_eq_ok.mp hblank
    refine ⟨(overwrite_length hfit).trans hzero, fun p hp => ?_⟩
    cases hp
    exact slice_overwrite_self hfit

theorem blankPage_ok (hshort : ∀ h, headerPrefix = some h → h.length ≤ pageSize)
    : ∃ buf, blankPage pageSize headerPrefix = .ok buf := by
  cases headerPrefix with
  | none => exact ⟨_, rfl⟩
  | some h =>
    refine ⟨_, copyInto_eq_ok.mpr ⟨?_, rfl⟩⟩
    rw [zeroPage, length_replicate, Nat.zero_add]
    exact hshort h rfl

/-- A page that is serialized holds its cells and its header fields. -/
theorem serializeCells_serialized (hheader : 8 ≤ headerLen) (hbody : body + headerLen ≤ usable)
    (husable : usable ≤ pageSize)
    (h : serializeCells kind headerLen overflow pageSize usable body cells headerPrefix = .ok buf)
    : Serialized kind headerLen pageSize usable body cells headerPrefix buf := by
  obtain ⟨buf₀, hblank, h⟩ := except_bind_eq_ok.mp h
  obtain ⟨hlen₀, hdb⟩ := blankPage_eq_ok hblank
  obtain ⟨⟨start, buf₁⟩, hplace, h⟩ := except_bind_eq_ok.mp h
  obtain ⟨buf₂, hbuf₂, h⟩ := except_bind_eq_ok.mp h
  obtain ⟨buf₃, hbuf₃, h⟩ := except_bind_eq_ok.mp h
  obtain ⟨hplaced, hstart⟩ := placeCells_placed (le_refl _) (by omega) hplace
  have htotal := hplaced.total
  have hlow : ∀ {off len}, off + len ≤ body + headerLen → off + len ≤ start := by
    intro off len hoff
    by_cases hne : cells = []
    · subst hne
      have : start = usable := htotal
      omega
    · have := hstart hne
      omega
  obtain ⟨hfit₂, rfl⟩ := copyInto_eq_ok.mp hbuf₂
  obtain ⟨hfit₃, rfl⟩ := copyInto_eq_ok.mp hbuf₃
  -- before the content start is written the page holds everything already
  refine Serialized.patch ?_ (le_refl _) (by rw [u16ToBytes_length]; omega) h
  refine ⟨?_, ?_, slice_overwrite_self hfit₃, ?_, ?_, ?_⟩
  · rw [overwrite_length hfit₃, overwrite_length hfit₂, hplaced.length, hlen₀]
  · rw [slice_overwrite_disjoint hfit₃ (.inl (by omega))]
    exact slice_overwrite_self hfit₂
  · intro hne
    have := hstart hne
    omega
  · intro i cell hc
    obtain ⟨off, hlo, hhi, hptr, hslice⟩ := hplaced.cell i cell hc
    have hoff := hstart (by rintro rfl; cases hc)
    refine ⟨off, by omega, hhi, ?_, ?_⟩
    · rw [slice_overwrite_disjoint hfit₃ (.inr (by rw [u16ToBytes_length]; omega)),
        slice_overwrite_disjoint hfit₂ (.inr (by rw [length_singleton]; omega))]
      exact hptr
    · rw [slice_overwrite_disjoint hfit₃ (.inr (by rw [u16ToBytes_length]; omega)),
        slice_overwrite_disjoint hfit₂ (.inr (by rw [length_singleton]; omega))]
      exact hslice
  · intro p hp hlen
    rw [slice_overwrite_disjoint hfit₃ (.inl (by omega)),
      slice_overwrite_disjoint hfit₂ (.inl (by omega)),
      hplaced.frame 0 p.length (.inl (by omega)) (.inl (hlow (by omega)))]
    exact hdb p hp

/-- Cells that fit are serialized. -/
theorem serializeCells_ok (hheader : 8 ≤ headerLen) (husable : usable ≤ pageSize)
    (hshort : ∀ h, headerPrefix = some h → h.length ≤ pageSize)
    (hroom : body + headerLen + 2 * cells.length + (cells.map length).sum ≤ usable)
    : ∃ buf, serializeCells kind headerLen overflow pageSize usable body cells headerPrefix
      = .ok buf := by
  obtain ⟨buf₀, hblank⟩ := blankPage_ok hshort
  obtain ⟨hlen₀, -⟩ := blankPage_eq_ok hblank
  obtain ⟨start, buf₁, hplace⟩ := @placeCells_ok buf₀ _ _ _ overflow _
    (le_refl (body + headerLen + 2 * cells.length)) hroom (by rw [hlen₀]; exact husable)
  obtain ⟨hplaced, -⟩ := placeCells_placed (le_refl _) (by omega) hplace
  have hlen₁ : buf₁.length = pageSize := hplaced.length.trans hlen₀
  have hfit₂ : body + [kind].length ≤ buf₁.length := by
    rw [length_singleton]
    omega
  have hlen₂ := overwrite_length hfit₂
  have hfit₃ : body + 3 + (u16ToBytes (.ofNat cells.length)).length
      ≤ (overwrite buf₁ body [kind]).length := by
    rw [u16ToBytes_length]
    omega
  have hlen₃ := overwrite_length hfit₃
  rw [serializeCells, hblank, except_ok_bind]
  dsimp only
  rw [hplace, except_ok_bind]
  rw [copyInto_eq_ok.mpr ⟨hfit₂, rfl⟩, except_ok_bind, copyInto_eq_ok.mpr ⟨hfit₃, rfl⟩]
  exact ⟨_, copyInto_eq_ok.mpr ⟨by rw [u16ToBytes_length]; omega, rfl⟩⟩

end GraphiteSql
