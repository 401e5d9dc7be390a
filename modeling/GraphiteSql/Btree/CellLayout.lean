import GraphiteSql.Btree.Serialize

/-! A serialized page parses back: its kind, its cells in order and its right pointer. -/

namespace GraphiteSql

open Lib

def PageType.byte : PageType → UInt8
  | .interiorIndex => 0x02
  | .interiorTable => 0x05
  | .leafIndex => 0x0a
  | .leafTable => 0x0d

theorem PageType.fromByte_byte (t : PageType) : fromByte t.byte = .ok t := by
  cases t <;> rfl

/-- The cells stand within the usable part of the page. -/
structure BtreePage.Cells (bt : BtreePage) (usable : Nat) (cells : List Bytes) : Prop where
  count : bt.numCells = cells.length
  cell : ∀ i cell, cells[i]? = some cell → cell ≠ [] → ∃ off, bt.cellOffset i = .ok off ∧
    off + cell.length ≤ usable ∧ slice bt.data off cell.length = some cell

section Parse

variable {t : PageType} {pageSize usable : Nat} {cells : List Bytes} {headerPrefix : Option Bytes}
  {page : Page} {right : UInt32}

theorem Serialized.count_lt {kind : UInt8} {headerLen body : Nat} {buf : Bytes}
    (h : Serialized kind headerLen pageSize usable body cells headerPrefix buf)
    (husable : usable ≤ 65536) : cells.length < 65536 := by
  by_cases hne : cells = []
  · rw [hne]
    decide
  · have := h.room hne
    omega

section Serialized

variable (hbody : page.bodyOffset + t.headerLen ≤ usable) (husable : usable ≤ pageSize)
  (hmax : usable ≤ 65536)
  (h : Serialized t.byte t.headerLen pageSize usable page.bodyOffset cells headerPrefix page.data)

include husable hmax h

include hbody in
/-- The header of a serialized page parses to its fields. -/
theorem parse_serialized
    (hright : if t.isLeaf then right = 0 else be32 page.data (page.bodyOffset + 8) = some right)
    : BtreePage.parse page = .ok
      { page, pageType := t, bodyOffset := page.bodyOffset, numCells := cells.length,
        rightPointer := right } := by
  have hge := t.headerLen_ge
  have hlen := h.length
  have hslice : slice page.data page.bodyOffset [t.byte].length = some [t.byte] := h.kind
  have hkind : byteAt page.data page.bodyOffset = .ok t.byte :=
    byteAt_ok.mpr ((slice_eq_some_iff_getElem?.mp hslice).2 0 Nat.one_pos)
  have hcount : beU16 page.data (page.bodyOffset + 3) = .ok (.ofNat cells.length) :=
    beU16_ok.mpr (be16_eq_some.mpr h.count)
  have hnum : (UInt16.ofNat cells.length).toNat = cells.length :=
    UInt16.toNat_ofNat_of_lt' (h.count_lt hmax)
  unfold BtreePage.parse
  rw [if_neg (by omega), hkind, except_ok_bind, t.fromByte_byte, except_ok_bind,
    if_neg (by omega), hcount, except_ok_bind]
  cases hleaf : t.isLeaf with
  | true =>
    rw [hleaf] at hright
    rw [hright, hnum]
    rfl
  | false =>
    rw [hleaf] at hright
    rw [beU32_ok.mpr hright, hnum]
    rfl

/-- The cells of a serialized page are found by their pointers. -/
theorem cells_serialized {bt : BtreePage} (hbt : bt.page = page ∧ bt.pageType = t ∧
      bt.bodyOffset = page.bodyOffset ∧ bt.numCells = cells.length)
    : bt.Cells usable cells := by
  obtain ⟨hpage, htype, hbody, hcount⟩ := hbt
  refine ⟨hcount, fun i cell hcell hne => ?_⟩
  obtain ⟨off, hlo, hhi, hptr, hslice⟩ := h.cell i cell hcell
  have hpos := List.length_pos_of_ne_nil hne
  have hi : i < cells.length := (List.getElem?_eq_some_iff.mp hcell).1
  have hlen := h.length
  have hoff : (UInt16.ofNat off).toNat = off :=
    UInt16.toNat_ofNat_of_lt' (show off < 65536 by omega)
  refine ⟨off, ?_, hhi, by rw [BtreePage.data, hpage]; exact hslice⟩
  have hread : beU16 bt.data (bt.bodyOffset + bt.pageType.headerLen + 2 * i)
      = .ok (.ofNat off) := by
    rw [BtreePage.data, hpage, hbody, htype]
    exact beU16_ok.mpr (be16_eq_some.mpr hptr)
  have hdata : bt.data.length = pageSize := by
    rw [BtreePage.data, hpage, hlen]
  unfold BtreePage.cellOffset
  rw [if_neg (by omega)]
  rw [if_neg (by rw [htype]; omega), hread, except_ok_bind, hoff,
    if_neg (by omega)]
  rfl

/-- The page parses as a `t` page with these cells. -/
structure PageHolds (page : Page) (t : PageType) (pageSize usable : Nat) (cells : List Bytes)
    (right : UInt32) (bt : BtreePage) : Prop where
  length : page.data.length = pageSize
  parse : BtreePage.parse page = .ok bt
  page : bt.page = page
  pageType : bt.pageType = t
  rightPointer : bt.rightPointer = right
  cells : bt.Cells usable cells

include hbody in
theorem Serialized.holds
    (hright : if t.isLeaf then right = 0 else be32 page.data (page.bodyOffset + 8) = some right)
    : ∃ bt, PageHolds page t pageSize usable cells right bt :=
  ⟨_, h.length, parse_serialized hbody husable hmax h hright, rfl, rfl, rfl,
    cells_serialized husable hmax h ⟨rfl, rfl, rfl, rfl⟩⟩

end Serialized

section Serializers

variable (hbody : page.bodyOffset + 12 ≤ usable) (husable : usable ≤ pageSize)
  (hmax : usable ≤ 65536)

include hbody husable hmax

theorem serializeCells_leaf {overflow : String} (hleaf : t.isLeaf = true)
    (h : serializeCells t.byte 8 overflow pageSize usable page.bodyOffset cells headerPrefix
      = .ok page.data)
    : ∃ bt, PageHolds page t pageSize usable cells 0 bt := by
  have hheader : t.headerLen = 8 := if_pos hleaf
  have hser := serializeCells_serialized (Nat.le_refl 8) (by omega) husable h
  rw [← hheader] at hser
  exact hser.holds (by omega) husable hmax (by rw [if_pos hleaf])

theorem serializeCells_interior {overflow : String} {buf : Bytes} (hinterior : t.isLeaf = false)
    (h : serializeCells t.byte 12 overflow pageSize usable page.bodyOffset cells headerPrefix
      = .ok buf)
    (hright : copyInto buf (page.bodyOffset + 8) (u32ToBytes right) = .ok page.data)
    : ∃ bt, PageHolds page t pageSize usable cells right bt := by
  have hheader : t.headerLen = 12 := if_neg (by rw [hinterior]; exact Bool.false_ne_true)
  have hser := (serializeCells_serialized (by decide) hbody husable h).patch (by omega)
    (by rw [u32ToBytes_length]) hright
  obtain ⟨hfit, hdata⟩ := copyInto_eq_ok.mp hright
  rw [← hheader] at hser
  refine hser.holds (by omega) husable hmax ?_
  rw [hinterior, be32_eq_some, ← hdata]
  exact slice_overwrite_self hfit

end Serializers

end Parse

end GraphiteSql
