import GraphiteSql.Btree.CellRoundTrip
import GraphiteSql.Format.RecordCodec
import GraphiteSql.Pager.NewDatabase

/-! Cells that are built, placed on a page and read back, for rows of tables and records of
indexes.
-/

namespace GraphiteSql

open Lib List Nat Varint

variable {s : PagerState} {t : PageType} {varints payload : Bytes} {first : UInt32}
variable {pages : List UInt32}

def maxLocal (t : PageType) (usable : Nat) : Nat :=
  if t.isTable then usable - 35 else (usable - 12) * 64 / 255 - 23

theorem localLen_le (t : PageType) (usable p : Nat) : localLen t usable p ≤ maxLocal t usable := by
  unfold localLen payloadSplit maxLocal
  cases t <;> dsimp only [PageType.isTable] <;> split_ifs <;> simp_all <;> omega

theorem Stored.length_cell_le {cell : Bytes}
    (h : Stored s t varints payload first pages cell)
    (ht : t ≠ .interiorTable) : cell.length ≤ varints.length + maxLocal t s.usableSize + 4 := by
  have hlen := h.length_cell ht
  have hlocal := localLen_le t s.usableSize payload.length
  split at hlen <;> omega

theorem length_rowVarints_le (rowid : Int64) (payload : Bytes)
    : (rowVarints rowid payload).length ≤ 18 := by
  have := len_le payload.length
  have := len_le rowid.toUInt64.toNat
  rw [length_rowVarints]
  omega

theorem rowVarints_length_pos (rowid : Int64) (payload : Bytes)
    : 0 < (rowVarints rowid payload).length := by
  have := len_pos payload.length
  rw [length_rowVarints]
  omega

theorem Stored.ne_nil {cell : Bytes}
    (h : Stored s t varints payload first pages cell)
    (hvarints : 0 < varints.length) : cell ≠ [] := by
  rw [h.bytes, append_assoc]
  exact append_ne_nil_of_left_ne_nil (ne_nil_of_length_pos hvarints) _

/-- The payload reads back from as many overflow pages as it needs. -/
structure ReadsBack (s : PagerState) (t : PageType) (pageBytes : Bytes) (p : Payload)
    (payload : Bytes) : Prop where
  read : readPayload s.source pageBytes p = .ok payload
  localLen : p.localLen = (payloadSplit t s.usableSize payload.length).1
  overflow : p.overflow ≠ 0 ↔ (payloadSplit t s.usableSize payload.length).2 = true
  chain : ∃ pages, OverflowChain s p.overflow pages (payload.drop p.localLen) ∧
    pages.length = divCeil (payload.length - p.localLen) (s.usableSize - 4)

theorem Stored.readsBack {cell : Bytes} {bt : BtreePage} {off : Nat}
    (h : Stored s t varints payload first pages cell)
    (hcell : slice bt.data off cell.length = some cell) (ht : t ≠ .interiorTable)
    (hdata : bt.data.length < 2 ^ 63) (husable : 4 < s.usableSize)
    (hpayload : payload.length < 2 ^ 63)
    : ReadsBack s t bt.data (storedPayload t s.usableSize off varints payload first) payload where
  read := readPayload_stored h hcell ht hdata husable hpayload
  localLen := rfl
  overflow := by
    have hcases := localLen_cases t ht s.usableSize payload.length
    have hchain := h.chain
    change first ≠ 0 ↔ spills t s.usableSize payload.length = true
    cases hspills : spills t s.usableSize payload.length with
    | true =>
      rw [hspills, if_pos rfl] at hcases
      refine iff_of_true ?_ rfl
      generalize hrest : payload.drop _ = rest at hchain
      cases hchain with
      | nil =>
        have := congrArg length hrest
        rw [length_drop, length_nil] at this
        omega
      | cons nonzero => exact nonzero
    | false =>
      have hzero := (h.parts hcell ht).2.2.2 hspills
      exact iff_of_false (not_not.mpr hzero) nofun
  chain := ⟨pages, h.chain, by rw [h.chain.length_pages husable, length_drop]; rfl⟩

section Placed

variable {used : Set UInt32} (hwork : Workspace s used) {cell : Bytes}
  {pages : List UInt32} (hpayload : payload.length < 2 ^ 63) {page : Page}
  {headerPrefix : Option Bytes} {i : Nat}

include hwork

/-- The room a page has before its cells. -/
theorem Workspace.bodyOffset_le (page : Page) : page.bodyOffset + 12 ≤ s.usableSize := by
  have := hwork.minimum
  have : page.bodyOffset ≤ 100 := by
    unfold Page.bodyOffset
    split
    · exact le_refl _
    · exact zero_le _
  omega

theorem Workspace.usable_le_max : s.usableSize ≤ 65536 :=
  le_trans hwork.usable_le hwork.maximum

include hpayload

/-- A row on a leaf page. -/
theorem serializeLeaf_readsBack {rowid : Int64} {cells : List LeafCell}
    (h : Stored s .leafTable (rowVarints rowid payload) payload first pages cell)
    (hpage : serializeLeaf s.wp.pageSize s.usableSize page.bodyOffset cells headerPrefix
      = .ok page.data)
    (hcell : cells[i]? = some (rowid, cell))
    : ∃ bt p, BtreePage.parse page = .ok bt ∧ bt.tableLeafCell i s.usableSize = .ok ⟨rowid, p⟩ ∧
      ReadsBack s .leafTable page.data p payload ∧
      bt.rawTableLeafCell i s.usableSize = .ok cell := by
  obtain ⟨bt, hholds⟩ := @serializeCells_leaf .leafTable _ _ _ _ _ (hwork.bodyOffset_le page)
    hwork.usable_le hwork.usable_le_max _ rfl hpage
  have hdata : bt.data = page.data := congrArg Page.data hholds.page
  have hlen : bt.data.length < 2 ^ 63 := by
    have := hwork.maximum
    rw [hdata, hholds.length]
    omega
  obtain ⟨off, hoff, -, hslice⟩ := hholds.cells.cell i cell (by rw [getElem?_map, hcell]; rfl)
    (h.ne_nil (rowVarints_length_pos rowid payload))
  have husable : 4 < s.usableSize := lt_of_lt_of_le (by decide) hwork.minimum
  refine ⟨bt, _, hholds.parse, tableLeafCell_stored hoff hlen hpayload h hslice hholds.pageType,
    ?_, rawTableLeafCell_stored hoff hlen hpayload h hslice hholds.pageType⟩
  rw [← hdata]
  exact h.readsBack hslice nofun hlen husable hpayload

section

variable (h : Stored s .leafIndex (encode payload.length) payload first pages cell)

include h

/-- The common part of the two index pages: the record part of cell `i` begins at `keyOff`. -/
theorem indexPage_readsBack {cells : List Bytes} {right child : UInt32}
    {bt : BtreePage} {off keyOff : Nat}
    (hholds : PageHolds page t s.wp.pageSize s.usableSize cells right bt)
    (hoff : bt.cellOffset i = .ok off) (hkey : KeyAt bt off child keyOff)
    (hslice : slice bt.data keyOff cell.length = some cell)
    : ∃ bt p, BtreePage.parse page = .ok bt ∧ bt.indexCell i s.usableSize = .ok ⟨child, p⟩ ∧
      ReadsBack s t page.data p payload ∧ bt.rawIndexRecordCell i s.usableSize = .ok cell := by
  have hdata : bt.data = page.data := congrArg Page.data hholds.page
  have hlen : bt.data.length < 2 ^ 63 := by
    have := hwork.maximum
    rw [hdata, hholds.length]
    omega
  have husable : 4 < s.usableSize := lt_of_lt_of_le (by decide) hwork.minimum
  have hback := h.readsBack hslice nofun hlen husable hpayload
  refine ⟨bt, _, hholds.parse, indexCell_stored hoff hlen hpayload h hslice hkey, ?_,
    rawIndexRecordCell_stored hoff hlen hpayload h hslice hkey⟩
  rw [← hdata]
  -- leaf and interior pages split a payload in the same way
  cases hkey with
  | leaf kind =>
    rw [← hholds.pageType, kind]
    exact hback
  | interior kind =>
    rw [← hholds.pageType, kind]
    exact { hback with }

/-- A record on an index leaf. -/
theorem serializeIndexLeaf_readsBack {rcells : List Bytes}
    (hpage : serializeIndexLeaf s.wp.pageSize s.usableSize page.bodyOffset rcells headerPrefix
      = .ok page.data)
    (hcell : rcells[i]? = some cell)
    : ∃ bt p, BtreePage.parse page = .ok bt ∧ bt.indexCell i s.usableSize = .ok ⟨0, p⟩ ∧
      ReadsBack s .leafIndex page.data p payload ∧
      bt.rawIndexRecordCell i s.usableSize = .ok cell := by
  obtain ⟨bt, hholds⟩ := @serializeCells_leaf .leafIndex _ _ _ _ _ (hwork.bodyOffset_le page)
    hwork.usable_le hwork.usable_le_max _ rfl hpage
  have hpos : 0 < (encode payload.length).length := by
    rw [encode_length]
    exact len_pos _
  obtain ⟨off, hoff, -, hslice⟩ := hholds.cells.cell i cell hcell (h.ne_nil hpos)
  exact indexPage_readsBack hwork hpayload h hholds hoff (.leaf hholds.pageType) hslice

/-- A record behind a child pointer on an interior page. -/
theorem serializeIndexInterior_readsBack {cells : List InteriorEntry} {right child : UInt32}
    {full : Bytes}
    (hpage : serializeIndexInterior s.wp.pageSize s.usableSize page.bodyOffset cells right
      headerPrefix = .ok page.data)
    (hcell : cells[i]? = some (child, full, cell))
    : ∃ bt p, BtreePage.parse page = .ok bt ∧ bt.indexCell i s.usableSize = .ok ⟨child, p⟩ ∧
      ReadsBack s .interiorIndex page.data p payload ∧
      bt.rawIndexRecordCell i s.usableSize = .ok cell := by
  obtain ⟨buf, hbuf, hright⟩ := except_bind_eq_ok.mp hpage
  obtain ⟨bt, hholds⟩ := @serializeCells_interior .interiorIndex _ _ _ _ _ _
    (hwork.bodyOffset_le page) hwork.usable_le hwork.usable_le_max _ _ rfl hbuf hright
  obtain ⟨off, hoff, -, hslice⟩ := hholds.cells.cell i (u32ToBytes child ++ cell)
    (by rw [getElem?_map, hcell]; rfl) nofun
  obtain ⟨hpointer, hslice⟩ := slice_append_iff.mp hslice
  exact indexPage_readsBack hwork hpayload h hholds hoff
    (.interior hholds.pageType (be32_eq_some.mpr hpointer)) hslice

end

omit hpayload

theorem serializeLeaf_single {rowid : Int64}
    (h : Stored s .leafTable (rowVarints rowid payload) payload first pages cell)
    : ∃ buf, serializeLeaf s.wp.pageSize s.usableSize 0 [(rowid, cell)] none = .ok buf := by
  have hmin := hwork.minimum
  have hcell := h.length_cell_le nofun
  have hvarints := length_rowVarints_le rowid payload
  have hlocal : maxLocal .leafTable s.usableSize = s.usableSize - 35 := rfl
  refine serializeCells_ok (by decide) hwork.usable_le nofun ?_
  show 0 + 8 + 2 * 1 + (cell.length + 0) ≤ s.usableSize
  omega

/-- A single record fits on an empty leaf, and behind a child pointer on an interior page. -/
theorem serializeIndex_single
    (h : Stored s .leafIndex (encode payload.length) payload first pages cell)
    : (∃ buf, serializeIndexLeaf s.wp.pageSize s.usableSize 0 [cell] none = .ok buf) ∧
      ∀ child full right, ∃ buf, serializeIndexInterior s.wp.pageSize s.usableSize 0
        [(child, full, cell)] right none = .ok buf := by
  have hmin := hwork.minimum
  have hsize := hwork.usable_le
  have hcell := h.length_cell_le nofun
  have hvarints := len_le payload.length
  have hlocal : maxLocal .leafIndex s.usableSize = (s.usableSize - 12) * 64 / 255 - 23 := rfl
  rw [encode_length] at hcell
  refine ⟨serializeCells_ok (by decide) hsize nofun ?_, fun child full right => ?_⟩
  · show 0 + 8 + 2 * 1 + (cell.length + 0) ≤ s.usableSize
    omega
  obtain ⟨buf, hbuf⟩ := @serializeCells_ok 12 s.wp.pageSize s.usableSize 0
    [u32ToBytes child ++ cell] "index interior page overflow while serializing" 0x02 none
    (by decide) hsize nofun (by
      show 0 + 12 + 2 * 1 + ((u32ToBytes child ++ cell).length + 0) ≤ s.usableSize
      rw [length_append, u32ToBytes_length]
      omega)
  have hlen := (serializeCells_serialized (by decide) (by omega) hsize hbuf).length
  exact ⟨_, except_bind_eq_ok.mpr ⟨buf, hbuf, copyInto_eq_ok.mpr
    ⟨by rw [u32ToBytes_length]; omega, rfl⟩⟩⟩

end Placed

/-- Whatever the payload and the rowid, a cell that is built and placed on a page is read back:
the row or record, its payload, its raw bytes, and the overflow chain of the length that the split
demands. Building fails only when there is no page number left.
-/
theorem cell_roundTrip {s : PagerState} {used : Set UInt32} (h : Workspace s used) (rowid : Int64)
    (payload : Bytes) (hpayload : payload.length < 2 ^ 63)
    : Runs (buildLeafCell rowid payload) s
        (fun cell t =>
          (∃ buf, serializeLeaf t.wp.pageSize t.usableSize 0 [(rowid, cell)] none = .ok buf) ∧
          ∀ page cells headerPrefix i,
            serializeLeaf t.wp.pageSize t.usableSize page.bodyOffset cells headerPrefix
              = .ok page.data →
            cells[i]? = some (rowid, cell) →
            ∃ bt p, BtreePage.parse page = .ok bt ∧
              bt.tableLeafCell i t.usableSize = .ok ⟨rowid, p⟩ ∧
              ReadsBack t .leafTable page.data p payload ∧
              bt.rawTableLeafCell i t.usableSize = .ok cell)
        OutOfPages ∧
      Runs (buildIndexRcell payload) s
        (fun rcell t =>
          ((∃ buf, serializeIndexLeaf t.wp.pageSize t.usableSize 0 [rcell] none = .ok buf) ∧
            ∀ child full right, ∃ buf, serializeIndexInterior t.wp.pageSize t.usableSize 0
              [(child, full, rcell)] right none = .ok buf) ∧
          (∀ page rcells headerPrefix i,
            serializeIndexLeaf t.wp.pageSize t.usableSize page.bodyOffset rcells headerPrefix
              = .ok page.data →
            rcells[i]? = some rcell →
            ∃ bt p, BtreePage.parse page = .ok bt ∧ bt.indexCell i t.usableSize = .ok ⟨0, p⟩ ∧
              ReadsBack t .leafIndex page.data p payload ∧
              bt.rawIndexRecordCell i t.usableSize = .ok rcell) ∧
          ∀ page cells right headerPrefix i child full,
            serializeIndexInterior t.wp.pageSize t.usableSize page.bodyOffset cells right
              headerPrefix = .ok page.data →
            cells[i]? = some (child, full, rcell) →
            ∃ bt p, BtreePage.parse page = .ok bt ∧ bt.indexCell i t.usableSize = .ok ⟨child, p⟩ ∧
              ReadsBack t .interiorIndex page.data p payload ∧
              bt.rawIndexRecordCell i t.usableSize = .ok rcell)
        OutOfPages := by
  constructor
  · refine (buildCell_workspace h (t := .leafTable) nofun (rowVarints rowid payload)
      payload).mono (fun cell t ht => ?_) fun _ _ => id
    obtain ⟨first, pages, -, -, hwork, -, hstored⟩ := ht
    exact ⟨serializeLeaf_single hwork hstored, fun page cells headerPrefix i hpage hcell =>
      serializeLeaf_readsBack hwork hpayload hstored hpage hcell⟩
  refine (buildCell_workspace h (t := .leafIndex) nofun (encode payload.length)
    payload).mono (fun rcell t ht => ?_) fun _ _ => id
  obtain ⟨first, pages, -, -, hwork, -, hstored⟩ := ht
  exact ⟨serializeIndex_single hwork hstored, fun page rcells headerPrefix i hpage hcell =>
    serializeIndexLeaf_readsBack hwork hpayload hstored hpage hcell,
    fun page cells right headerPrefix i child full hpage hcell =>
      serializeIndexInterior_readsBack hwork hpayload hstored hpage hcell⟩

/-- In a new database with pages of 512 bytes a row of 1000 bytes is built and can be placed. -/
theorem cell_roundTrip_thousand
    : ∃ s payload, Workspace s {1} ∧ s.usableSize = 512 ∧ payload.length = 1000 ∧
      Runs (buildLeafCell 7 payload) s
        (fun cell t => ∃ buf,
          serializeLeaf t.wp.pageSize t.usableSize 0 [(7, cell)] none = .ok buf)
        OutOfPages := by
  obtain ⟨wp, hnew⟩ := createAutoVacuum_succeeds true false .none
    (show (512 : UInt32) ≤ 512 by decide) (by decide)
  obtain ⟨s, hlock, hwork⟩ := createAutoVacuum_workspace hnew (by decide)
  obtain ⟨-, hstart⟩ := createAutoVacuum_balanced hnew emptyVfs
  obtain ⟨-, hbal, -⟩ := hstart.acquire.ok hlock
  obtain ⟨payload, hlen⟩ : ∃ payload : Bytes, payload.length = 1000 :=
    ⟨replicate 1000 1, length_replicate⟩
  refine ⟨s, payload, hwork, hbal.usableSize, hlen, ?_⟩
  exact (cell_roundTrip hwork 7 payload (by rw [hlen]; decide)).1.mono (fun _ _ ht => ht.1)
    fun _ _ => id

-- Rows stored one after another

/-- A chain stays as it is while its pages are kept. -/
theorem OverflowChain.frame {u : PagerState} {data : Bytes}
    {kept : Set UInt32} (h : OverflowChain s first pages data) (hedit : Edited s u kept)
    (hkept : ∀ p ∈ pages, p ∈ kept) : OverflowChain u first pages data := by
  induction h with
  | nil => exact .nil
  | cons nonzero nonempty read link chunk tail ih =>
    rw [← hedit.usableSize] at chunk ih
    exact .cons nonzero nonempty ((hedit.frame _ (hkept _ mem_cons_self)).trans read) link chunk
      (ih fun p hp => hkept p (mem_cons_of_mem _ hp))

def buildRows (rows : List (Int64 × List Value)) : PagerM (List LeafCell) :=
  rows.mapM fun row => return (row.1, ← buildLeafCell row.1 (encodeRecord row.2))

/-- Every row is stored in the final state: a later row takes no page of an earlier one. -/
theorem buildRows_stored {used : Set UInt32} (h : Workspace s used)
    (rows : List (Int64 × List Value))
    : Runs (buildRows rows) s
      (fun cells u => Edited s u used ∧ (∃ used', Workspace u used') ∧ cells.length = rows.length
        ∧ ∀ (i : Nat) rowid values, rows[i]? = some (rowid, values) →
          ∃ cell first pages, cells[i]? = some (rowid, cell) ∧ Stored u .leafTable
            (rowVarints rowid (encodeRecord values)) (encodeRecord values) first pages cell)
      OutOfPages := by
  induction rows generalizing s used with
  | nil => exact ⟨.refl s used, ⟨used, h⟩, rfl, nofun⟩
  | cons row rows ih =>
    rw [buildRows, mapM_cons, bind_assoc]
    refine (buildCell_workspace (t := .leafTable) h nofun _ _).seq fun cell u hu => ?_
    obtain ⟨first, pages, -, -, hwork, hedit, hstored⟩ := hu
    refine (ih hwork).seq fun cells u' hu' => ?_
    obtain ⟨hedit', hwork', hlen, hrows⟩ := hu'
    refine ⟨hedit.trans (hedit'.mono Set.subset_union_left), hwork', congrArg (· + 1) hlen,
      fun i rowid values hi => ?_⟩
    cases i with
    | zero =>
      cases hi
      refine ⟨cell, first, pages, rfl, ?_, ?_⟩ <;> rw [hedit'.usableSize]
      · exact hstored.chain.frame hedit' fun _ => .inr
      · exact hstored.bytes
    | succ i => exact hrows i rowid values hi

/-- Every row is read from its cell of the page, through the overflow chain as well. -/
def ReadsRows (u : PagerState) (page : Page) (rows : List (Int64 × List Value)) : Prop :=
  ∀ i rowid values, rows[i]? = some (rowid, values) →
    ∃ bt p payload, BtreePage.parse page = .ok bt
      ∧ bt.tableLeafCell i u.usableSize = .ok ⟨rowid, p⟩
      ∧ readPayload u.source page.data p = .ok payload
      ∧ decodeRecord payload .utf8 = .ok values

/-- However many rows are stored one after another, a leaf page with their cells gives back every
row with its values. No page that was in use has changed.
-/
theorem rows_roundTrip {used : Set UInt32} (h : Workspace s used) (rows : List (Int64 × List Value))
    (hmax : ∀ row ∈ rows, (encodeRecord row.2).length ≤ isizeMax)
    : Runs (buildRows rows) s
      (fun cells u => (∀ n ∈ used, u.readPage n = s.readPage n) ∧ ∀ page headerPrefix,
        serializeLeaf u.wp.pageSize u.usableSize page.bodyOffset cells headerPrefix = .ok page.data
          → ReadsRows u page rows)
      OutOfPages := by
  refine (buildRows_stored h rows).mono (fun cells u hu => ?_) fun _ _ => id
  obtain ⟨hedit, ⟨used', hwork⟩, -, hrows⟩ := hu
  refine ⟨hedit.frame, fun page headerPrefix hpage i rowid values hrow => ?_⟩
  have hfits := hmax _ (mem_of_getElem? hrow)
  obtain ⟨cell, first, pages, hcell, hstored⟩ := hrows i _ _ hrow
  obtain ⟨bt, p, hparse, hread, hback, -⟩ := serializeLeaf_readsBack hwork
    (lt_of_le_of_lt hfits (by decide)) hstored hpage hcell
  exact ⟨bt, p, _, hparse, hread, hback.read, decodeRecord_encodeRecord hfits⟩

/-- Two rows that overflow from a page of 512 bytes. -/
def overflowingRows : List (Int64 × List Value) :=
  [(1, [.blob (replicate 480 1)]), (2, [.null, .blob (replicate 1100 2)])]

/-- In a new database the two rows fit on one page and are read back from it. -/
theorem rows_roundTrip_overflowing
    : ∃ s, Workspace s {1} ∧ Runs (buildRows overflowingRows) s
        (fun cells u => u.readPage 1 = s.readPage 1 ∧ ∃ page,
          serializeLeaf u.wp.pageSize u.usableSize page.bodyOffset cells none = .ok page.data
          ∧ ReadsRows u page overflowingRows)
        OutOfPages := by
  obtain ⟨wp, hnew⟩ := createAutoVacuum_succeeds true false .none
    (show (512 : UInt32) ≤ 512 by decide) (by decide)
  obtain ⟨s, hlock, hwork⟩ := createAutoVacuum_workspace hnew (by decide)
  obtain ⟨-, hstart⟩ := createAutoVacuum_balanced hnew emptyVfs
  obtain ⟨-, hbal, -⟩ := hstart.acquire.ok hlock
  have hmax : ∀ row ∈ overflowingRows, (encodeRecord row.2).length ≤ isizeMax := by
    decide +kernel
  have hrow₁ : overflowingRows[0]? = some (1, [.blob (replicate 480 1)]) := rfl
  have hrow₂ : overflowingRows[1]? = some (2, [.null, .blob (replicate 1100 2)]) := rfl
  have hcount : overflowingRows.length = 2 := rfl
  generalize overflowingRows = rows at *
  have hback := rows_roundTrip hwork rows hmax
  refine ⟨s, hwork, (hback.and (buildRows_stored hwork _)).mono ?_ fun _ _ h => h.1⟩
  rintro cells u ⟨⟨hkept, hread⟩, hedit, ⟨used', hwork'⟩, hlen, hstored⟩
  have husable : u.usableSize = 512 := hedit.usableSize.trans hbal.usableSize
  obtain ⟨cell₁, _, _, hcell₁, hstored₁⟩ := hstored 0 _ _ hrow₁
  obtain ⟨cell₂, _, _, hcell₂, hstored₂⟩ := hstored 1 _ _ hrow₂
  have hlen₁ : cell₁.length = 46 := by
    rw [hstored₁.length_cell nofun, husable]
    decide +kernel
  have hlen₂ : cell₂.length = 95 := by
    rw [hstored₂.length_cell nofun, husable]
    decide +kernel
  have hcells : cells = [(1, cell₁), (2, cell₂)] := by
    refine ext_getElem? fun i => ?_
    rcases i with _ | _ | i
    · exact hcell₁
    · exact hcell₂
    · exact getElem?_eq_none (by rw [hlen, hcount]; exact Nat.le_add_left 2 i)
  obtain ⟨buf, hbuf⟩ : ∃ buf, serializeLeaf u.wp.pageSize u.usableSize 0 cells none = .ok buf := by
    refine serializeCells_ok (by decide) hwork'.usable_le nofun ?_
    simp [hcells, hlen₁, hlen₂, husable]
  exact ⟨hkept 1 rfl, ⟨2, buf⟩, hbuf, hread ⟨2, buf⟩ none hbuf⟩

end GraphiteSql
