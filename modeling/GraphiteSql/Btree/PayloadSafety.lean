import GraphiteSql.Btree.PageSafety
import GraphiteSql.Pager.Open

/-! Reassembling a payload from pages with arbitrary bytes, and the whole of page parsing. The
declared length of a payload is reserved before anything is read, and two accesses of four bytes
are not checked: these are the places where a damaged page makes the reader panic.
-/

namespace GraphiteSql

open Lib List

variable {bt : BtreePage}

namespace BtreePage

theorem cellOffset_eq_ok {i off : Nat} (h : bt.cellOffset i = .ok off)
    : ∃ ptr : UInt16, be16 bt.data (bt.bodyOffset + bt.pageType.headerLen + 2 * i) = some ptr
      ∧ ptr.toNat = off ∧ off < bt.data.length := by
  unfold cellOffset at h
  dsimp only at h
  split at h
  · cases h
  split at h
  · cases h
  obtain ⟨ptr, hptr, h⟩ := except_bind_eq_ok.mp h
  split at h
  · cases h
  next hinside =>
  cases h
  exact ⟨ptr, beU16_ok.mp hptr, rfl, Nat.lt_of_not_le hinside⟩

/-- Every cell of an interior page begins four bytes before its end at the latest. -/
def PointerFits (bt : BtreePage) (i : Nat) : Prop :=
  ¬ bt.pageType.isLeaf → i < bt.numCells →
    ∀ ptr : UInt16, be16 bt.data (bt.bodyOffset + 12 + 2 * i) = some ptr →
      ptr.toNat < bt.data.length → ptr.toNat + 4 ≤ bt.data.length

theorem childPointerOffset_yields {page : Page} (h : bt.Parsed page) (i : Nat)
    : Yields (bt.childPointerOffset i) fun off => off < bt.data.length := by
  refine yields_check _ fun hinterior => ?_
  have hheader := h.header
  rw [PageType.headerLen_interior hinterior, ← h.data] at hheader
  split
  · show bt.bodyOffset + 8 < bt.data.length
    omega
  · exact bt.cellOffset_yields i

/-- Four bytes can be read at the returned offset exactly if they are there. -/
theorem childPointerOffset_access_iff {page : Page} (h : bt.Parsed page) (i : Nat)
    : (∀ off, bt.childPointerOffset i = .ok off → Yields (beU32 bt.data off) fun _ => True)
      ↔ bt.PointerFits i := by
  simp only [yields_beU32_iff]
  unfold childPointerOffset
  by_cases hleaf : bt.pageType.isLeaf
  · rw [if_pos hleaf]
    exact ⟨fun _ hinterior => absurd hleaf hinterior, fun _ off hoff => nomatch hoff⟩
  rw [if_neg hleaf]
  have hheader := h.header
  rw [PageType.headerLen_interior hleaf, ← h.data] at hheader
  by_cases hlast : bt.numCells ≤ i
  · rw [if_pos hlast]
    refine ⟨fun _ _ hi => absurd hi (Nat.not_lt.mpr hlast), fun _ off hoff => ?_⟩
    cases hoff
    exact hheader
  rw [if_neg hlast]
  constructor
  · intro hfits _ hi ptr hptr hinside
    refine hfits ptr.toNat ?_
    have hread := (slice_eq_some.mp (be16_eq_some.mp hptr)).1
    unfold cellOffset
    rw [if_neg hlast]
    rw [PageType.headerLen_interior hleaf, if_neg (by omega), beU16_ok.mpr hptr, except_ok_bind,
      if_neg (by omega)]
    rfl
  intro hfits off hoff
  obtain ⟨ptr, hptr, rfl, hinside⟩ := cellOffset_eq_ok hoff
  rw [PageType.headerLen_interior hleaf] at hptr
  exact hfits hleaf (Nat.lt_of_not_le hlast) ptr hptr hinside

end BtreePage

/-- The overflow pages that a payload of `totalLen` bytes is read from once `done` bytes are read,
from page `next` on.
-/
def overflowPages (src : PageSource) (totalLen : Nat)
    : (bound : Nat) → (next : UInt32) → (done : Nat) → List Bytes
  | 0, _, _ => []
  | bound + 1, next, done =>
      if next = 0 ∨ totalLen ≤ done then [] else
      match src.page next with
      | .error _ => []
      | .ok page =>
          let take := min (totalLen - done) (src.usableSize - 4)
          page.data :: (if page.data.length < 4 + take then []
            else overflowPages src totalLen bound ((be32 page.data 0).getD 0) (done + take))

def Payload.pages (p : Payload) (src : PageSource) : List Bytes :=
  overflowPages src p.totalLen (p.totalLen - p.localLen) p.overflow p.localLen

section Chains

variable {src : PageSource} (hsrc : ∀ n, Yields (src.page n) fun _ => True)
  (husable : 4 ≤ src.usableSize) {totalLen : Nat}

include hsrc husable

/-- Reading along a chain panics exactly at a page without room for the link. -/
theorem readOverflow_yields_iff (bound : Nat) (next : UInt32) (out : Bytes)
    : (Yields (readOverflow src totalLen bound next out) fun _ => True)
      ↔ ∀ b ∈ overflowPages src totalLen bound next out.length, 4 ≤ b.length := by
  induction bound generalizing next out with
  | zero => simp [readOverflow, overflowPages, Yields]
  | succ bound ih =>
    unfold readOverflow overflowPages
    by_cases hdone : next = 0 ∨ totalLen ≤ out.length
    · rw [if_pos hdone, if_pos hdone]
      simp [Yields]
    rw [if_neg hdone, if_neg hdone]
    have hsub : usizeSub src.usableSize 4 = .ok (src.usableSize - 4) := if_pos husable
    cases hpage : src.page next with
    | error e =>
      have hreturned := (hsrc next).error hpage
      simp [Yields, hreturned]
    | ok page =>
      dsimp only
      rw [except_ok_bind]
      by_cases hlink : 4 ≤ page.data.length
      · obtain ⟨nextPtr, hnext⟩ := be32_isSome (show 0 + 4 ≤ page.data.length by omega)
        rw [beU32_ok.mpr hnext, except_ok_bind, hsub, except_ok_bind, hnext]
        by_cases hsmall : page.data.length < 4 + min (totalLen - out.length) (src.usableSize - 4)
        · rw [if_pos hsmall, if_pos hsmall]
          simp [Yields, hlink, Error.isReturned]
        have hlen : (out ++ (page.data.drop 4).take
            (min (totalLen - out.length) (src.usableSize - 4))).length
            = out.length + min (totalLen - out.length) (src.usableSize - 4) := by
          rw [length_append, length_take, length_drop]
          omega
        rw [if_neg hsmall, if_neg hsmall, ih, hlen]
        simp [hlink]
      · rw [beU32_panics (by omega)]
        refine ⟨(fun h => nomatch h), fun h => ?_⟩
        exact absurd (h page.data mem_cons_self) hlink

/-- Reassembling a payload is safe exactly if its declared length can be reserved and every
overflow page has room for the link.
-/
theorem readPayload_yields_iff {data : Bytes} {p : Payload} (hdata : data.length < 2 ^ 63)
    (hinside : p.Inside data)
    : (Yields (readPayload src data p) fun out => out.length = p.totalLen)
      ↔ p.totalLen < 2 ^ 63 ∧ ∀ b ∈ p.pages src, 4 ≤ b.length := by
  obtain ⟨head, hhead⟩ := slice_isSome hinside.local_
  have hlen := slice_length hhead
  have hlocal := hinside.local_
  unfold readPayload withCapacity
  by_cases hfits : p.totalLen < 2 ^ 63
  · rw [if_pos hfits, except_ok_bind]
    have hadd : usizeAdd p.localOffset p.localLen = .ok (p.localOffset + p.localLen) :=
      if_pos (by omega)
    rw [hadd, except_ok_bind, hhead, orPanic_bind]
    have hexact : ∀ out : Bytes, Yields (if out.length ≠ p.totalLen
        then throw (.corrupt "overflow chain shorter than payload") else pure out)
        fun out => out.length = p.totalLen :=
      fun out => yields_check _ not_not.mp
    rw [yields_bind_iff hexact, readOverflow_yields_iff hsrc husable, hlen]
    exact ⟨fun h => ⟨hfits, h⟩, fun h => h.2⟩
  · rw [if_neg hfits]
    exact ⟨(fun h => nomatch h), fun h => absurd h.1 hfits⟩

end Chains

/-- No accessor panics, and the ranges that they return are inside the page. -/
structure BtreePage.Total (bt : BtreePage) (i usable : Nat) : Prop where
  childPointer : Yields (bt.childPointer i) fun _ => True
  tableInteriorKey : Yields (bt.tableInteriorKey i) fun _ => True
  tableLeafCell : Yields (bt.tableLeafCell i usable) fun cell => cell.payload.Inside bt.data
  rawTableLeafCell : Yields (bt.rawTableLeafCell i usable) fun bytes =>
    ∃ off len, slice bt.data off len = some bytes
  indexCell : Yields (bt.indexCell i usable) fun cell => cell.payload.Inside bt.data
  rawIndexRecordCell : Yields (bt.rawIndexRecordCell i usable) fun bytes =>
    ∃ off len, slice bt.data off len = some bytes
  childPointerOffset : Yields (bt.childPointerOffset i) fun off => off < bt.data.length
  cellOverflowOffset : Yields (bt.cellOverflowOffset i usable) fun off =>
    ∀ at_, off = some at_ → at_ + 4 ≤ bt.data.length

/-- `p` is the payload of cell `i`. -/
inductive BtreePage.HasPayload (bt : BtreePage) (i usable : Nat) (p : Payload) : Prop where
  | table {cell : TableLeafCell} (parsed : bt.tableLeafCell i usable = .ok cell)
      (payload : cell.payload = p)
  | index {cell : IndexCell} (parsed : bt.indexCell i usable = .ok cell)
    (payload : cell.payload = p)

theorem DatabaseHeader.parse_usableSize {buf : Bytes} {h : DatabaseHeader}
    (hparse : DatabaseHeader.parse buf = .ok h) : 4 ≤ h.usableSize ∧ h.usableSize ≤ 65536 := by
  have hvalid := (DatabaseHeader.parse_ok hparse).1
  have hreserved := h.reservedSpace.toNat_lt
  have hmin := hvalid.minimum
  have hmax := hvalid.maximum
  unfold DatabaseHeader.usableSize
  omega

theorem BtreePage.HasPayload.inside {i usable : Nat} {p : Payload}
    (h : bt.HasPayload i usable p) (htotal : bt.Total i usable) : p.Inside bt.data := by
  cases h with
  | table parsed payload => exact payload ▸ htotal.tableLeafCell.ok parsed
  | index parsed payload => exact payload ▸ htotal.indexCell.ok parsed

/-- Page parsing on arbitrary bytes: the accessors return errors or ranges inside the page. Reading
four bytes at a returned child pointer offset, and reassembling a payload, is safe exactly if the
bytes are there and the declared length can be reserved.
-/
theorem pageParsing_total_iff {buf : Bytes} {h : DatabaseHeader}
    (hheader : DatabaseHeader.parse buf = .ok h) (page : Page) (hpage : page.data.length < 2 ^ 63)
    : (Yields (BtreePage.parse page) fun bt => bt.Parsed page)
      ∧ ∀ bt, BtreePage.parse page = .ok bt → ∀ i,
          bt.Total i h.usableSize
          ∧ ((∀ off, bt.childPointerOffset i = .ok off → Yields (beU32 bt.data off) fun _ => True)
              ↔ bt.PointerFits i)
          ∧ ∀ src : PageSource, (∀ n, Yields (src.page n) fun _ => True) →
              src.usableSize = h.usableSize → ∀ p, bt.HasPayload i h.usableSize p →
              ((Yields (readPayload src bt.data p) fun out => out.length = p.totalLen)
                ↔ p.totalLen < 2 ^ 63 ∧ ∀ b ∈ p.pages src, 4 ≤ b.length) := by
  obtain ⟨hmin, hmax⟩ := DatabaseHeader.parse_usableSize hheader
  refine ⟨BtreePage.parse_yields page, fun bt hbt i => ?_⟩
  have hparsed := (BtreePage.parse_yields page).ok hbt
  have hdata : bt.data.length < 2 ^ 63 := by
    rw [hparsed.data]
    exact hpage
  have htotal : bt.Total i h.usableSize :=
    ⟨bt.childPointer_yields i, bt.tableInteriorKey_yields i, bt.tableLeafCell_yields i hdata hmax,
      bt.rawTableLeafCell_yields i hdata hmax, bt.indexCell_yields i hdata hmax,
      bt.rawIndexRecordCell_yields i hdata hmax, BtreePage.childPointerOffset_yields hparsed i,
      bt.cellOverflowOffset_yields i hdata hmax⟩
  refine ⟨htotal, BtreePage.childPointerOffset_access_iff hparsed i,
    fun src hsrc husable p hp => ?_⟩
  exact readPayload_yields_iff hsrc (husable ▸ hmin) hdata (hp.inside htotal)

/-- A leaf page with one cell that declares a payload of 2^64 - 1 bytes. -/
def hugePage : Page where
  number := 2
  data := [13, 0, 0, 0, 1, 0, 0, 0, 0, 10] ++ List.replicate 9 255 ++ zeroPage 493

/-- An interior page with one cell at its last byte. -/
def edgePage : Page where
  number := 3
  data := [5, 0, 0, 0, 1, 0, 0, 0, 0, 0, 0, 2, 1, 255] ++ zeroPage 498

def noPages : PageSource where
  page n := .error (.corrupt s!"page {n} out of range")
  usableSize := 512

/-- A leaf page with one row of 600 bytes, of which 508 are on page 3. -/
def spilledPage : Page where
  number := 2
  data := [13, 0, 0, 0, 1, 0, 0, 0, 0, 10, 0x84, 0x58, 1] ++ zeroPage 92 ++ [0, 0, 0, 3]
    ++ zeroPage 403

def zeroPages : PageSource where
  page n := .ok ⟨n, zeroPage 512⟩
  usableSize := 512

/-- The row of that leaf page is read through its overflow page. -/
theorem pageParsing_total_iff_spilled
    : ∃ bt p, BtreePage.parse spilledPage = .ok bt
      ∧ bt.HasPayload 0 (newHeader 512 .none).usableSize p
      ∧ Yields (readPayload zeroPages bt.data p) fun out => out.length = p.totalLen := by
  have hheader : DatabaseHeader.parse (newHeader 512 .none).toBytes
      = .ok (newHeader 512 .none) := by
    decide +kernel
  have hbt : BtreePage.parse spilledPage = .ok ⟨spilledPage, .leafTable, 0, 1, 0⟩ := by
    decide +kernel
  have hcell : BtreePage.tableLeafCell ⟨spilledPage, .leafTable, 0, 1, 0⟩ 0
      (newHeader 512 .none).usableSize = .ok ⟨1, ⟨600, 13, 92, 3⟩⟩ := by
    decide +kernel
  have hlinks : ∀ b ∈ (Payload.mk 600 13 92 3).pages zeroPages, 4 ≤ b.length := by decide +kernel
  have hlen : spilledPage.data.length < 2 ^ 63 := by decide +kernel
  generalize spilledPage = page at hbt hcell hlen ⊢
  have hpayload := BtreePage.HasPayload.table hcell rfl
  obtain ⟨-, -, hread⟩ := (pageParsing_total_iff hheader page hlen).2 _ hbt 0
  exact ⟨_, _, hbt, hpayload,
    (hread zeroPages (fun n => trivial) rfl _ hpayload).mpr ⟨by decide, hlinks⟩⟩

/-- The payload is reserved before anything is read, and the child pointer is read past the end. -/
theorem pageParsing_panics
    : (do let bt ← BtreePage.parse hugePage
          let cell ← bt.tableLeafCell 0 512
          readPayload noPages bt.data cell.payload) = .error (.panic "capacity overflow")
      ∧ (do let bt ← BtreePage.parse edgePage
            beU32 bt.data (← bt.childPointerOffset 0)) = .error (.panic "index out of bounds") := by
  decide +kernel

end GraphiteSql
