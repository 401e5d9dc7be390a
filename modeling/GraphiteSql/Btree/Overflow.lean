import GraphiteSql.Btree.Serialize
import GraphiteSql.Pager.Workspace

/-! Building cells, and the overflow chains of payloads that do not fit on their page. -/

namespace GraphiteSql

open Lib List Nat

def divCeil (a b : Nat) : Nat :=
  (a + b - 1) / b

def allocatePages : (n : Nat) → PagerM (List UInt32)
  | 0 => return []
  | n + 1 => do
      let page ← allocatePage
      return page :: (← allocatePages n)

def writeLinks (cap pageSize : Nat) : List UInt32 → Bytes → PagerM Unit
  | [], _ => return ()
  | page :: pages, data => do
      let buf ← copyInto (zeroPage pageSize) 0 (u32ToBytes (pages.headD 0))
      let buf ← copyInto buf 4 (data.take cap)
      writePage page buf
      writeLinks cap pageSize pages (data.drop cap)

def writeOverflowChain (data : Bytes) : PagerM UInt32 := do
  let cap ← usizeSub (← get).usableSize 4
  if cap = 0 then throw (.panic "attempt to divide by zero") else
  -- all pages are allocated first, so that each one's successor is known
  let pages ← allocatePages (divCeil data.length cap)
  let s ← get
  writeLinks cap (s.usableSize + s.wp.header.reservedSpace.toNat) pages data
  orPanic "index out of bounds" pages.head?

/-- The bytes of a cell: its varints, the local part of the payload, and the first page of the
overflow chain if the payload spills.
-/
def buildCell (pageType : PageType) (varints payload : Bytes) : PagerM Bytes := do
  let (localLen, hasOverflow) := payloadSplit pageType (← get).usableSize payload.length
  let cell := varints ++ payload.take localLen
  if hasOverflow then
    let first ← writeOverflowChain (payload.drop localLen)
    return cell ++ u32ToBytes first
  else return cell

def buildLeafCell (rowid : Int64) (payload : Bytes) : PagerM Bytes :=
  buildCell .leafTable (Varint.encode payload.length ++ Varint.encodeI64 rowid) payload

/-- The cell of an index record, without a child pointer; the split is that of a leaf also for
the cells of interior pages.
-/
def buildIndexRcell (record : Bytes) : PagerM Bytes :=
  buildCell .leafIndex (Varint.encode record.length) record

/-- The pages of a chain and the bytes they hold, from page `first` on. -/
inductive OverflowChain (s : PagerState) : (first : UInt32) → List UInt32 → Bytes → Prop where
  | nil : OverflowChain s 0 [] []
  | cons {page next : UInt32} {pages : List UInt32} {data b : Bytes} (nonzero : page ≠ 0)
      (nonempty : data ≠ []) (read : s.readPage page = .ok b) (link : be32 b 0 = some next)
      (chunk : slice b 4 (min (s.usableSize - 4) data.length)
        = some (data.take (s.usableSize - 4)))
      (tail : OverflowChain s next pages (data.drop (s.usableSize - 4)))
      : OverflowChain s page (page :: pages) data

theorem divCeil_zero {b : Nat} (hb : 0 < b) : divCeil 0 b = 0 := by
  exact div_eq_of_lt (by omega)

theorem divCeil_pos {a b : Nat} (hb : 0 < b) (ha : 0 < a)
    : divCeil a b = divCeil (a - b) b + 1 := by
  unfold divCeil
  rcases lt_or_ge b a with hlt | hge
  · rw [show a + b - 1 = a - b + b - 1 + b by omega, add_div_right _ hb]
  · rw [show a + b - 1 = a - 1 + b by omega, add_div_right _ hb,
      div_eq_of_lt (show a - 1 < b by omega), div_eq_of_lt (show a - b + b - 1 < b by omega)]

namespace OverflowChain

variable {s t : PagerState} {first : UInt32} {pages : List UInt32} {data : Bytes}

theorem length_pages (h : OverflowChain s first pages data) (husable : 4 < s.usableSize)
    : pages.length = divCeil data.length (s.usableSize - 4) := by
  induction h with
  | nil => exact (divCeil_zero (by omega)).symm
  | cons nonzero nonempty read link chunk tail ih =>
    rw [length_cons, ih, length_drop,
      divCeil_pos (by omega) (length_pos_of_ne_nil nonempty)]

/-- Following a chain reads its bytes. -/
theorem readOverflow (h : OverflowChain s first pages data) (husable : 4 < s.usableSize)
    {totalLen bound : Nat} {out : Bytes} (htotal : out.length + data.length = totalLen)
    (hbound : data.length ≤ bound)
    : readOverflow s.source totalLen bound first out = .ok (out ++ data) := by
  induction h generalizing out bound with
  | nil =>
    rw [append_nil]
    cases bound with
    | zero => rfl
    | succ bound =>
      rfl
  | @cons page next pages data b nonzero nonempty read link chunk tail ih =>
    have hpos := length_pos_of_ne_nil nonempty
    obtain ⟨bound, rfl⟩ : ∃ n, bound = n + 1 := ⟨bound - 1, by omega⟩
    have hpage : s.source.page page = .ok { number := page, data := b } := by
      show (s.readPage page).map _ = _
      rw [read]
      rfl
    have hsub : usizeSub s.source.usableSize 4 = .ok (s.usableSize - 4) :=
      if_pos (le_of_lt husable)
    obtain ⟨hfits, htake⟩ := slice_eq_some.mp chunk
    rw [GraphiteSql.readOverflow, if_neg (by rw [not_or]; exact ⟨nonzero, by omega⟩), hpage,
      except_ok_bind, beU32_ok.mpr link, except_ok_bind, hsub, except_ok_bind]
    dsimp only
    have hmin : min (totalLen - out.length) (s.usableSize - 4)
        = min (s.usableSize - 4) data.length := by omega
    rw [hmin, if_neg (by omega), htake]
    have hlen : (out ++ data.take (s.usableSize - 4)).length
        + (data.drop (s.usableSize - 4)).length = totalLen := by
      simp only [length_append, length_take, length_drop]
      omega
    rw [ih hlen (by rw [length_drop]; omega), append_assoc, take_append_drop]

end OverflowChain

section Writing

variable {s : PagerState} {used : Set UInt32}

/-- Fresh pages, all different, or there is no page number left. -/
theorem allocatePages_workspace (h : Workspace s used) (n : Nat)
    : Runs (allocatePages n) s
      (fun pages t => pages.length = n ∧ pages.Nodup ∧ (∀ p ∈ pages, p ∉ used) ∧
        Workspace t (used ∪ {p | p ∈ pages}) ∧ Edited s t used)
      OutOfPages := by
  induction n generalizing s used with
  | zero =>
    refine ⟨rfl, .nil, nofun, h.mono fun p hp => ?_, .refl s used⟩
    exact hp.resolve_right not_mem_nil
  | succ n ih =>
    refine (allocatePage_workspace h).bind (fun page t ht => ?_) fun _ _ => id
    obtain ⟨hfresh, hwork, hedit, -⟩ := ht
    refine (ih hwork).bind (fun pages u hu => ?_) fun _ _ => id
    obtain ⟨hlen, hnodup, hnew, hwork', hedit'⟩ := hu
    refine ⟨by rw [length_cons, hlen], nodup_cons.mpr ⟨fun hin => ?_, hnodup⟩, ?_, ?_,
      hedit.trans (hedit'.mono (Set.subset_insert _ _))⟩
    · exact hnew page hin (Set.mem_insert _ _)
    · intro p hp hin
      rcases mem_cons.mp hp with rfl | hp
      · exact hfresh hin
      · exact hnew p hp (Set.mem_insert_of_mem _ hin)
    refine hwork'.mono fun p hp => ?_
    rcases hp with hp | hp
    · exact .inl (Set.mem_insert_of_mem _ hp)
    · rcases mem_cons.mp hp with rfl | hp
      · exact .inl (Set.mem_insert _ _)
      · exact .inr hp

/-- The image of one overflow page. -/
theorem linkPage_ok {pageSize cap : Nat} {next : UInt32} {data : Bytes} (hcap : 4 + cap ≤ pageSize)
    : ∃ buf buf', copyInto (zeroPage pageSize) 0 (u32ToBytes next) = .ok buf ∧
      copyInto buf 4 (data.take cap) = .ok buf' ∧ buf'.length = pageSize ∧
      be32 buf' 0 = some next ∧ slice buf' 4 (min cap data.length) = some (data.take cap) := by
  have hfit : 0 + (u32ToBytes next).length ≤ (zeroPage pageSize).length := by
    rw [u32ToBytes_length, zeroPage_length]
    omega
  have hlen := overwrite_length hfit
  rw [zeroPage_length] at hlen
  have hfit' : 4 + (data.take cap).length
      ≤ (overwrite (zeroPage pageSize) 0 (u32ToBytes next)).length := by
    rw [length_take]
    omega
  refine ⟨_, _, copyInto_eq_ok.mpr ⟨hfit, rfl⟩, copyInto_eq_ok.mpr ⟨hfit', rfl⟩,
    (overwrite_length hfit').trans hlen, ?_, ?_⟩
  · rw [be32_eq_some]
    exact slice_overwrite_self hfit
  · rw [← length_take]
    exact slice_overwrite_self hfit'

/-- The allocated pages are filled and linked. -/
theorem writeLinks_chain {pages : List UInt32} {data : Bytes} (h : Workspace s used)
    (hpages : ∀ p ∈ pages, p ∈ used) (hnodup : pages.Nodup)
    (hlen : pages.length = divCeil data.length (s.usableSize - 4))
    : ∃ t, writeLinks (s.usableSize - 4) s.wp.pageSize pages data s = .ok () t ∧
      Workspace t used ∧ (∀ kept, (∀ p ∈ pages, p ∉ kept) → Edited s t kept) ∧
      OverflowChain t (pages.headD 0) pages data := by
  have hmin := h.minimum
  have hsize := h.usable_le
  induction pages generalizing s data with
  | nil =>
    obtain rfl : data = [] := by
      by_contra hne
      rw [divCeil_pos (by omega) (length_pos_of_ne_nil hne)] at hlen
      cases hlen
    exact ⟨s, rfl, h, fun kept _ => .refl s kept, .nil⟩
  | cons page pages ih =>
    have hpos : 0 < data.length := by
      by_contra hzero
      rw [show data.length = 0 by omega, divCeil_zero (by omega)] at hlen
      cases hlen
    rw [length_cons, divCeil_pos (by omega) hpos, Nat.add_right_cancel_iff,
      ← length_drop] at hlen
    have hpage := hpages page mem_cons_self
    obtain ⟨hnotin, hnodup⟩ := nodup_cons.mp hnodup
    obtain ⟨buf, buf', hlink, hchunk, hbuf, hnext, hdata⟩ := @linkPage_ok s.wp.pageSize
      (s.usableSize - 4) (pages.headD 0) data (by omega)
    obtain ⟨t, hwrite, hwork, hread, hedit⟩ := writePage_workspace h hpage hbuf
    have husable := (hedit ∅ (Set.notMem_empty _)).usableSize
    have hpageSize := (hedit ∅ (Set.notMem_empty _)).pageSize
    obtain ⟨u, hrest, hwork', hedit', hchain⟩ := ih hwork
      (fun p hp => hpages p (mem_cons_of_mem _ hp)) hnodup (by rw [husable]; exact hlen)
      (by rw [husable]; exact hmin) (by rw [husable, hpageSize]; exact hsize)
    have hlast := hedit' {page} fun p hp hin => hnotin (Set.mem_singleton_iff.mp hin ▸ hp)
    have husable' := hlast.usableSize.trans husable
    rw [husable, hpageSize] at hrest
    refine ⟨u, ?_, hwork', fun kept hkept => ?_, ?_⟩
    · rw [writeLinks, hlink, lift_ok_bind, hchunk, lift_ok_bind, estate_bind_ok hwrite]
      exact hrest
    · exact (hedit kept (hkept page mem_cons_self)).trans
        (hedit' kept fun p hp => hkept p (mem_cons_of_mem _ hp))
    refine .cons (fun hzero => h.zero_notMem (hzero ▸ hpage)) (ne_nil_of_length_pos hpos)
      ((hlast.frame page rfl).trans hread) hnext (by rw [husable']; exact hdata) ?_
    rw [husable']
    exact husable ▸ hchain

/-- A chain is written on fresh pages, or there is no page number left. -/
theorem writeOverflowChain_workspace {data : Bytes} (h : Workspace s used) (hdata : data ≠ [])
    : Runs (writeOverflowChain data) s
      (fun first t => ∃ pages : List UInt32, pages.Nodup ∧ (∀ p ∈ pages, p ∉ used) ∧
        Workspace t (used ∪ {p | p ∈ pages}) ∧ Edited s t used ∧
        OverflowChain t first pages data)
      OutOfPages := by
  have hmin := h.minimum
  have hsub : usizeSub s.usableSize 4 = .ok (s.usableSize - 4) := if_pos (by omega)
  rw [writeOverflowChain, runs_get_bind, hsub, lift_ok_bind, if_neg (by omega)]
  refine (allocatePages_workspace h _).bind (fun pages t ht => ?_) fun _ _ => id
  obtain ⟨hlen, hnodup, hnew, hwork, hedit⟩ := ht
  rw [runs_get_bind, hwork.pageSize]
  obtain ⟨u, hrun, hwork', hedit', hchain⟩ := writeLinks_chain hwork (fun p hp => .inr hp) hnodup
    (by rw [hedit.usableSize]; exact hlen)
  rw [hedit.usableSize] at hrun
  rw [divCeil_pos (by omega) (length_pos_of_ne_nil hdata)] at hlen
  cases pages with
  | nil => cases hlen
  | cons page pages =>
    rw [runs_bind]
    refine .of_ok hrun ⟨page :: pages, hnodup, hnew, hwork', ?_, hchain⟩
    exact hedit.trans (hedit' used hnew)

end Writing

end GraphiteSql
