import GraphiteSql.Btree.CellLayout
import GraphiteSql.Btree.Overflow

/-! Cells read back: what the writer splits between the page and the overflow chain, the
reader puts together again.
-/

namespace GraphiteSql

open Lib List Varint

variable {s : PagerState} {first : UInt32} {pages : List UInt32} {t : PageType}
  {varints payload cell : Bytes} {bt : BtreePage} {off : Nat}

def localLen (t : PageType) (usable p : Nat) : Nat :=
  (payloadSplit t usable p).1

def spills (t : PageType) (usable p : Nat) : Bool :=
  (payloadSplit t usable p).2

theorem payloadSplit_eq (t : PageType) (usable p : Nat)
    : payloadSplit t usable p = (localLen t usable p, spills t usable p) := rfl

/-- A payload spills exactly when some of it is not local. -/
theorem localLen_cases (t : PageType) (ht : t ≠ .interiorTable) (usable p : Nat)
    : if spills t usable p then localLen t usable p < p else localLen t usable p = p := by
  have hspill (maxLocal minLocal k : Nat) (hmin : minLocal ≤ maxLocal) :
      let r := if p ≤ maxLocal then (p, false) else if k ≤ maxLocal then (k, true)
        else (minLocal, true)
      if r.2 = true then r.1 < p else r.1 = p := by
    split_ifs <;> simp_all <;> omega
  cases t with
  | interiorTable => exact absurd rfl ht
  | leafTable => exact hspill _ _ _ (by omega)
  | leafIndex => exact hspill _ _ _ (by omega)
  | interiorIndex => exact hspill _ _ _ (by omega)

-- Stored payloads

/-- `cell` stores `payload` behind its varints: the local part, and the chain of overflow pages
that starts at `first` for the rest.
-/
structure Stored (s : PagerState) (t : PageType) (varints payload : Bytes) (first : UInt32)
    (pages : List UInt32) (cell : Bytes) : Prop where
  chain : OverflowChain s first pages (payload.drop (localLen t s.usableSize payload.length))
  bytes : cell = varints ++ payload.take (localLen t s.usableSize payload.length) ++
    if spills t s.usableSize payload.length then u32ToBytes first else []

theorem OverflowChain.eq_zero (h : OverflowChain s first pages []) : first = 0 ∧ pages = [] := by
  cases h with
  | nil => exact ⟨rfl, rfl⟩
  | cons _ nonempty => exact absurd rfl nonempty

namespace Stored

variable {u : PagerState}

/-- The length of the local part. -/
theorem length_take (ht : t ≠ .interiorTable)
    : (payload.take (localLen t s.usableSize payload.length)).length
      = localLen t s.usableSize payload.length := by
  have hcases := localLen_cases t ht s.usableSize payload.length
  rw [List.length_take]
  split at hcases <;> omega

theorem length_cell (h : Stored s t varints payload first pages cell) (ht : t ≠ .interiorTable)
    : cell.length = varints.length + localLen t s.usableSize payload.length +
      if spills t s.usableSize payload.length then 4 else 0 := by
  rw [h.bytes, length_append, length_append, length_take ht]
  split <;> rfl

end Stored

/-- A cell is built on fresh overflow pages, or there is no page number left. -/
theorem buildCell_workspace {used : Set UInt32} (h : Workspace s used)
    (ht : t ≠ .interiorTable) (varints payload : Bytes)
    : Runs (buildCell t varints payload) s
      (fun cell u => ∃ first, ∃ pages : List UInt32, pages.Nodup ∧ (∀ p ∈ pages, p ∉ used) ∧
        Workspace u (used ∪ {p | p ∈ pages}) ∧ Edited s u used ∧
        Stored u t varints payload first pages cell)
      OutOfPages := by
  have hcases := localLen_cases t ht s.usableSize payload.length
  rw [buildCell, runs_get_bind, payloadSplit_eq]
  dsimp only
  split
  · next hspills =>
    rw [if_pos hspills] at hcases
    have hrest : payload.drop (localLen t s.usableSize payload.length) ≠ [] :=
      ne_nil_of_length_pos (by rw [length_drop]; omega)
    refine (writeOverflowChain_workspace h hrest).bind (fun first u hu => ?_) fun _ _ => id
    obtain ⟨pages, hnodup, hnew, hwork, hedit, hchain⟩ := hu
    refine ⟨first, pages, hnodup, hnew, hwork, hedit, ?_, ?_⟩
    · rw [hedit.usableSize]
      exact hchain
    · rw [hedit.usableSize, hspills, if_pos rfl]
  · next hkeeps =>
    rw [if_neg hkeeps] at hcases
    refine ⟨0, [], .nil, nofun, h.mono fun p hp => hp.resolve_right not_mem_nil, .refl s used,
      ?_, ?_⟩
    · rw [hcases, drop_length]
      exact .nil
    · rw [if_neg hkeeps, append_nil]

theorem sliceFrom_bind {β : Type} {data : Bytes} {off : Nat} {f : Bytes → Result β}
    (h : off ≤ data.length) : (sliceFrom data off >>= f) = f (data.drop off) := by
  rw [sliceFrom, if_pos h, except_ok_bind]

def storedPayload (t : PageType) (usable off : Nat) (varints payload : Bytes) (first : UInt32)
    : Payload where
  totalLen := payload.length
  localOffset := off + varints.length
  localLen := localLen t usable payload.length
  overflow := first

section Reading

variable (h : Stored s t varints payload first pages cell)
  (hcell : slice bt.data off cell.length = some cell) (ht : t ≠ .interiorTable)

include h hcell ht

/-- The three parts of a stored cell on its page. -/
theorem Stored.parts
    : slice bt.data off varints.length = some varints ∧
      slice bt.data (off + varints.length) (localLen t s.usableSize payload.length)
        = some (payload.take (localLen t s.usableSize payload.length)) ∧
      (spills t s.usableSize payload.length = true →
        be32 bt.data (off + varints.length + localLen t s.usableSize payload.length)
          = some first) ∧
      (spills t s.usableSize payload.length = false → first = 0) := by
  rw [h.bytes, slice_append_iff, slice_append_iff, length_append, Stored.length_take ht] at hcell
  obtain ⟨⟨hvarints, hlocal⟩, hpointer⟩ := hcell
  refine ⟨hvarints, hlocal, fun hspills => ?_, fun hkeeps => ?_⟩
  · rw [hspills, ← Nat.add_assoc] at hpointer
    exact be32_eq_some.mpr hpointer
  have hcases := localLen_cases t ht s.usableSize payload.length
  rw [hkeeps] at hcases
  have hchain := h.chain
  rw [hcases, drop_length] at hchain
  exact hchain.eq_zero.1

variable (hdata : bt.data.length < 2 ^ 63)

include hdata

/-- The reader locates the payload where the writer put it. -/
theorem payloadAt_stored
    (hsplit : payloadSplit bt.pageType s.usableSize payload.length
      = payloadSplit t s.usableSize payload.length)
    : bt.payloadAt (off + varints.length) payload.length s.usableSize
      = .ok (storedPayload t s.usableSize off varints payload first) := by
  obtain ⟨hvarints, hlocal, hpointer, hzero⟩ := h.parts hcell ht
  have hlen := h.length_cell ht
  have hfits := (slice_eq_some.mp hcell).1
  unfold BtreePage.payloadAt
  rw [hsplit, payloadSplit_eq]
  dsimp only
  rw [usizeAdd_bind (by omega)]
  cases hspills : spills t s.usableSize payload.length with
  | true =>
    rw [hspills, if_pos rfl] at hlen
    rw [if_pos rfl, usizeAdd_bind (by omega), if_neg (by omega), beU32_ok.mpr (hpointer hspills)]
    rfl
  | false =>
    rw [if_neg Bool.false_ne_true, usizeAdd_bind (by omega), if_neg (by omega), hzero hspills]
    rfl

theorem readPayload_stored (husable : 4 < s.usableSize) (hpayload : payload.length < 2 ^ 63)
    : readPayload s.source bt.data (storedPayload t s.usableSize off varints payload first)
      = .ok payload := by
  obtain ⟨hvarints, hlocal, hpointer, hzero⟩ := h.parts hcell ht
  have hfits := (slice_eq_some.mp hlocal).1
  have hjoin := take_append_drop (localLen t s.usableSize payload.length) payload
  have hlens := congrArg length hjoin
  rw [length_append] at hlens
  unfold readPayload storedPayload
  dsimp only
  rw [withCapacity, if_pos hpayload, except_ok_bind, usizeAdd_bind (by omega), hlocal,
    orPanic_bind,
    h.chain.readOverflow husable hlens (by omega), except_ok_bind, hjoin, if_neg (by simp)]
  rfl

end Reading

-- Cells of tables and indexes

def rowVarints (rowid : Int64) (payload : Bytes) : Bytes :=
  Varint.encode payload.length ++ Varint.encodeI64 rowid

theorem length_rowVarints (rowid : Int64)
    : (rowVarints rowid payload).length
      = len payload.length + len rowid.toUInt64.toNat := by
  rw [rowVarints, length_append, encode_length, encodeI64, encode_length]

theorem cellBytes_ok {msg : String} (hcell : slice bt.data off cell.length = some cell)
    (hdata : bt.data.length < 2 ^ 63) : bt.cellBytes msg off cell.length = .ok cell := by
  have hfits := (slice_eq_some.mp hcell).1
  rw [BtreePage.cellBytes, usizeAdd_bind (by omega), if_neg (by omega), hcell]
  rfl

theorem decode_length (hpayload : payload.length < 2 ^ 63)
    (h : slice bt.data off (encode payload.length).length
      = some (encode payload.length))
    : off + len payload.length ≤ bt.data.length ∧
      decode (bt.data.drop off) = some (payload.length, len payload.length) := by
  have hfits := (slice_eq_some.mp h).1
  rw [encode_length] at hfits
  rw [drop_of_slice h, decode_encode (by omega)]
  exact ⟨hfits, rfl⟩

theorem decode_rowVarints {rowid : Int64} (hpayload : payload.length < 2 ^ 63)
    (h : slice bt.data off (rowVarints rowid payload).length = some (rowVarints rowid payload))
    : off + len payload.length + len rowid.toUInt64.toNat ≤ bt.data.length ∧
      decode (bt.data.drop off) = some (payload.length, len payload.length) ∧
      decodeI64 (bt.data.drop (off + len payload.length))
        = some (rowid, len rowid.toUInt64.toNat) := by
  have hfits := (slice_eq_some.mp h).1
  rw [length_rowVarints, ← Nat.add_assoc] at hfits
  obtain ⟨hhead, hrest⟩ := slice_append_iff.mp h
  rw [encode_length] at hrest
  refine ⟨hfits, (decode_length hpayload hhead).2, ?_⟩
  rw [drop_of_slice hrest, decodeI64_encodeI64]

/-- Where the record part of an index cell begins: after the child pointer on interior pages. -/
inductive KeyAt (bt : BtreePage) (off : Nat) : (child : UInt32) → (keyOff : Nat) → Prop where
  | leaf (kind : bt.pageType = .leafIndex) : KeyAt bt off 0 off
  | interior {child : UInt32} (kind : bt.pageType = .interiorIndex)
      (pointer : be32 bt.data off = some child) : KeyAt bt off child (off + 4)

section Cells

variable {i : Nat} (hoff : bt.cellOffset i = .ok off) (hdata : bt.data.length < 2 ^ 63)
  (hpayload : payload.length < 2 ^ 63)

include hoff hdata hpayload

section Table

variable {rowid : Int64}
  (h : Stored s .leafTable (rowVarints rowid payload) payload first pages cell)
  (hcell : slice bt.data off cell.length = some cell) (htype : bt.pageType = .leafTable)

include h hcell htype

/-- A stored row parses to its rowid and its payload. -/
theorem tableLeafCell_stored
    : bt.tableLeafCell i s.usableSize = .ok ⟨rowid,
      storedPayload .leafTable s.usableSize off (rowVarints rowid payload) payload first⟩ := by
  obtain ⟨hvarints, -, -, -⟩ := h.parts hcell nofun
  obtain ⟨hfits, hplen, hrowid⟩ := decode_rowVarints hpayload hvarints
  have hat := payloadAt_stored h hcell nofun hdata (by rw [htype])
  rw [length_rowVarints, ← Nat.add_assoc] at hat
  unfold BtreePage.tableLeafCell
  rw [if_neg (not_not.mpr htype), hoff, except_ok_bind, sliceFrom_bind (by omega),
    hplen, orCorrupt_bind]
  dsimp only
  rw [usizeAdd_bind (by omega), sliceFrom_bind (by omega), hrowid,
    orCorrupt_bind]
  rw [usizeAdd_bind (by omega), hat]
  rfl

/-- The raw cell of a stored row is the one that was built. -/
theorem rawTableLeafCell_stored : bt.rawTableLeafCell i s.usableSize = .ok cell := by
  obtain ⟨hvarints, -, -, -⟩ := h.parts hcell nofun
  obtain ⟨hfits, hplen, hrowid⟩ := decode_rowVarints hpayload hvarints
  have hcellFits := (slice_eq_some.mp hcell).1
  have hcellLen := h.length_cell nofun
  rw [length_rowVarints] at hcellLen
  unfold BtreePage.rawTableLeafCell
  rw [hoff, except_ok_bind, sliceFrom_bind (by omega), hplen, orCorrupt_bind]
  dsimp only
  rw [usizeAdd_bind (by omega), sliceFrom_bind (by omega), hrowid,
    orCorrupt_bind, htype, payloadSplit_eq]
  dsimp only
  rw [usizeAdd_bind (by omega), usizeAdd_bind (by omega), usizeAdd_bind (by omega), ← hcellLen]
  exact cellBytes_ok hcell hdata

end Table

section Index

variable {child : UInt32} {keyOff : Nat}
  (h : Stored s .leafIndex (encode payload.length) payload first pages cell)
  (hcell : slice bt.data keyOff cell.length = some cell) (hkey : KeyAt bt off child keyOff)

include h hcell hkey

/-- A stored index record parses to its child and its payload. -/
theorem indexCell_stored
    : bt.indexCell i s.usableSize = .ok ⟨child,
      storedPayload .leafIndex s.usableSize keyOff (encode payload.length) payload first⟩ := by
  obtain ⟨hvarints, -, -, -⟩ := h.parts hcell nofun
  obtain ⟨hfits, hplen⟩ := decode_length hpayload hvarints
  have hat := payloadAt_stored h hcell nofun hdata
  rw [encode_length] at hat
  -- what follows once the child pointer is read is the same on both kinds of pages
  have hrest : payloadSplit bt.pageType s.usableSize payload.length
        = payloadSplit .leafIndex s.usableSize payload.length →
      bt.indexCellAt s.usableSize child keyOff = .ok ⟨child,
        storedPayload .leafIndex s.usableSize keyOff (encode payload.length) payload first⟩ := by
    intro hsplit
    rw [BtreePage.indexCellAt, if_neg (by omega), hplen, orCorrupt_bind]
    dsimp only
    rw [usizeAdd_bind (by omega), hat hsplit]
    rfl
  unfold BtreePage.indexCell
  cases hkey with
  | leaf kind =>
    rw [if_neg (by rw [kind]; exact nofun), hoff, except_ok_bind,
      if_neg (by rw [kind]; exact nofun)]
    exact hrest (by rw [kind])
  | interior kind pointer =>
    have hread : beU32Checked bt.data off = .ok child := by
      rw [beU32Checked, pointer]
      rfl
    rw [if_neg (by rw [kind]; exact nofun), hoff, except_ok_bind, if_pos kind, hread,
      except_ok_bind,
      usizeAdd_bind (by omega)]
    exact hrest (by rw [kind]; rfl)

/-- The raw record part of a stored index cell is the one that was built. -/
theorem rawIndexRecordCell_stored : bt.rawIndexRecordCell i s.usableSize = .ok cell := by
  obtain ⟨hvarints, -, -, -⟩ := h.parts hcell nofun
  obtain ⟨hfits, hplen⟩ := decode_length hpayload hvarints
  have hcellFits := (slice_eq_some.mp hcell).1
  have hcellLen := h.length_cell nofun
  rw [encode_length] at hcellLen
  have hrest : payloadSplit bt.pageType s.usableSize payload.length
        = payloadSplit .leafIndex s.usableSize payload.length →
      bt.rawRecordAt s.usableSize keyOff = .ok cell := by
    intro hsplit
    rw [BtreePage.rawRecordAt, if_neg (by omega), hplen, orCorrupt_bind]
    dsimp only
    rw [hsplit, payloadSplit_eq]
    dsimp only
    rw [usizeAdd_bind (by omega), usizeAdd_bind (by omega), ← hcellLen]
    exact cellBytes_ok hcell hdata
  unfold BtreePage.rawIndexRecordCell
  cases hkey with
  | leaf kind =>
    rw [if_neg (by rw [kind]; exact nofun), hoff, except_ok_bind,
      if_neg (by rw [kind]; exact nofun)]
    exact hrest (by rw [kind])
  | interior kind pointer =>
    rw [if_neg (by rw [kind]; exact nofun), hoff, except_ok_bind, if_pos kind,
      usizeAdd_bind (by omega)]
    exact hrest (by rw [kind]; rfl)

end Index

end Cells

end GraphiteSql
