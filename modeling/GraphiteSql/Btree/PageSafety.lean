import GraphiteSql.Btree.Cursor

/-! Parsing of pages with arbitrary bytes. The accessors of a page check every range before they
read it: they return an error value or ranges inside the page.
-/

namespace GraphiteSql

open Lib Nat List Varint

variable {n off : Nat} {buf data : Bytes}

namespace Varint

theorem decodeFrom_reads {left result i v : Nat} (h : decodeFrom left result i buf = some (v, n))
    : i < n ∧ n ≤ i + buf.length ∧ n ≤ i + left + 1 := by
  induction buf generalizing left result i with
  | nil => cases left <;> cases h
  | cons byte rest ih =>
    cases left with
    | zero =>
      cases h
      simp
    | succ left =>
      unfold decodeFrom at h
      split at h
      · cases h
        simp
      · have := ih h
        simp only [length_cons]
        omega

/-- A decoded varint has between one and nine bytes, all of them in the buffer. -/
theorem decode_reads {v : Nat} (h : decode buf = some (v, n))
    : 0 < n ∧ n ≤ buf.length ∧ n ≤ 9 := by
  have := decodeFrom_reads h
  omega

theorem decodeI64_reads {v : Int64} (h : decodeI64 buf = some (v, n))
    : 0 < n ∧ n ≤ buf.length ∧ n ≤ 9 := by
  obtain ⟨⟨w, m⟩, hdecode, heq⟩ := Option.map_eq_some_iff.mp h
  cases heq
  exact decode_reads hdecode

end Varint

section Accesses

variable {α β : Type} {post : β → Prop}

theorem yields_usizeAdd {a b : Nat} {f : Nat → Result β} (hfits : a + b < 2 ^ 64)
    (h : Yields (f (a + b)) post) : Yields (usizeAdd a b >>= f) post := by
  rwa [usizeAdd, if_pos hfits]

/-- A number that `decode` reads from the bytes at `off`. -/
theorem yields_decode {decode : Bytes → Option (α × Nat)} {msg : String} {f : α × Nat → Result β}
    (hreads : ∀ {buf v n}, decode buf = some (v, n) → 0 < n ∧ n ≤ buf.length ∧ n ≤ 9)
    (h : ∀ v n, 0 < n ∧ n ≤ data.length - off ∧ n ≤ 9 → Yields (f (v, n)) post)
    : Yields (orCorrupt msg (decode (data.drop off)) >>= f) post := by
  refine .bind (yields_orCorrupt _ fun p hp => hp) fun ⟨v, n⟩ hv => h v n ?_
  rw [← length_drop]
  exact hreads hv

theorem yields_sliceFrom {f : Bytes → Result β} (hoff : off ≤ data.length)
    (h : Yields (f (data.drop off)) post) : Yields (sliceFrom data off >>= f) post := by
  rwa [sliceFrom, if_pos hoff]

theorem yields_beU16 (hoff : off + 2 ≤ data.length)
    : Yields (beU16 data off) fun _ => True := by
  obtain ⟨v, hv⟩ := be16_isSome hoff
  exact yields_orPanic _ hv trivial

theorem yields_beU32 (hoff : off + 4 ≤ data.length)
    : Yields (beU32 data off) fun _ => True := by
  obtain ⟨v, hv⟩ := be32_isSome hoff
  exact yields_orPanic _ hv trivial

theorem yields_beU32_iff
    : (Yields (beU32 data off) fun _ => True) ↔ off + 4 ≤ data.length := by
  refine ⟨fun h => ?_, yields_beU32⟩
  by_contra hoff
  rw [beU32_panics (Nat.lt_of_not_le hoff)] at h
  cases h

theorem yields_byteAt (hoff : off < data.length)
    : Yields (byteAt data off) fun _ => True := by
  exact yields_orPanic _ (getElem?_eq_getElem hoff) trivial

end Accesses

/-- The part of a payload that is kept on the page fits the usable size. -/
theorem payloadSplit_local_le (t : PageType) (usable p : Nat)
    : (payloadSplit t usable p).1 ≤ usable := by
  unfold payloadSplit
  dsimp only
  split <;> (try split) <;> (try split) <;> dsimp only <;> omega

/-- The local part of a payload lies inside the page, with its overflow pointer if it has one. -/
structure Payload.Inside (p : Payload) (data : Bytes) : Prop where
  local_ : p.localOffset + p.localLen ≤ data.length
  pointer : p.overflow ≠ 0 → p.localOffset + p.localLen + 4 ≤ data.length

/-- What every parsed page satisfies. -/
structure BtreePage.Parsed (bt : BtreePage) (page : Page) : Prop where
  data : bt.data = page.data
  header : bt.bodyOffset + bt.pageType.headerLen ≤ page.data.length
  cells : bt.numCells < 2 ^ 16

theorem PageType.headerLen_interior {t : PageType} (h : ¬ t.isLeaf) : t.headerLen = 12 := by
  unfold PageType.headerLen
  rw [if_neg h]

theorem yields_fromByte (b : UInt8) : Yields (PageType.fromByte b) fun _ => True := by
  unfold PageType.fromByte
  split
  all_goals trivial

namespace BtreePage

theorem parse_yields (page : Page) : Yields (parse page) fun bt => bt.Parsed page := by
  refine yields_check _ fun hsmall => ?_
  refine (yields_byteAt (by omega)).seq fun _ => ?_
  refine (yields_fromByte _).seq fun pageType => ?_
  refine yields_check _ fun hheader => ?_
  have hmin := pageType.headerLen_ge
  refine (yields_beU16 (by omega)).seq fun n => ?_
  split
  · exact ⟨rfl, Nat.le_of_not_lt hheader, n.toNat_lt⟩
  · next hinterior =>
    have hlen := PageType.headerLen_interior hinterior
    exact (yields_beU32 (by omega)).seq fun _ => ⟨rfl, Nat.le_of_not_lt hheader, n.toNat_lt⟩

section Cells

variable (bt : BtreePage) (i : Nat)

theorem cellOffset_yields : Yields (bt.cellOffset i) fun off => off < bt.data.length := by
  refine yields_check _ fun _ => yields_check _ fun hptr => ?_
  refine (yields_beU16 (by omega)).seq fun off => ?_
  exact yields_check _ Nat.lt_of_not_le

theorem childPointer_yields : Yields (bt.childPointer i) fun _ => True := by
  refine yields_check _ fun _ => ?_
  split
  · trivial
  · refine (bt.cellOffset_yields i).bind fun off _ => ?_
    exact yields_orCorrupt _ fun _ _ => trivial

theorem tableInteriorKey_yields : Yields (bt.tableInteriorKey i) fun _ => True := by
  refine yields_check _ fun _ => (bt.cellOffset_yields i).bind fun off _ => ?_
  refine yields_check _ fun _ => ?_
  exact .seq (yields_orCorrupt _ fun _ _ => trivial) fun _ => trivial

theorem cellBytes_yields (msg : String) {len : Nat} (hfits : off + len < 2 ^ 64)
    : Yields (bt.cellBytes msg off len) fun bytes => slice bt.data off len = some bytes := by
  refine yields_usizeAdd hfits (yields_check _ fun hinside => ?_)
  obtain ⟨bytes, hbytes⟩ := slice_isSome (show off + len ≤ bt.data.length by omega)
  exact yields_orPanic _ hbytes hbytes

variable {usable : Nat} (hdata : bt.data.length < 2 ^ 63) (husable : usable ≤ 65536)

include hdata husable

/-- A payload that begins inside the page. -/
theorem payloadAt_yields {payloadStart : Nat} (total : Nat) (hstart : payloadStart ≤ bt.data.length)
    : Yields (bt.payloadAt payloadStart total usable) fun p =>
      p.Inside bt.data ∧ p.totalLen = total := by
  have hlocal := payloadSplit_local_le bt.pageType usable total
  unfold payloadAt
  dsimp only
  refine yields_usizeAdd (by omega) (yields_usizeAdd (by split <;> omega) ?_)
  refine yields_check _ fun hfits => ?_
  have hinside := Nat.le_of_not_lt hfits
  cases hover : (payloadSplit bt.pageType usable total).2 with
  | true =>
    rw [hover, if_pos rfl] at hinside
    refine (yields_beU32 hinside).seq fun overflow => ?_
    exact ⟨⟨le_trans (le_add_right _ 4) hinside, fun _ => hinside⟩, rfl⟩
  | false =>
    exact ⟨⟨le_trans (le_add_right _ _) hinside, absurd rfl⟩, rfl⟩

theorem tableLeafCell_yields
    : Yields (bt.tableLeafCell i usable) fun cell => cell.payload.Inside bt.data := by
  refine yields_check _ fun _ => (bt.cellOffset_yields i).bind fun off hoff => ?_
  refine yields_sliceFrom (le_of_lt hoff) (yields_decode decode_reads fun plen n1 hread => ?_)
  refine yields_usizeAdd (by omega) (yields_sliceFrom (by omega) ?_)
  refine yields_decode decodeI64_reads fun rowid n2 hread' => yields_usizeAdd (by omega) ?_
  exact (bt.payloadAt_yields hdata husable plen (by omega)).bind fun p hp => hp.1

theorem rawTableLeafCell_yields
    : Yields (bt.rawTableLeafCell i usable) fun bytes =>
      ∃ off len, slice bt.data off len = some bytes := by
  refine yields_check _ fun _ => (bt.cellOffset_yields i).bind fun off hoff => ?_
  refine yields_sliceFrom (le_of_lt hoff) (yields_decode decode_reads fun plen n1 hread => ?_)
  refine yields_usizeAdd (by omega) (yields_sliceFrom (by omega) ?_)
  refine yields_decode decodeI64_reads fun rowid n2 hread' => ?_
  have hlocal := payloadSplit_local_le bt.pageType usable plen
  dsimp only
  refine yields_usizeAdd (by omega) (yields_usizeAdd (by omega) ?_)
  refine yields_usizeAdd (by split <;> omega) ?_
  refine (bt.cellBytes_yields _ ?_).mono fun bytes hbytes => ⟨off, _, hbytes⟩
  split <;> omega

theorem rawIndexRecordCell_yields
    : Yields (bt.rawIndexRecordCell i usable) fun bytes =>
      ∃ off len, slice bt.data off len = some bytes := by
  refine yields_check _ fun _ => (bt.cellOffset_yields i).bind fun off hoff => ?_
  have hrest : ∀ keyOff, keyOff ≤ off + 4 → Yields (bt.rawRecordAt usable keyOff) fun bytes =>
      ∃ off len, slice bt.data off len = some bytes := by
    intro keyOff hkey
    refine yields_check _ fun _ => ?_
    refine yields_decode decode_reads fun plen n1 hread => ?_
    have hlocal := payloadSplit_local_le bt.pageType usable plen
    dsimp only
    refine yields_usizeAdd (by omega) (yields_usizeAdd (by split <;> omega) ?_)
    refine (bt.cellBytes_yields _ ?_).mono fun bytes hbytes => ⟨keyOff, _, hbytes⟩
    split <;> omega
  split
  · exact yields_usizeAdd (by omega) (hrest _ (le_refl _))
  · exact hrest off (by omega)

theorem indexCell_yields
    : Yields (bt.indexCell i usable) fun cell => cell.payload.Inside bt.data := by
  refine yields_check _ fun _ => (bt.cellOffset_yields i).bind fun off hoff => ?_
  have hrest : ∀ leftChild keyOff, keyOff ≤ off + 4 →
      Yields (bt.indexCellAt usable leftChild keyOff) fun cell => cell.payload.Inside bt.data := by
    intro leftChild keyOff hkey
    refine yields_check _ fun hinside => ?_
    refine yields_decode decode_reads fun plen n1 hread => yields_usizeAdd (by omega) ?_
    exact (bt.payloadAt_yields hdata husable plen (by omega)).bind fun p hp => hp.1
  split
  · refine .seq (yields_orCorrupt _ fun _ _ => trivial) fun child => ?_
    exact yields_usizeAdd (by omega) (hrest child _ (le_refl _))
  · exact hrest 0 off (by omega)

theorem cellOverflowOffset_yields
    : Yields (bt.cellOverflowOffset i usable) fun off =>
      ∀ at_, off = some at_ → at_ + 4 ≤ bt.data.length := by
  have hlocate : ∀ p : Payload, p.Inside bt.data → ∀ at_,
      (if p.overflow = 0 then none else some (p.localOffset + p.localLen)) = some at_ →
      at_ + 4 ≤ bt.data.length := by
    intro p hp at_ heq
    split at heq
    · cases heq
    · next hover =>
      cases heq
      exact hp.pointer hover
  unfold cellOverflowOffset
  split
  · exact (bt.tableLeafCell_yields i hdata husable).bind fun cell hcell => hlocate _ hcell
  · exact (bt.indexCell_yields i hdata husable).bind fun cell hcell => hlocate _ hcell
  · exact (bt.indexCell_yields i hdata husable).bind fun cell hcell => hlocate _ hcell
  · exact fun at_ heq => nomatch heq

end Cells

end BtreePage

end GraphiteSql
