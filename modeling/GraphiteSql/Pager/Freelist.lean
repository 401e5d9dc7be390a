import GraphiteSql.Pager.LockRules

/-! The freelist as the pages store it: a chain of trunk pages, each with the free pages it lists.
Under the write lock, allocating and freeing a page change the chain by that page.
-/

namespace GraphiteSql

open Lib List Nat UInt32 PagerState

variable {s t : PagerState} {trunk next leaf count : UInt32}
  {rest chain : List (UInt32 × List UInt32)} {pages leaves : List UInt32} {b : Bytes}

/-- Storing an integer that fits on the page. -/
theorem put32_stores (buf : Bytes) (off : Nat) (v : UInt32) (h : off + 4 ≤ buf.length)
    : ∃ buf', put32 buf off v = .ok buf' ∧ buf'.length = buf.length ∧ be32 buf' off = some v
      ∧ ∀ off', off' + 4 ≤ off ∨ off + 4 ≤ off' → be32 buf' off' = be32 buf off' := by
  have hfits : off + (u32ToBytes v).length ≤ buf.length := by
    exact h
  refine ⟨overwrite buf off (u32ToBytes v), ?_, overwrite_length hfits, ?_, fun off' hoff => ?_⟩
  · unfold put32 patch
    rw [if_pos hfits]
    rfl
  · rw [be32_eq_some]
    exact slice_overwrite_self hfits
  · unfold be32
    rw [slice_overwrite_disjoint hfits (by rw [u32ToBytes_length]; omega)]

/-- `b` is a trunk page with these leaves, followed by `next`. -/
structure IsTrunk (b : Bytes) (next : UInt32) (leaves : List UInt32) : Prop where
  next : be32 b 0 = some next
  count : be32 b 4 = some (.ofNat leaves.length)
  leaf : ∀ i v, leaves[i]? = some v → be32 b (8 + 4 * i) = some v

/-- The trunks of the chain that starts at a page, each with its leaves. -/
inductive Trunks (s : PagerState) : UInt32 → List (UInt32 × List UInt32) → Prop where
  | nil : Trunks s 0 []
  | cons {trunk next : UInt32} {leaves : List UInt32} {rest : List (UInt32 × List UInt32)}
      {b : Bytes} (page : trunk ≠ 0) (read : s.readPage trunk = .ok b)
      (isTrunk : IsTrunk b next leaves) (room : leaves.length ≤ s.maxLeaves)
      (tail : Trunks s next rest)
      : Trunks s trunk ((trunk, leaves) :: rest)

def chainPages (chain : List (UInt32 × List UInt32)) : List UInt32 :=
  chain.flatMap fun t => t.1 :: t.2

@[simp]
theorem chainPages_cons (trunk : UInt32) (leaves : List UInt32) (rest : List (UInt32 × List UInt32))
    : chainPages ((trunk, leaves) :: rest) = trunk :: (leaves ++ chainPages rest) := rfl

/-- The freelist of a pager is the given chain, without a page twice, and the header counts it. -/
structure Freelist (s : PagerState) (chain : List (UInt32 × List UInt32)) : Prop where
  trunks : Trunks s s.wp.header.freelistTrunk chain
  nodup : (chainPages chain).Nodup
  count : s.wp.header.freelistCount.toNat = (chainPages chain).length

/-- The leaf count of a trunk does not wrap. -/
theorem Freelist.leafCount (h : Freelist s ((trunk, leaves) :: rest))
    : (UInt32.ofNat leaves.length).toNat = leaves.length := by
  have hcount := h.count
  rw [chainPages_cons, length_cons, length_append] at hcount
  have hlt := s.wp.header.freelistCount.toNat_lt
  refine toNat_ofNat_of_lt' ?_
  simp only [UInt32.size]
  omega

/-- A chain stands while its trunk pages read the same. -/
theorem Trunks.congr
    (h : Trunks s trunk chain) (hread : ∀ n ∈ chainPages chain, t.readPage n = s.readPage n)
    (hroom : t.maxLeaves = s.maxLeaves)
    : Trunks t trunk chain := by
  induction h with
  | nil => exact .nil
  | cons page read isTrunk room _ ih =>
    refine .cons page ?_ isTrunk (hroom ▸ room) (ih fun n hn => ?_)
    · rw [hread _ mem_cons_self, read]
    · exact hread n (mem_append_right _ hn)

theorem Trunks.eq_zero (h : Trunks s trunk []) : trunk = 0 := by
  cases h
  rfl

/-- The first trunk of a chain and what follows it. -/
theorem Trunks.head {first : UInt32} (h : Trunks s first ((trunk, leaves) :: rest))
    : first = trunk ∧ trunk ≠ 0 ∧ ∃ b next, s.readPage trunk = .ok b ∧ IsTrunk b next leaves
      ∧ leaves.length ≤ s.maxLeaves ∧ Trunks s next rest := by
  cases h with
  | cons page read isTrunk room tail => exact ⟨rfl, page, _, _, read, isTrunk, room, tail⟩

/-- When the allocator looks at the freelist. -/
theorem Freelist.ne_nil_iff (h : Freelist s chain)
    : chain ≠ [] ↔ 0 < s.wp.header.freelistCount ∧ s.wp.header.freelistTrunk ≠ 0 := by
  cases chain with
  | nil => simp [h.trunks.eq_zero]
  | cons head rest =>
    obtain ⟨htrunk, hpage, -⟩ := h.trunks.head
    refine ⟨fun _ => ⟨?_, htrunk ▸ hpage⟩, fun _ => cons_ne_nil _ _⟩
    rw [lt_iff_toNat_lt, h.count]
    exact succ_pos _

/-- One more leaf at the end of a trunk. -/
theorem IsTrunk.push (h : IsTrunk b next leaves)
    (page : UInt32) (hroom : 8 + 4 * (leaves.length + 1) ≤ b.length)
    : ∃ b1 b2, put32 b (8 + 4 * leaves.length) page = .ok b1
      ∧ put32 b1 4 (.ofNat leaves.length + 1) = .ok b2 ∧ b2.length = b.length
      ∧ IsTrunk b2 next (leaves ++ [page]) := by
  obtain ⟨b1, hput1, hlen1, hself1, hother1⟩ := put32_stores b (8 + 4 * leaves.length) page
    (by omega)
  obtain ⟨b2, hput2, hlen2, hself2, hother2⟩ := put32_stores b1 4 (.ofNat leaves.length + 1)
    (by omega)
  refine ⟨b1, b2, hput1, hput2, hlen2.trans hlen1, ?_, ?_, fun i v hv => ?_⟩
  · rw [hother2 0 (by omega), hother1 0 (by omega), h.next]
  · rw [hself2]
    simp
  rw [hother2 _ (by omega)]
  rcases lt_or_ge i leaves.length with hi | hi
  · rw [hother1 _ (by omega)]
    exact h.leaf i v (by rwa [getElem?_append_left hi] at hv)
  rw [getElem?_append_right hi] at hv
  have hzero : i - leaves.length = 0 := by
    have hlt := (List.getElem?_eq_some_iff.mp hv).1
    simp only [length_singleton] at hlt
    omega
  rw [hzero] at hv
  rw [show i = leaves.length by omega, hself1]
  exact hv

theorem IsTrunk.pop (h : IsTrunk b next (leaves ++ [leaf])) (hroom : 8 ≤ b.length)
    : ∃ b', put32 b 4 (.ofNat (leaves.length + 1) - 1) = .ok b' ∧ b'.length = b.length
      ∧ be32 b (8 + 4 * leaves.length) = some leaf ∧ IsTrunk b' next leaves := by
  obtain ⟨b', hput, hlen, hself, hother⟩ := put32_stores b 4
    (.ofNat (leaves.length + 1) - 1) (by omega)
  refine ⟨b', hput, hlen, h.leaf _ _ (by simp), ?_, ?_, fun i v hv => ?_⟩
  · rw [hother 0 (by omega), h.next]
  · rw [hself]
    simp
  · rw [hother _ (by omega)]
    refine h.leaf i v ?_
    rwa [List.getElem?_append_left (List.getElem?_eq_some_iff.mp hv).1]

-- Staging

/-- A staged page is read back, and the others are read as before. -/
theorem readPage_insert (s : PagerState) (header : DatabaseHeader) (n : UInt32) (b : Bytes)
    (pageCount : UInt32) (m : UInt32)
    : (s.restage header (s.wp.overlay.insert n b) pageCount).readPage m
      = if n = m then .ok b else s.readPage m := by
  unfold PagerState.readPage PagerState.restage
  rw [Std.TreeMap.getElem?_insert]
  by_cases hn : n = m
  · rw [if_pos (by simp [hn]), if_pos hn]
  · rw [if_neg (by simpa using hn), if_neg hn]
    rfl

theorem readPage_ok {n : UInt32} (h : s.readPage n = .ok b)
    : readPage n s = .ok b s := by
  unfold readPage
  rw [estate_get_bind, h]
  rfl

theorem readPage_error {n : UInt32} {e : Error} (h : s.readPage n = .error e)
    : readPage n s = .error e s := by
  unfold readPage
  rw [estate_get_bind, h]
  rfl

/-- Under the write lock a page of the right size is just staged. -/
theorem writePage_locked (locked : .reserved ≤ s.wp.held) (n : UInt32)
    (hb : b.length = s.wp.pageSize)
    : writePage n b s
      = .ok () (s.restage s.wp.header (s.wp.overlay.insert n b) s.wp.pageCount) := by
  unfold writePage
  rw [estate_get_bind, if_neg (not_not.mpr hb), estate_bind_ok (acquireWriteIntent_held locked)]
  rfl

def PagerState.Paged (s : PagerState) : Prop :=
  ∀ n b, s.readPage n = .ok b → b.length = s.wp.pageSize

/-- `t` differs from `s` by its freelist head and by what `pages` hold. -/
structure FreelistEdit (s t : PagerState) (pages : List UInt32) : Prop where
  shape : ∃ trunk count overlay, t = s.restage
    { s.wp.header with freelistTrunk := trunk, freelistCount := count } overlay s.wp.pageCount
  frame : ∀ m, m ∉ pages → t.readPage m = s.readPage m
  paged : s.Paged → t.Paged
  staged : ∀ m, s.wp.overlay.contains m = true → t.wp.overlay.contains m = true

namespace FreelistEdit

variable (h : FreelistEdit s t pages)

include h

theorem held : t.wp.held = s.wp.held := by
  obtain ⟨_, _, _, rfl⟩ := h.shape
  rfl

theorem pageSize : t.wp.pageSize = s.wp.pageSize := by
  obtain ⟨_, _, _, rfl⟩ := h.shape
  rfl

theorem pageCount : t.wp.pageCount = s.wp.pageCount := by
  obtain ⟨_, _, _, rfl⟩ := h.shape
  rfl

theorem usableSize : t.usableSize = s.usableSize := by
  obtain ⟨_, _, _, rfl⟩ := h.shape
  rfl

theorem autoVacuumOn : t.autoVacuumOn = s.autoVacuumOn := by
  obtain ⟨_, _, _, rfl⟩ := h.shape
  rfl

theorem maxLeaves : t.maxLeaves = s.maxLeaves := by
  unfold PagerState.maxLeaves
  rw [h.usableSize]

theorem isReservedLayoutPage (n : UInt32)
    : t.isReservedLayoutPage n = s.isReservedLayoutPage n := by
  obtain ⟨_, _, _, rfl⟩ := h.shape
  rfl

theorem wal : t.wp.wal = s.wp.wal := by
  obtain ⟨_, _, _, rfl⟩ := h.shape
  rfl

end FreelistEdit

theorem FreelistEdit.refl (s : PagerState) : FreelistEdit s s [] where
  shape := ⟨_, _, _, rfl⟩
  frame _ _ := rfl
  paged h := h
  staged _ h := h

section

variable (h : FreelistEdit s t pages)

include h

theorem FreelistEdit.mono {pages' : List UInt32} (hsub : pages ⊆ pages')
    : FreelistEdit s t pages' :=
  { h with frame := fun m hm => h.frame m fun hin => hm (hsub hin) }

/-- Staging one more page. -/
theorem FreelistEdit.stage
    (n : UInt32) (hb : b.length = t.wp.pageSize) (trunk count : UInt32)
    : FreelistEdit s (t.restage
        { t.wp.header with freelistTrunk := trunk, freelistCount := count }
        (t.wp.overlay.insert n b) t.wp.pageCount) (n :: pages) where
  shape := by
    obtain ⟨_, _, _, rfl⟩ := h.shape
    exact ⟨_, _, _, rfl⟩
  frame m hm := by
    rw [mem_cons, not_or] at hm
    rw [readPage_insert, if_neg (Ne.symm hm.1), h.frame m hm.2]
  paged hs m c hc := by
    rw [readPage_insert] at hc
    split at hc
    · cases hc
      exact hb
    · exact h.paged hs m c hc
  staged m hm := by
    rw [restage, Std.TreeMap.contains_insert, h.staged m hm, Bool.or_true]

theorem FreelistEdit.trans {u : PagerState} {pages' : List UInt32} (h' : FreelistEdit t u pages')
    : FreelistEdit s u (pages ++ pages') where
  shape := by
    obtain ⟨_, _, _, rfl⟩ := h.shape
    obtain ⟨_, _, _, rfl⟩ := h'.shape
    exact ⟨_, _, _, rfl⟩
  frame m hm := by
    rw [mem_append, not_or] at hm
    rw [h'.frame m hm.2, h.frame m hm.1]
  paged := h'.paged ∘ h.paged
  staged m := h'.staged m ∘ h.staged m

end

theorem writePage_edits (locked : .reserved ≤ s.wp.held) (n : UInt32)
    (hb : b.length = s.wp.pageSize)
    : ∃ t, writePage n b s = .ok () t ∧ FreelistEdit s t [n] ∧ t.wp.header = s.wp.header
      ∧ t.readPage n = .ok b := by
  refine ⟨_, writePage_locked locked n hb, (FreelistEdit.refl s).stage n hb _ _, rfl, ?_⟩
  rw [readPage_insert, if_pos rfl]

theorem countFreed_edits (h : checkedAdd s.wp.header.freelistCount 1 = .ok count)
    : ∃ t, countFreed id s = .ok () t ∧ FreelistEdit s t []
      ∧ t.wp.header.freelistTrunk = s.wp.header.freelistTrunk
      ∧ t.wp.header.freelistCount = count := by
  unfold countFreed
  rw [estate_get_bind, h]
  refine ⟨_, rfl, ⟨⟨_, _, _, rfl⟩, ?_, ?_, ?_⟩, rfl, rfl⟩
  · exact fun _ _ => rfl
  · exact id
  · exact fun _ => id

theorem scrub_edits (locked : .reserved ≤ s.wp.held) (page : UInt32)
    : ∃ t, scrub page s = .ok () t ∧ FreelistEdit s t [page] ∧ t.wp.header = s.wp.header := by
  unfold scrub
  rw [estate_get_bind]
  split
  · obtain ⟨t, hwrite, hedit, hheader, -⟩ := writePage_edits locked page (zeroPage_length _)
    exact ⟨t, hwrite, hedit, hheader⟩
  · exact ⟨s, rfl, (FreelistEdit.refl s).mono (nil_subset _), rfl⟩

/-- Trunk pages that an edit does not concern are still the same chain. -/
theorem FreelistEdit.trunks (h : FreelistEdit s t pages) (hchain : Trunks s trunk chain)
    (hdisjoint : ∀ n ∈ chainPages chain, n ∉ pages)
    : Trunks t trunk chain :=
  hchain.congr (fun n hn => h.frame n (hdisjoint n hn)) h.maxLeaves

-- Reusing a free page

/-- A call took page `n` off the freelist, of which `chain` is left; the page reads zeroed. -/
structure Reused (s t : PagerState) (pages : List UInt32) (n : UInt32)
    (chain : List (UInt32 × List UInt32)) : Prop where
  edit : FreelistEdit s t pages
  freelist : Freelist t chain
  perm : pages.Perm (n :: chainPages chain)
  zeroed : t.readPage n = .ok (zeroPage s.wp.pageSize)
  staged : t.wp.overlay.contains n = true

section Reuse

variable (locked : .reserved ≤ s.wp.held) (paged : s.Paged)
  (hsize : 8 ≤ s.wp.pageSize)

theorem Freelist.uncount {page : UInt32 × List UInt32} (h : Freelist s (page :: rest))
    : checkedSub s.wp.header.freelistCount 1 = .ok (s.wp.header.freelistCount - 1)
      ∧ (s.wp.header.freelistCount - 1).toNat = (page.2 ++ chainPages rest).length := by
  have hone : 1 ≤ s.wp.header.freelistCount := by
    rw [le_iff_toNat_le, h.count]
    exact succ_pos _
  refine ⟨if_pos hone, ?_⟩
  rw [UInt32.toNat_sub_of_le _ _ hone, h.count]
  rfl

/-- The last of the listed leaves is taken, and the trunk counts one less. -/
theorem allocFromFreelist_takesLeaf {b' : Bytes} {leafCount : UInt32}
    (locked : .reserved ≤ s.wp.held) (hread : s.readPage s.wp.header.freelistTrunk = .ok b)
    (hcount : be32 b 4 = some leafCount) (hpositive : 0 < leafCount)
    (hleaf : be32 b (8 + 4 * (leafCount.toNat - 1)) = some leaf)
    (hput : put32 b 4 (leafCount - 1) = .ok b') (hb : b'.length = s.wp.pageSize)
    (hsub : checkedSub s.wp.header.freelistCount 1 = .ok count)
    : allocFromFreelist s = .ok leaf (s.restage { s.wp.header with freelistCount := count }
      ((s.wp.overlay.insert s.wp.header.freelistTrunk b').insert leaf (zeroPage s.wp.pageSize))
      s.wp.pageCount) := by
  unfold allocFromFreelist
  rw [estate_get_bind]
  rw [estate_bind_ok (readPage_ok hread), beU32_ok.mpr hcount, lift_ok_bind, if_pos hpositive,
    beU32_ok.mpr hleaf, lift_ok_bind, hput, lift_ok_bind,
    estate_bind_ok (writePage_locked locked _ hb), estate_get_bind]
  dsimp only [restage]
  rw [hsub]
  rfl

theorem allocFromFreelist_takesTrunk
    (hread : s.readPage s.wp.header.freelistTrunk = .ok b) (hcount : be32 b 4 = some 0)
    (hnext : be32 b 0 = some next) (hsub : checkedSub s.wp.header.freelistCount 1 = .ok count)
    : allocFromFreelist s = .ok s.wp.header.freelistTrunk (s.restage
      { s.wp.header with freelistTrunk := next, freelistCount := count }
      (s.wp.overlay.insert s.wp.header.freelistTrunk (zeroPage s.wp.pageSize)) s.wp.pageCount) := by
  unfold allocFromFreelist
  rw [estate_get_bind]
  rw [estate_bind_ok (readPage_ok hread), beU32_ok.mpr hcount, lift_ok_bind, if_neg (by decide),
    beU32_ok.mpr hnext, lift_ok_bind, estate_get_bind, hsub]
  rfl

include locked paged hsize

/-- The last leaf of the first trunk is taken. -/
theorem allocFromFreelist_leaf (h : Freelist s ((trunk, leaves ++ [leaf]) :: rest))
    : ∃ t, allocFromFreelist s = .ok leaf t
      ∧ Reused s t (chainPages ((trunk, leaves ++ [leaf]) :: rest)) leaf
        ((trunk, leaves) :: rest) := by
  obtain ⟨rfl, hpage, b, next, hread, hisTrunk, hroom, htail⟩ := h.trunks.head
  have hb := paged _ b hread
  have hnodup := h.nodup
  rw [chainPages_cons, nodup_cons] at hnodup
  have hne : s.wp.header.freelistTrunk ≠ leaf := fun heq => hnodup.1 (by simp [heq])
  obtain ⟨hsub, hcount⟩ := h.uncount
  simp only [length_append, length_singleton] at hcount
  obtain ⟨b', hput, hlen, hleaf, hisTrunk'⟩ := hisTrunk.pop (hb ▸ hsize)
  have hlen' := h.leafCount
  rw [length_append, length_singleton] at hlen'
  have hpositive : (0 : UInt32) < .ofNat (leaves.length + 1) := by
    rw [lt_iff_toNat_lt, hlen']
    exact succ_pos _
  have hleafCount := hisTrunk.count
  rw [length_append, length_singleton] at hleafCount
  have hedit := ((FreelistEdit.refl s).stage s.wp.header.freelistTrunk
      (hlen.trans hb) s.wp.header.freelistTrunk
    s.wp.header.freelistCount).stage leaf (zeroPage_length _) s.wp.header.freelistTrunk
      (s.wp.header.freelistCount - 1)
  have hperm : (chainPages ((s.wp.header.freelistTrunk, leaves ++ [leaf]) :: rest)).Perm
      (leaf :: chainPages ((s.wp.header.freelistTrunk, leaves) :: rest)) := by
    rw [chainPages_cons, append_assoc]
    exact (perm_middle.cons _).trans (.swap leaf _ _)
  have hleft := nodup_cons.mp (hperm.nodup_iff.mp h.nodup)
  refine ⟨_, ?_, hedit.mono (by simp), ⟨?_, hleft.2, ?_⟩, hperm, ?_, ?_⟩
  · exact allocFromFreelist_takesLeaf locked hread hleafCount hpositive
      (by rw [hlen', Nat.add_sub_cancel, hleaf]) hput (hlen.trans hb) hsub
  · show Trunks _ s.wp.header.freelistTrunk _
    refine .cons hpage ?_ hisTrunk' ?_ (hedit.trunks htail fun n hn hin => ?_)
    · rw [readPage_insert, if_neg hne.symm, readPage_insert, if_pos rfl]
    · exact le_trans (by simp) hroom
    · rcases mem_pair.mp hin with rfl | rfl
      · exact hleft.1 (by simp [hn])
      · exact hnodup.1 (by simp [hn])
  · show (s.wp.header.freelistCount - 1).toNat = _
    rw [chainPages_cons, length_cons, length_append]
    omega
  · rw [readPage_insert, if_pos rfl]
    rfl
  · simp [restage]

omit locked paged hsize in
/-- A trunk without leaves is taken itself. -/
theorem allocFromFreelist_trunk (h : Freelist s ((trunk, []) :: rest))
    : ∃ t, allocFromFreelist s = .ok trunk t
      ∧ Reused s t (chainPages ((trunk, []) :: rest)) trunk rest := by
  obtain ⟨rfl, hpage, b, next, hread, hisTrunk, hroom, htail⟩ := h.trunks.head
  have hnodup := h.nodup
  rw [chainPages_cons, nodup_cons] at hnodup
  obtain ⟨hsub, hcount⟩ := h.uncount
  have hedit := (FreelistEdit.refl s).stage s.wp.header.freelistTrunk (zeroPage_length _) next
    (s.wp.header.freelistCount - 1)
  refine ⟨_, ?_, hedit.mono (by simp), ⟨?_, hnodup.2, hcount⟩, .refl _, ?_, ?_⟩
  · exact allocFromFreelist_takesTrunk hread hisTrunk.count hisTrunk.next hsub
  · refine hedit.trunks htail fun n hn hin => hnodup.1 ?_
    rwa [← mem_singleton.mp hin]
  · rw [readPage_insert, if_pos rfl]
  · simp [restage]

theorem allocFromFreelist_reuses (h : Freelist s chain) (hne : chain ≠ [])
    : ∃ n t chain', allocFromFreelist s = .ok n t ∧ Reused s t (chainPages chain) n chain' := by
  obtain ⟨⟨trunk, leaves⟩, rest, rfl⟩ := exists_cons_of_ne_nil hne
  rcases leaves.eq_nil_or_concat with rfl | ⟨init, last, rfl⟩
  · obtain ⟨t, hrun, hreused⟩ := allocFromFreelist_trunk h
    exact ⟨trunk, t, rest, hrun, hreused⟩
  · rw [concat_eq_append] at h ⊢
    obtain ⟨t, hrun, hreused⟩ := allocFromFreelist_leaf locked paged hsize h
    exact ⟨last, t, (trunk, init) :: rest, hrun, hreused⟩

end Reuse

/-- In `t` the page `n` is on the freelist, with `pages`. -/
structure Freed (s t : PagerState) (pages : List UInt32) (n : UInt32)
    (chain : List (UInt32 × List UInt32)) : Prop where
  edit : FreelistEdit s t (n :: pages)
  freelist : Freelist t chain
  perm : (chainPages chain).Perm (n :: pages)

section Return

variable (locked : .reserved ≤ s.wp.held) {page : UInt32}
  (h : Freelist s chain)
  (hfresh : page ∉ chainPages chain) (hcount : (chainPages chain).length + 1 < 2 ^ 32)

include h hcount

theorem Freelist.recount
    : checkedAdd s.wp.header.freelistCount 1 = .ok (s.wp.header.freelistCount + 1)
      ∧ (s.wp.header.freelistCount + 1).toNat = (chainPages chain).length + 1 := by
  have hfits : s.wp.header.freelistCount.toNat + (1 : UInt32).toNat < 2 ^ 32 := by
    rw [h.count]
    exact hcount
  refine ⟨if_pos hfits, ?_⟩
  rw [UInt32.toNat_add, mod_eq_of_lt hfits, h.count]
  rfl

include locked hfresh

/-- The page becomes a trunk in front of the chain. -/
theorem freeAsTrunk_frees (hsize : 8 ≤ s.wp.pageSize) (hpage : page ≠ 0)
    : ∃ t, freeAsTrunk page s.wp.header.freelistTrunk s = .ok () t
      ∧ Freed s t (chainPages chain) page ((page, []) :: chain) := by
  obtain ⟨hadd, hcount'⟩ := h.recount hcount
  obtain ⟨b1, hput1, hlen1, hself1, hother1⟩ := put32_stores (zeroPage s.wp.pageSize) 0
    s.wp.header.freelistTrunk (by rw [zeroPage_length]; omega)
  rw [zeroPage_length] at hlen1
  obtain ⟨b2, hput2, hlen2, hself2, hother2⟩ := put32_stores b1 4 0 (by omega)
  rw [hlen1] at hlen2
  have hisTrunk : IsTrunk b2 s.wp.header.freelistTrunk [] :=
    ⟨(hother2 0 (by omega)).trans hself1, hself2, fun _ _ hv => nomatch hv⟩
  have hedit := (FreelistEdit.refl s).stage page hlen2 page (s.wp.header.freelistCount + 1)
  refine ⟨_, ?_, hedit.mono (by simp), ⟨?_, nodup_cons.mpr ⟨hfresh, h.nodup⟩, hcount'⟩, .refl _⟩
  · unfold freeAsTrunk countFreed
    rw [estate_get_bind, hput1, lift_ok_bind, hput2, lift_ok_bind,
      estate_bind_ok (writePage_locked locked page hlen2), estate_get_bind]
    dsimp only [restage]
    rw [hadd]
    rfl
  show Trunks _ page _
  refine .cons hpage ?_ hisTrunk (zero_le _) (hedit.trunks h.trunks fun n hn hin => ?_)
  · rw [readPage_insert, if_pos rfl]
  · exact hfresh (mem_singleton.mp hin ▸ hn)

/-- The page is listed by the first trunk, which has room. -/
theorem freeAsLeaf_frees (paged : s.Paged) (husable : s.usableSize ≤ s.wp.pageSize)
    (hchain : chain = (trunk, leaves) :: rest)
    (hread : s.readPage trunk = .ok b) (hroom : leaves.length < s.maxLeaves)
    : ∃ t, freeAsLeaf page trunk (.ofNat leaves.length) b s = .ok () t
      ∧ Freed s t (chainPages chain) page ((trunk, leaves ++ [page]) :: rest) := by
  subst hchain
  obtain ⟨rfl, hpage, b0, next, hread0, hisTrunk, -, htail⟩ := h.trunks.head
  cases hread.symm.trans hread0
  have hb := paged _ b hread
  obtain ⟨hadd, hcount'⟩ := h.recount hcount
  have hfits : 8 + 4 * (leaves.length + 1) ≤ b.length := by
    unfold maxLeaves at hroom
    omega
  obtain ⟨b1, b2, hput1, hput2, hlen2, hisTrunk'⟩ := hisTrunk.push page hfits
  obtain ⟨mid, hwrite, hwritten, hmid, hread'⟩ := writePage_edits locked s.wp.header.freelistTrunk
    (hlen2.trans hb)
  obtain ⟨t, hscrub, hscrubbed, hheader⟩ := scrub_edits (hwritten.held ▸ locked) page
  obtain ⟨u, hcounting, hcounted, htrunk, hcount''⟩ := countFreed_edits
    (by rw [hheader, hmid, hadd])
  have hedit := (hwritten.trans hscrubbed).trans hcounted
  rw [hheader, hmid] at htrunk
  have hperm : (chainPages ((s.wp.header.freelistTrunk, leaves ++ [page]) :: rest)).Perm
      (page :: chainPages ((s.wp.header.freelistTrunk, leaves) :: rest)) := by
    rw [chainPages_cons, append_assoc]
    exact (perm_middle.cons _).trans (.swap page _ _)
  refine ⟨u, ?_, hedit.mono (by simp), ⟨?_, ?_, ?_⟩, hperm⟩
  · unfold freeAsLeaf
    rw [h.leafCount, hput1, lift_ok_bind, hput2, lift_ok_bind, estate_bind_ok hwrite,
      estate_bind_ok hscrub, hcounting]
  · rw [htrunk]
    refine .cons hpage ?_ hisTrunk' ?_ (hedit.trunks htail fun n hn hin => ?_)
    · rw [hcounted.frame _ not_mem_nil, hscrubbed.frame, hread']
      exact fun hin => hfresh (by simp [← mem_singleton.mp hin])
    · rw [hedit.maxLeaves, length_append]
      exact hroom
    · rcases mem_pair.mp hin with rfl | rfl
      · exact (nodup_cons.mp h.nodup).1 (mem_append_right _ hn)
      · exact hfresh (by simp [hn])
  · exact hperm.nodup_iff.mpr (nodup_cons.mpr ⟨hfresh, h.nodup⟩)
  · rw [hperm.length_eq, hcount'']
    exact hcount'

/-- Freeing a page puts it on the freelist. -/
theorem freePage_frees (paged : s.Paged) (hsize : 8 ≤ s.wp.pageSize)
    (husable : s.usableSize ≤ s.wp.pageSize) (hpage : page ≠ 0)
    : ∃ t chain', freePage page s = .ok () t ∧ Freed s t (chainPages chain) page chain' := by
  unfold freePage
  rw [estate_bind_ok (acquireWriteIntent_held locked), estate_get_bind]
  obtain ⟨t, hrun, hfreed⟩ := freeAsTrunk_frees locked h hfresh hcount hsize hpage
  split
  · exact ⟨t, _, hrun, hfreed⟩
  next hzero =>
  cases chain with
  | nil => exact absurd h.trunks.eq_zero hzero
  | cons head rest =>
    obtain ⟨htrunk, -, b, next, hread, hisTrunk, -, -⟩ := h.trunks.head
    rw [htrunk] at hrun ⊢
    rw [estate_bind_ok (readPage_ok hread), beU32_ok.mpr hisTrunk.count, lift_ok_bind]
    split
    · next hroom =>
      obtain ⟨t, hrun, hfreed⟩ := freeAsLeaf_frees locked h hfresh hcount paged husable rfl hread
        (h.leafCount ▸ hroom)
      exact ⟨t, _, hrun, hfreed⟩
    · exact ⟨t, _, hrun, hfreed⟩

end Return

end GraphiteSql
