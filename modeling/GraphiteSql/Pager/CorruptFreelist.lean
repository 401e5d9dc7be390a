import GraphiteSql.Pager.Allocation

/-! The freelist of a file with arbitrary contents. The leaf count of a trunk page indexes the
page unchecked and the page numbers it lists are handed out unchecked, so allocating, freeing and
walking the list are safe exactly on trunk pages that are intact.
-/

namespace GraphiteSql

open Lib UInt32 PagerState

variable {s t : PagerState} {n : UInt32} {e : Error}

def PagerState.InRange (s : PagerState) (n : UInt32) : Prop :=
  0 < n ∧ n ≤ s.wp.pageCount

def leafCountOf (b : Bytes) : Nat :=
  ((be32 b 4).getD 0).toNat

/-- A trunk page that declares no more leaves than the usable part of the page holds, and lists
and links pages of the file.
-/
structure PagerState.Intact (s : PagerState) (b : Bytes) : Prop where
  room : 8 + 4 * leafCountOf b ≤ s.usableSize
  leaves : ∀ i < leafCountOf b, ∀ leaf, be32 b (8 + 4 * i) = some leaf → s.InRange leaf
  next : ∀ next, be32 b 0 = some next → next ≤ s.wp.pageCount

structure PagerState.Sized (s : PagerState) : Prop where
  paged : s.Paged
  minimum : 512 ≤ s.wp.pageSize
  usable : s.usableSize ≤ s.wp.pageSize

theorem readDisk_isReturned (h : s.readDisk n = .error e)
    : e.isReturned = true := by
  unfold readDisk readExactAt at h
  split at h
  · cases h
  · cases h
    rfl

/-- Reading a page fails with an error value. -/
theorem readPage_isReturned (h : s.readPage n = .error e)
    : e.isReturned = true := by
  unfold PagerState.readPage at h
  split at h
  · cases h
  split at h
  · split at h
    · cases h
    split at h
    · cases h
      rfl
    · exact readDisk_isReturned h
  split at h
  · cases h
    rfl
  · exact readDisk_isReturned h

/-- The two integers at the front of a full page. -/
theorem PagerState.Sized.front (h : s.Sized) {b : Bytes} (hread : s.readPage n = .ok b)
    : b.length = s.wp.pageSize ∧ ∃ next count, be32 b 0 = some next ∧ be32 b 4 = some count
      ∧ leafCountOf b = count.toNat := by
  have hlen := h.paged n b hread
  have hmin := h.minimum
  obtain ⟨next, hnext⟩ := be32_isSome (show 0 + 4 ≤ b.length by omega)
  obtain ⟨count, hcount⟩ := be32_isSome (show 4 + 4 ≤ b.length by omega)
  refine ⟨hlen, next, count, hnext, hcount, ?_⟩
  unfold leafCountOf
  rw [hcount]
  rfl

-- Allocating

def Returned {α : Type} (x : EStateM.Result Error PagerState α) : Prop :=
  ∀ e t, x = .error e t → e.isReturned = true

section Allocate

variable (locked : .reserved ≤ s.wp.held) (sized : s.Sized)
  (hcount : 0 < s.wp.header.freelistCount) {b : Bytes}
  (hread : s.readPage s.wp.header.freelistTrunk = .ok b)

include locked sized hcount hread

/-- What the first trunk page makes of an allocation. -/
theorem allocFromFreelist_cases
    : (leafCountOf b = 0 ∧ ∃ t, allocFromFreelist s = .ok s.wp.header.freelistTrunk t
          ∧ t.wp.pageCount = s.wp.pageCount)
      ∨ (∃ leaf t, 0 < leafCountOf b ∧ be32 b (8 + 4 * (leafCountOf b - 1)) = some leaf
          ∧ allocFromFreelist s = .ok leaf t ∧ t.wp.pageCount = s.wp.pageCount)
      ∨ (s.wp.pageSize < 8 + 4 * leafCountOf b
          ∧ ∃ what t, allocFromFreelist s = .error (.panic what) t) := by
  obtain ⟨hlen, next, count, hnext, hleaves, hcountOf⟩ := sized.front hread
  have hsub : checkedSub s.wp.header.freelistCount 1 = .ok (s.wp.header.freelistCount - 1) := by
    refine if_pos ?_
    exact hcount
  rw [hcountOf]
  rcases Nat.eq_zero_or_pos count.toNat with hzero | hpos
  · have hcount0 : count = 0 := UInt32.toNat_inj.mp hzero
    rw [hcount0] at hleaves
    exact .inl ⟨hzero, _, allocFromFreelist_takesTrunk hread hleaves hnext hsub, rfl⟩
  refine .inr ?_
  have hpositive : 0 < count := lt_iff_toNat_lt.mpr hpos
  by_cases hfits : 8 + 4 * count.toNat ≤ s.wp.pageSize
  · have hmin := sized.minimum
    obtain ⟨leaf, hleaf⟩ := be32_isSome
      (show 8 + 4 * (count.toNat - 1) + 4 ≤ b.length by omega)
    obtain ⟨b', hput, hlen', -, -⟩ := put32_stores b 4 (count - 1) (by omega)
    exact .inl ⟨leaf, _, hpos, hleaf,
      allocFromFreelist_takesLeaf locked hread hleaves hpositive hleaf
      hput (hlen'.trans hlen) hsub, rfl⟩
  refine .inr ⟨by omega, ?_⟩
  unfold allocFromFreelist
  rw [estate_get_bind]
  rw [estate_bind_ok (readPage_ok hread), beU32_ok.mpr hleaves, lift_ok_bind, if_pos hpositive,
    beU32_panics (by omega)]
  exact ⟨_, _, rfl⟩

end Allocate

def PagerState.FirstTrunk (s : PagerState) (b : Bytes) : Prop :=
  s.wp.header.freelistTrunk ≠ 0 ∧ s.readPage s.wp.header.freelistTrunk = .ok b

/-- An allocation that finds the freelist as `s` has it: it does not panic, hands out a page of the
file, and reports a damaged trunk page.
-/
structure AllocatesSafely (s : PagerState) (outcome : EStateM.Result Error PagerState UInt32)
    : Prop where
  returned : Returned outcome
  inRange : ∀ n t, outcome = .ok n t → t.InRange n
  reported : 0 < s.wp.header.freelistCount → ∀ b, s.FirstTrunk b → ¬ s.Intact b →
    ∃ msg t, outcome = .error (.corrupt msg) t

/-- The trunk page that is looked at is intact; without one, page numbers are left. -/
structure PagerState.CanAllocate (s : PagerState) : Prop where
  reuse : 0 < s.wp.header.freelistCount → ∀ b, s.FirstTrunk b →
    s.Intact b ∧ (leafCountOf b = 0 → s.wp.header.freelistTrunk ≤ s.wp.pageCount)
  grow : ¬ (0 < s.wp.header.freelistCount ∧ s.wp.header.freelistTrunk ≠ 0) →
    ∃ m, s.wp.pageCount < m ∧ ¬ (s.autoVacuumOn ∧ s.isReservedLayoutPage m)

theorem allocatesSafely_ok
    : AllocatesSafely s (.ok n t)
      ↔ t.InRange n ∧ (0 < s.wp.header.freelistCount → ∀ b, s.FirstTrunk b → s.Intact b) := by
  constructor
  · intro h
    refine ⟨h.inRange n t rfl, fun hcount b hb => ?_⟩
    by_contra hdamaged
    obtain ⟨msg, u, heq⟩ := h.reported hcount b hb hdamaged
    cases heq
  rintro ⟨hrange, hintact⟩
  refine ⟨fun e u heq => ?_, fun m u heq => ?_, fun hcount b hb hdamaged => ?_⟩
  · cases heq
  · cases heq
    exact hrange
  · exact absurd (hintact hcount b hb) hdamaged

theorem allocatesSafely_error (hread : ∀ b, ¬ s.FirstTrunk b)
    : AllocatesSafely s (.error e t) ↔ e.isReturned = true := by
  constructor
  · exact fun h => h.returned e t rfl
  intro h
  refine ⟨fun e' u heq => ?_, fun m u heq => ?_, fun _ b hb => absurd hb (hread b)⟩
  · cases heq
    exact h
  · cases heq

theorem not_allocatesSafely_panic {what : String}
    : ¬ AllocatesSafely s (.error (.panic what) t) :=
  fun h => Bool.false_ne_true (h.returned _ t rfl)

theorem PagerState.firstTrunk_iff {b : Bytes} (htrunk : s.wp.header.freelistTrunk ≠ 0)
    (hread : s.readPage s.wp.header.freelistTrunk = .ok b) (b' : Bytes)
    : s.FirstTrunk b' ↔ b' = b := by
  unfold PagerState.FirstTrunk
  rw [hread, Except.ok.injEq]
  exact ⟨fun h => h.2.symm, fun h => ⟨htrunk, h.symm⟩⟩

theorem PagerState.not_firstTrunk
    (hread : s.readPage s.wp.header.freelistTrunk = .error e) (b : Bytes)
    : ¬ s.FirstTrunk b := by
  intro h
  have hok := h.2
  rw [hread] at hok
  cases hok

/-- Taking a page off the freelist is safe exactly on an intact trunk page. -/
theorem allocFromFreelist_safe_iff (locked : .reserved ≤ s.wp.held)
    (sized : s.Sized) (hcount : 0 < s.wp.header.freelistCount)
      (htrunk : s.wp.header.freelistTrunk ≠ 0)
    : AllocatesSafely s (allocFromFreelist s)
      ↔ ∀ b, s.FirstTrunk b →
          s.Intact b ∧ (leafCountOf b = 0 → s.wp.header.freelistTrunk ≤ s.wp.pageCount) := by
  cases hread : s.readPage s.wp.header.freelistTrunk with
  | error e =>
    have hrun : allocFromFreelist s = .error e s := by
      unfold allocFromFreelist
      rw [estate_get_bind]
      exact estate_bind_error (readPage_error hread)
    have hno := not_firstTrunk hread
    rw [hrun, allocatesSafely_error hno]
    exact ⟨fun _ b hb => absurd hb (hno b), fun _ => readPage_isReturned hread⟩
  | ok b =>
    have hfirst := firstTrunk_iff htrunk hread
    have hrange : ∀ {t : PagerState} {n : UInt32}, t.wp.pageCount = s.wp.pageCount →
        (t.InRange n ↔ s.InRange n) := fun hpages => by
      unfold PagerState.InRange
      rw [hpages]
    simp only [hfirst, forall_eq]
    rcases allocFromFreelist_cases locked sized hcount hread with
      ⟨hzero, t, hrun, hpages⟩ | ⟨leaf, t, hpos, hleaf, hrun, hpages⟩ | ⟨hover, what, t, hrun⟩
    · rw [hrun, allocatesSafely_ok, hrange hpages]
      simp only [hfirst, forall_eq, hcount, hzero, true_implies]
      have hpositive : 0 < s.wp.header.freelistTrunk := UInt32.pos_iff_ne_zero.mpr htrunk
      exact ⟨fun h => ⟨h.2, h.1.2⟩, fun h => ⟨⟨hpositive, h.2⟩, h.1⟩⟩
    · rw [hrun, allocatesSafely_ok, hrange hpages]
      simp only [hfirst, forall_eq, hcount, true_implies]
      refine ⟨fun h => ⟨h.2, fun hzero => absurd hzero (Nat.ne_of_gt hpos)⟩, fun h => ⟨?_, h.1⟩⟩
      exact h.1.leaves _ (Nat.sub_lt hpos Nat.one_pos) leaf hleaf
    rw [hrun]
    refine ⟨fun h => absurd h not_allocatesSafely_panic, fun h => ?_⟩
    have hroom := h.1.room
    have husable := sized.usable
    omega

/-- Extending the file is safe exactly while page numbers are left. -/
theorem extendFile_safe_iff
    (hunused : ¬ (0 < s.wp.header.freelistCount ∧ s.wp.header.freelistTrunk ≠ 0))
    : AllocatesSafely s (extendFile (2 ^ 32 - 1 - s.wp.pageCount.toNat) s)
      ↔ ∃ m, s.wp.pageCount < m ∧ ¬ (s.autoVacuumOn ∧ s.isReservedLayoutPage m) := by
  have hlt := s.wp.pageCount.toNat_lt
  have hruns := extendFile_extends (2 ^ 32 - 1 - s.wp.pageCount.toNat) (show s.wp.pageCount.toNat
    + (2 ^ 32 - 1 - s.wp.pageCount.toNat) < 2 ^ 32 by omega)
  cases hrun : extendFile (2 ^ 32 - 1 - s.wp.pageCount.toNat) s with
  | ok n t =>
    have hext := hruns.ok hrun
    rw [allocatesSafely_ok]
    refine ⟨fun _ => ⟨n, hext.grows, fun h => hext.unreserved h.1 h.2⟩, fun _ => ⟨⟨?_, ?_⟩, ?_⟩⟩
    · exact UInt32.lt_of_le_of_lt UInt32.zero_le hext.grows
    · obtain ⟨overlay, rfl⟩ := hext.shape
      exact UInt32.le_refl n
    · exact fun hcount b hb => absurd ⟨hcount, hb.1⟩ hunused
  | error e t =>
    obtain ⟨⟨what, rfl⟩, hfull⟩ := hruns.error hrun
    refine ⟨fun h => absurd h not_allocatesSafely_panic, fun ⟨m, hm, hopen⟩ => ?_⟩
    have hmlt := m.toNat_lt
    exact absurd (hfull m hm (by omega)) hopen

theorem allocatePage_safe_iff {s' : PagerState} (hlock : acquireWriteIntent s = .ok () s')
    (sized : s'.Sized)
    : AllocatesSafely s' (allocatePage s) ↔ s'.CanAllocate := by
  have locked := (acquireWriteIntent_locked s).ok hlock
  unfold allocatePage
  rw [estate_bind_ok hlock, estate_get_bind]
  split
  · next hused =>
    rw [allocFromFreelist_safe_iff locked sized hused.1 hused.2]
    exact ⟨fun h => ⟨fun _ => h, absurd hused⟩, fun h => h.reuse hused.1⟩
  next hunused =>
  rw [extendFile_safe_iff hunused]
  exact ⟨fun h => ⟨fun hcount b hb => absurd ⟨hcount, hb.1⟩ hunused, fun _ => h⟩,
    fun h => h.grow hunused⟩

-- Freeing

/-- Freeing a page with the freelist as `s` has it: no panic, and a damaged trunk page is reported.
-/
structure FreesSafely (s : PagerState) (outcome : EStateM.Result Error PagerState Unit) : Prop where
  returned : Returned outcome
  reported : ∀ b, s.FirstTrunk b → ¬ s.Intact b → ∃ msg t, outcome = .error (.corrupt msg) t

/-- The first trunk is intact, and the freelist count can grow. -/
structure PagerState.CanFree (s : PagerState) : Prop where
  intact : ∀ b, s.FirstTrunk b → s.Intact b
  counted : (s.wp.header.freelistTrunk = 0 ∨ ∃ b, s.FirstTrunk b) →
    s.wp.header.freelistCount.toNat + 1 < 2 ^ 32

/-- The page is freed, unless the freelist count overflows. -/
def FreedOrOverflow (s : PagerState) (outcome : EStateM.Result Error PagerState Unit) : Prop :=
  (s.wp.header.freelistCount.toNat + 1 < 2 ^ 32 ∧ ∃ t, outcome = .ok () t)
    ∨ (¬ s.wp.header.freelistCount.toNat + 1 < 2 ^ 32 ∧ ∃ what t, outcome = .error (.panic what) t)

theorem countFreed_outcome (change : DatabaseHeader → DatabaseHeader)
    (hheader : t.wp.header = s.wp.header)
    : FreedOrOverflow s (countFreed change t) := by
  unfold countFreed FreedOrOverflow
  rw [estate_get_bind, hheader]
  by_cases hfits : s.wp.header.freelistCount.toNat + 1 < 2 ^ 32
  · have hadd : checkedAdd s.wp.header.freelistCount 1 = .ok (s.wp.header.freelistCount + 1) :=
      if_pos hfits
    rw [hadd]
    exact .inl ⟨hfits, _, rfl⟩
  have hadd : checkedAdd s.wp.header.freelistCount 1
      = .error (.panic "attempt to add with overflow") := if_neg hfits
  rw [hadd]
  exact .inr ⟨hfits, _, _, rfl⟩

section Free

variable (locked : .reserved ≤ s.wp.held) (sized : s.Sized) (page trunk : UInt32)

include locked sized

theorem freeAsTrunk_outcome : FreedOrOverflow s (freeAsTrunk page trunk s) := by
  have hmin := sized.minimum
  obtain ⟨b1, hput1, hlen1, -, -⟩ := put32_stores (zeroPage s.wp.pageSize) 0 trunk
    (by rw [zeroPage_length]; omega)
  rw [zeroPage_length] at hlen1
  obtain ⟨b2, hput2, hlen2, -, -⟩ := put32_stores b1 4 0 (by omega)
  obtain ⟨t, hwrite, -, hheader, -⟩ := writePage_edits locked page (hlen2.trans hlen1)
  unfold freeAsTrunk
  rw [estate_get_bind, hput1, lift_ok_bind, hput2, lift_ok_bind, estate_bind_ok hwrite]
  exact countFreed_outcome _ hheader

theorem freeAsLeaf_outcome {b : Bytes} (hlen : b.length = s.wp.pageSize) {count : UInt32}
    (hroom : count.toNat < s.maxLeaves)
    : FreedOrOverflow s (freeAsLeaf page trunk count b s) := by
  have husable := sized.usable
  unfold maxLeaves at hroom
  obtain ⟨b1, hput1, hlen1, -, -⟩ := put32_stores b (8 + 4 * count.toNat) page (by omega)
  obtain ⟨b2, hput2, hlen2, -, -⟩ := put32_stores b1 4 (count + 1) (by omega)
  obtain ⟨mid, hwrite, hedit, hmid, -⟩ := writePage_edits locked trunk
    (hlen2.trans (hlen1.trans hlen))
  obtain ⟨t, hscrub, -, hheader⟩ := scrub_edits (hedit.held ▸ locked) page
  unfold freeAsLeaf
  rw [hput1, lift_ok_bind, hput2, lift_ok_bind, estate_bind_ok hwrite, estate_bind_ok hscrub]
  exact countFreed_outcome id (hheader.trans hmid)

end Free

theorem FreedOrOverflow.safe_iff {outcome : EStateM.Result Error PagerState Unit}
    (h : FreedOrOverflow s outcome) (hlooked : s.wp.header.freelistTrunk = 0 ∨ ∃ b, s.FirstTrunk b)
    : FreesSafely s outcome ↔ s.CanFree := by
  rcases h with ⟨hfits, t, rfl⟩ | ⟨hover, what, t, rfl⟩
  · refine ⟨fun h => ⟨fun b hb => ?_, fun _ => hfits⟩, fun h =>
      ⟨fun e u heq => ?_, fun b hb hd => ?_⟩⟩
    · by_contra hdamaged
      obtain ⟨msg, u, heq⟩ := h.reported b hb hdamaged
      cases heq
    · cases heq
    · exact absurd (h.intact b hb) hd
  · exact ⟨fun h => absurd (h.returned _ t rfl) Bool.false_ne_true,
      fun h => absurd (h.counted hlooked) hover⟩

/-- Freeing a page is safe exactly if the first trunk page is intact and the count does not
overflow.
-/
theorem freePage_safe_iff {s' : PagerState} (hlock : acquireWriteIntent s = .ok () s')
    (sized : s'.Sized) (page : UInt32)
    : FreesSafely s' (freePage page s) ↔ s'.CanFree := by
  have locked := (acquireWriteIntent_locked s).ok hlock
  unfold freePage
  rw [estate_bind_ok hlock, estate_get_bind]
  split
  · next hzero => exact (freeAsTrunk_outcome locked sized page _).safe_iff (.inl hzero)
  next htrunk =>
  cases hread : s'.readPage s'.wp.header.freelistTrunk with
  | error e =>
    have hno := not_firstTrunk hread
    rw [estate_bind_error (readPage_error hread)]
    refine ⟨fun _ => ⟨fun b hb => absurd hb (hno b), fun hlooked => ?_⟩,
      fun _ => ⟨fun e' t heq => ?_, fun b hb => absurd hb (hno b)⟩⟩
    · rcases hlooked with hzero | ⟨b, hb⟩
      · exact absurd hzero htrunk
      · exact absurd hb (hno b)
    · cases heq
      exact readPage_isReturned hread
  | ok b =>
    obtain ⟨hlen, next, count, -, hcount, -⟩ := sized.front hread
    rw [estate_bind_ok (readPage_ok hread), beU32_ok.mpr hcount, lift_ok_bind]
    have hlooked : s'.wp.header.freelistTrunk = 0 ∨ ∃ b, s'.FirstTrunk b :=
      .inr ⟨b, htrunk, hread⟩
    split
    · next hroom => exact (freeAsLeaf_outcome locked sized page _ hlen hroom).safe_iff hlooked
    · exact (freeAsTrunk_outcome locked sized page _).safe_iff hlooked

end GraphiteSql
