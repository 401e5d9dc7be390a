import GraphiteSql.Pager.CorruptFreelist
import GraphiteSql.Pager.NewDatabase

/-! The walk over the freelist for the pointer map, on a file with arbitrary contents. -/

namespace GraphiteSql

open Lib List PagerState WritePager

variable {s : PagerState} {guard : Nat} {trunk : UInt32}

/-- How the walk along the trunk chain ends. -/
inductive TrunkEnd where
  | done
  | unreadable (e : Error)
  | tooMany

def PagerState.trunkPages (s : PagerState) : (guard : Nat) → UInt32 → List Bytes × TrunkEnd
  | 0, trunk => ([], if trunk = 0 then .done else .tooMany)
  | guard + 1, trunk =>
      if trunk = 0 then ([], .done) else
      match s.readPage trunk with
      | .error e => ([], .unreadable e)
      | .ok b =>
          let (rest, fin) := s.trunkPages guard ((be32 b 0).getD 0)
          (b :: rest, fin)

/-- Following the trunk pages ends in an error that is reported as corruption. -/
inductive TrunkEnd.Corrupt : TrunkEnd → Prop where
  | unreadable (msg : String) : Corrupt (.unreadable (.corrupt msg))
  | tooMany : Corrupt .tooMany

def PagerState.walked (s : PagerState) : List Bytes × TrunkEnd :=
  s.trunkPages (s.wp.header.freelistCount.toNat + 8) s.wp.header.freelistTrunk

/-- The walk never panics, and it reports a trunk that is not intact. -/
structure WalksSafely (s : PagerState) (outcome : Result WantMap) : Prop where
  returned : ∀ e, outcome = .error e → e.isReturned = true
  reported : (∃ b ∈ s.walked.1, ¬ s.Intact b) → ∃ msg, outcome = .error (.corrupt msg)

/-- The trunk pages hold what they declare, the count of free pages leaves room for the counter,
and damaged entries are followed by a trunk page that cannot be reached.
-/
structure PagerState.CanWalk (s : PagerState) : Prop where
  cap : s.wp.header.freelistCount.toNat + 8 < 2 ^ 32
  room : ∀ b ∈ s.walked.1, 8 + 4 * leafCountOf b ≤ s.wp.pageSize
  counter : s.walked.2 = .tooMany → s.wp.header.freelistCount.toNat + 9 < 2 ^ 32
  reported : (∃ b ∈ s.walked.1, ¬ s.Intact b) → s.walked.2.Corrupt

section Leaves

variable {b : Bytes} {insert : WantMap → UInt32 → WantMap}

theorem foldlM_entries_ok {l : List Nat} (h : ∀ i ∈ l, 8 + 4 * i + 4 ≤ b.length) (want : WantMap)
    : ∃ want', l.foldlM (fun want i => do return insert want (← beU32 b (8 + 4 * i))) want
      = .ok want' := by
  induction l generalizing want with
  | nil => exact ⟨want, rfl⟩
  | cons i l ih =>
    obtain ⟨v, hv⟩ := be32_isSome (h i mem_cons_self)
    rw [foldlM_cons, beU32_ok.mpr hv]
    exact ih (fun j hj => h j (mem_cons_of_mem _ hj)) _

theorem foldlM_entries_panics {l : List Nat} (h : ∃ i ∈ l, b.length < 8 + 4 * i + 4)
    (want : WantMap)
    : l.foldlM (fun want i => do return insert want (← beU32 b (8 + 4 * i))) want
      = .error (.panic "index out of bounds") := by
  induction l generalizing want with
  | nil => exact absurd h (by simp)
  | cons i l ih =>
    rw [foldlM_cons]
    by_cases hi : b.length < 8 + 4 * i + 4
    · rw [beU32_panics hi]
      rfl
    obtain ⟨v, hv⟩ := be32_isSome (Nat.not_lt.mp hi)
    rw [beU32_ok.mpr hv]
    obtain ⟨j, hj, hout⟩ := h
    rcases mem_cons.mp hj with rfl | hj
    · exact absurd hout hi
    · exact ih ⟨j, hj, hout⟩ _

end Leaves

/-- The outcome of a walk over trunk pages that hold what they declare. -/
def TrunkEnd.Gives (fin : TrunkEnd) (s : PagerState) (outcome : Result WantMap) : Prop :=
  match fin with
  | .done => ∃ want, outcome = .ok want
  | .unreadable e => outcome = .error e
  | .tooMany => outcome = (checkedAdd (s.wp.header.freelistCount + 8) 1).bind fun _ =>
      .error (.corrupt "freelist trunk cycle")

section Walk

variable (sized : s.Sized)

include sized

/-- One trunk page of a walk: it is recorded with its leaves, or the walk panics there. -/
theorem walkFreelistPtrmap_step {b : Bytes} (htrunk : trunk ≠ 0)
    (hread : s.readPage trunk = .ok b) (want : WantMap)
    : ∃ next, s.trunkPages (guard + 1) trunk
        = (b :: (s.trunkPages guard next).1, (s.trunkPages guard next).2)
      ∧ (8 + 4 * leafCountOf b ≤ s.wp.pageSize → ∃ want',
          s.walkFreelistPtrmap (guard + 1) trunk want = s.walkFreelistPtrmap guard next want')
      ∧ (s.wp.pageSize < 8 + 4 * leafCountOf b →
          ∃ what, s.walkFreelistPtrmap (guard + 1) trunk want = .error (.panic what)) := by
  obtain ⟨hlen, next, count, hnext, hcount, hcountOf⟩ := sized.front hread
  refine ⟨next, ?_, fun hfits => ?_, fun hover => ?_⟩
  · rw [trunkPages, if_neg htrunk, hread]
    dsimp only
    rw [hnext]
    rfl
  · have hall : ∀ i ∈ range count.toNat, 8 + 4 * i + 4 ≤ b.length := fun i hi => by
      rw [mem_range] at hi
      omega
    obtain ⟨want', hfold⟩ := foldlM_entries_ok hall (want.insert trunk (.freePage, 0))
    refine ⟨want', ?_⟩
    rw [walkFreelistPtrmap, if_neg htrunk, hread, except_ok_bind, beU32_ok.mpr hnext,
      except_ok_bind, beU32_ok.mpr hcount, except_ok_bind, hfold, except_ok_bind]
  have hsome : ∃ i ∈ range count.toNat, b.length < 8 + 4 * i + 4 := by
    have hmin := sized.minimum
    refine ⟨count.toNat - 1, mem_range.mpr ?_, ?_⟩
    · omega
    · omega
  refine ⟨"index out of bounds", ?_⟩
  rw [walkFreelistPtrmap, if_neg htrunk, hread, except_ok_bind, beU32_ok.mpr hnext,
    except_ok_bind, beU32_ok.mpr hcount, except_ok_bind, foldlM_entries_panics hsome,
    except_error_bind]

/-- A trunk page that declares more leaves than there is room for makes the walk panic. -/
theorem walkFreelistPtrmap_panics
    (h : ∃ b ∈ (s.trunkPages guard trunk).1, s.wp.pageSize < 8 + 4 * leafCountOf b) (want : WantMap)
    : ∃ what, s.walkFreelistPtrmap guard trunk want = .error (.panic what) := by
  induction guard generalizing trunk want with
  | zero => simp [trunkPages] at h
  | succ guard ih =>
    by_cases htrunk : trunk = 0
    · simp [trunkPages, htrunk] at h
    cases hread : s.readPage trunk with
    | error e => simp [trunkPages, htrunk, hread] at h
    | ok b =>
      obtain ⟨next, hpages, hgoes, hpanics⟩ := walkFreelistPtrmap_step sized htrunk hread want
      rw [hpages] at h
      by_cases hfits : 8 + 4 * leafCountOf b ≤ s.wp.pageSize
      · obtain ⟨want', hwalk⟩ := hgoes hfits
        obtain ⟨b', hb', hover⟩ := h
        rcases mem_cons.mp hb' with rfl | hb'
        · omega
        · rw [hwalk]
          exact ih ⟨b', hb', hover⟩ want'
      · exact hpanics (Nat.not_le.mp hfits)

/-- Otherwise it ends as the chain of trunk pages does. -/
theorem walkFreelistPtrmap_ends
    (h : ∀ b ∈ (s.trunkPages guard trunk).1, 8 + 4 * leafCountOf b ≤ s.wp.pageSize) (want : WantMap)
    : (s.trunkPages guard trunk).2.Gives s (s.walkFreelistPtrmap guard trunk want) := by
  induction guard generalizing trunk want with
  | zero =>
    unfold trunkPages walkFreelistPtrmap
    by_cases htrunk : trunk = 0
    · rw [if_pos htrunk, if_pos htrunk]
      exact ⟨want, rfl⟩
    · rw [if_neg htrunk, if_neg htrunk]
      rfl
  | succ guard ih =>
    by_cases htrunk : trunk = 0
    · unfold trunkPages walkFreelistPtrmap
      rw [if_pos htrunk, if_pos htrunk]
      exact ⟨want, rfl⟩
    cases hread : s.readPage trunk with
    | error e =>
      unfold trunkPages walkFreelistPtrmap
      rw [if_neg htrunk, if_neg htrunk, hread]
      rfl
    | ok b =>
      obtain ⟨next, hpages, hgoes, -⟩ := walkFreelistPtrmap_step sized htrunk hread want
      rw [hpages] at h ⊢
      obtain ⟨want', hwalk⟩ := hgoes (h b mem_cons_self)
      rw [hwalk]
      exact ih (fun b' hb' => h b' (mem_cons_of_mem _ hb')) want'

end Walk

theorem trunkPages_isReturned {e : Error}
    (h : (s.trunkPages guard trunk).2 = .unreadable e) : e.isReturned = true := by
  induction guard generalizing trunk with
  | zero =>
    unfold trunkPages at h
    by_cases htrunk : trunk = 0
    · simp [htrunk] at h
    · simp [htrunk] at h
  | succ guard ih =>
    unfold trunkPages at h
    split at h
    · cases h
    split at h
    · next hread =>
      cases h
      exact readPage_isReturned hread
    · exact ih h

/-- A walk over trunk pages that hold what they declare is safe exactly if its end is. -/
theorem TrunkEnd.Gives.safe_iff {outcome : Result WantMap}
    (h : s.walked.2.Gives s outcome) (hcap : s.wp.header.freelistCount.toNat + 8 < 2 ^ 32)
    : WalksSafely s outcome
      ↔ (s.walked.2 = .tooMany → s.wp.header.freelistCount.toNat + 9 < 2 ^ 32)
        ∧ ((∃ b ∈ s.walked.1, ¬ s.Intact b) → s.walked.2.Corrupt) := by
  cases hfin : s.walked.2 with
  | done =>
    rw [hfin] at h
    obtain ⟨want, rfl⟩ := h
    refine ⟨fun hsafe => ⟨(fun heq => nomatch heq), fun hdamaged => ?_⟩,
      fun hcan => ⟨(fun e heq => nomatch heq), fun hdamaged => ?_⟩⟩
    · obtain ⟨msg, heq⟩ := hsafe.reported hdamaged
      cases heq
    · cases hcan.2 hdamaged
  | unreadable e =>
    rw [hfin] at h
    cases h
    refine ⟨fun hsafe => ⟨(fun heq => nomatch heq), fun hdamaged => ?_⟩,
      fun hcan => ⟨fun e' heq => ?_, fun hdamaged => ?_⟩⟩
    · obtain ⟨msg, heq⟩ := hsafe.reported hdamaged
      cases heq
      exact .unreadable msg
    · cases heq
      exact trunkPages_isReturned hfin
    · cases hcan.2 hdamaged with
      | unreadable msg => exact ⟨msg, rfl⟩
  | tooMany =>
    have hnat : (s.wp.header.freelistCount + 8).toNat = s.wp.header.freelistCount.toNat + 8 := by
      exact Nat.mod_eq_of_lt hcap
    rw [hfin] at h
    by_cases hfits : s.wp.header.freelistCount.toNat + 9 < 2 ^ 32
    · have hadd : checkedAdd (s.wp.header.freelistCount + 8) 1
          = .ok (s.wp.header.freelistCount + 8 + 1) := if_pos (by rw [hnat]; exact hfits)
      have hrun : outcome = .error (.corrupt "freelist trunk cycle") := by
        rw [h, hadd]
        rfl
      rw [hrun]
      refine ⟨fun _ => ⟨fun _ => hfits, fun _ => .tooMany⟩, fun _ =>
        ⟨fun e heq => ?_, fun _ => ⟨_, rfl⟩⟩⟩
      cases heq
      rfl
    have hadd : checkedAdd (s.wp.header.freelistCount + 8) 1
        = .error (.panic "attempt to add with overflow") := if_neg (by rw [hnat]; exact hfits)
    have hrun : outcome = .error (.panic "attempt to add with overflow") := by
      rw [h, hadd]
      rfl
    rw [hrun]
    exact ⟨fun hsafe => absurd (hsafe.returned _ rfl) Bool.false_ne_true,
      fun hcan => absurd (hcan.1 rfl) hfits⟩

/-- The walk is safe exactly on the freelists described by `CanWalk`. -/
theorem freelistPtrmap_safe_iff (sized : s.Sized) (want : WantMap)
    : WalksSafely s (s.freelistPtrmap want) ↔ s.CanWalk := by
  unfold freelistPtrmap
  by_cases hcap : s.wp.header.freelistCount.toNat + 8 < 2 ^ 32
  · have hadd : checkedAdd s.wp.header.freelistCount 8 = .ok (s.wp.header.freelistCount + 8) :=
      if_pos hcap
    have hnat : (s.wp.header.freelistCount + 8).toNat = s.wp.header.freelistCount.toNat + 8 := by
      exact Nat.mod_eq_of_lt hcap
    rw [hadd, except_ok_bind, hnat]
    by_cases hroom : ∀ b ∈ s.walked.1, 8 + 4 * leafCountOf b ≤ s.wp.pageSize
    · rw [(walkFreelistPtrmap_ends sized hroom want).safe_iff hcap]
      exact ⟨fun h => ⟨hcap, hroom, h.1, h.2⟩, fun h => ⟨h.counter, h.reported⟩⟩
    obtain ⟨b, hb, hover⟩ : ∃ b ∈ s.walked.1, s.wp.pageSize < 8 + 4 * leafCountOf b := by
      simpa using hroom
    obtain ⟨what, hrun⟩ := walkFreelistPtrmap_panics sized ⟨b, hb, hover⟩ want
    rw [hrun]
    exact ⟨fun h => absurd (h.returned _ rfl) Bool.false_ne_true, fun h => absurd h.room hroom⟩
  · have hadd : checkedAdd s.wp.header.freelistCount 8
        = .error (.panic "attempt to add with overflow") := if_neg hcap
    rw [hadd]
    exact ⟨fun h => absurd (h.returned _ rfl) Bool.false_ne_true, fun h => absurd h.cap hcap⟩

/-- For every freelist and every content of its trunk pages: when the calls do not panic, hand out
pages of the file only and report a damaged trunk page.
-/
theorem corruptFreelist_surfaces_iff {s s' : PagerState} (hlock : acquireWriteIntent s = .ok () s')
    (sized : s'.Sized) (page : UInt32) (want : WantMap)
    : (AllocatesSafely s' (allocatePage s) ↔ s'.CanAllocate)
      ∧ (FreesSafely s' (freePage page s) ↔ s'.CanFree)
      ∧ (WalksSafely s' (s'.freelistPtrmap want) ↔ s'.CanWalk) :=
  ⟨allocatePage_safe_iff hlock sized, freePage_safe_iff hlock sized page,
    freelistPtrmap_safe_iff sized want⟩

def trunkPage (count leaf : UInt32) : Bytes :=
  u32ToBytes 0 ++ u32ToBytes count ++ u32ToBytes leaf ++ zeroPage 500

/-- A database of three pages of 512 bytes whose freelist is the trunk page 2. -/
def trunkPager (count leaf : UInt32) : PagerState where
  vfs := emptyVfs
  wp := {
    WritePager.fresh { newHeader 512 .none with freelistTrunk := 2, freelistCount := 1 } 0 3 true
      false none with
    overlay := (∅ : Overlay).insert 2 (trunkPage count leaf)
    held := .reserved }

theorem trunkPager_sized (count leaf : UInt32) : (trunkPager count leaf).Sized := by
  refine ⟨fun n b hb => ?_, Nat.le_refl 512, Nat.le_refl 512⟩
  have hread : (trunkPager count leaf).readPage n
      = if n = 2 then .ok (trunkPage count leaf)
        else .error (.corrupt s!"page {n} out of range") := by
    unfold PagerState.readPage trunkPager
    rw [Std.TreeMap.getElem?_insert]
    by_cases hn : n = 2
    · rw [if_pos (by simp [hn]), if_pos hn]
    have hrange : n = 0 ∨ 0 < n := by
      rw [UInt32.pos_iff_ne_zero]
      exact Classical.em _
    rw [if_neg (by simpa using Ne.symm hn), if_neg hn]
    simp [fresh, hrange]
  rw [hread] at hb
  split at hb
  · cases hb
    simp [trunkPage, trunkPager, fresh, newHeader, zeroPage_length]
  · cases hb

/-- The theorem at a freelist that lists page 3. -/
theorem corruptFreelist_surfaces_iff_three
    : AllocatesSafely (trunkPager 1 3) (allocatePage (trunkPager 1 3))
      ↔ (trunkPager 1 3).CanAllocate :=
  (corruptFreelist_surfaces_iff (acquireWriteIntent_held (le_refl _)) (trunkPager_sized 1 3) 3 ∅).1

def handedOut : EStateM.Result Error PagerState UInt32 → Result UInt32
  | .ok n _ => .ok n
  | .error e _ => .error e

/-- Page 0 and a page beyond the end of the file are handed out, a leaf count of 127 makes the
allocation and the walk panic, and freeing a page does not report it.
-/
theorem corruptFreelist_unreported
    : handedOut (allocatePage (trunkPager 1 0)) = .ok 0
      ∧ handedOut (allocatePage (trunkPager 1 9)) = .ok 9
      ∧ handedOut (allocatePage (trunkPager 127 3)) = .error (.panic "index out of bounds")
      ∧ (match freePage 3 (trunkPager 127 3) with | .ok _ _ => true | .error _ _ => false) = true
      ∧ (match (trunkPager 127 3).freelistPtrmap ∅ with
          | .ok _ => none
          | .error e => some e) = some (.panic "index out of bounds") := by
  decide +kernel

end GraphiteSql
