import GraphiteSql.Pager.Allocation
import Mathlib.Data.Set.Insert

/-! The pager as the b-tree writers see it: inside a write transaction they are handed pages
that nobody uses, and the pages they do not touch keep their contents.
-/

namespace GraphiteSql

open Lib List UInt32

variable {s t : PagerState} {kept : Set UInt32} {n : UInt32}

/-- A pager inside a write transaction with a sound freelist. The pages in `used` are in range
and not free.
-/
structure Workspace (s : PagerState) (used : Set UInt32) : Prop where
  locked : .reserved ≤ s.wp.held
  paged : s.Paged
  pageSize : s.usableSize + s.wp.header.reservedSpace.toNat = s.wp.pageSize
  maximum : s.wp.pageSize ≤ 65536
  minimum : 257 ≤ s.usableSize
  bounds : ∀ n ∈ used, 0 < n ∧ n ≤ s.wp.pageCount
  freelist : ∃ chain, Freelist s chain ∧
    ∀ n ∈ chainPages chain, 0 < n ∧ n ≤ s.wp.pageCount ∧ n ∉ used

/-- A later state of the same transaction in which the pages in `kept` read as before. -/
structure Edited (s t : PagerState) (kept : Set UInt32) : Prop where
  pageSize : t.wp.pageSize = s.wp.pageSize
  usableSize : t.usableSize = s.usableSize
  reservedSpace : t.wp.header.reservedSpace = s.wp.header.reservedSpace
  frame : ∀ n ∈ kept, t.readPage n = s.readPage n

def OutOfPages (e : Error) (t : PagerState) : Prop :=
  e = .panic "attempt to add with overflow" ∧ t.wp.pageCount.toNat = 2 ^ 32 - 1

theorem Edited.refl (s : PagerState) (kept : Set UInt32) : Edited s s kept :=
  ⟨rfl, rfl, rfl, fun _ _ => rfl⟩

theorem Edited.mono {kept' : Set UInt32} (h : Edited s t kept)
    (hsub : kept' ⊆ kept) : Edited s t kept' :=
  { h with frame := fun n hn => h.frame n (hsub hn) }

theorem Edited.trans {u : PagerState} (h : Edited s t kept)
    (h' : Edited t u kept) : Edited s u kept :=
  ⟨h'.pageSize.trans h.pageSize, h'.usableSize.trans h.usableSize,
    h'.reservedSpace.trans h.reservedSpace, fun n hn => (h'.frame n hn).trans (h.frame n hn)⟩

theorem FreelistEdit.edited {pages : List UInt32}
    (h : FreelistEdit s t pages) (hkept : ∀ n ∈ kept, n ∉ pages) : Edited s t kept := by
  refine ⟨h.pageSize, h.usableSize, ?_, fun n hn => h.frame n (hkept n hn)⟩
  obtain ⟨_, _, _, rfl⟩ := h.shape
  rfl

theorem Extended.edited (h : Extended s t n)
    (hkept : ∀ m ∈ kept, m ≤ s.wp.pageCount) : Edited s t kept := by
  have hframe : ∀ m ∈ kept, t.readPage m = s.readPage m := fun m hm => h.frame m (hkept m hm)
  obtain ⟨overlay, rfl⟩ := h.shape
  exact ⟨rfl, rfl, rfl, hframe⟩

namespace Workspace

variable {used used' : Set UInt32}

section

variable (h : Workspace s used)

include h

theorem mono (hsub : used' ⊆ used) : Workspace s used' := by
  obtain ⟨chain, hfreelist, hfree⟩ := h.freelist
  refine { h with
    bounds := fun n hn => h.bounds n (hsub hn)
    freelist := ⟨chain, hfreelist, fun n hn => ?_⟩ }
  obtain ⟨hlo, hhi, hunused⟩ := hfree n hn
  exact ⟨hlo, hhi, fun hn' => hunused (hsub hn')⟩

/-- Moving pages between the freelist and the pages in use. -/
theorem edit {pages : List UInt32} (hedit : FreelistEdit s t pages)
    (bounds : ∀ n ∈ used', 0 < n ∧ n ≤ s.wp.pageCount)
    (freelist : ∃ chain, Freelist t chain ∧
      ∀ n ∈ chainPages chain, 0 < n ∧ n ≤ s.wp.pageCount ∧ n ∉ used')
    : Workspace t used' := by
  have hshape := hedit.shape
  refine ⟨hedit.held ▸ h.locked, hedit.paged h.paged, ?_, hedit.pageSize ▸ h.maximum,
    hedit.usableSize ▸ h.minimum, ?_, ?_⟩
  · rw [hedit.pageSize, ← h.pageSize]
    obtain ⟨_, _, _, rfl⟩ := hshape
    rfl
  · rwa [hedit.pageCount]
  · rwa [hedit.pageCount]

theorem zero_notMem : (0 : UInt32) ∉ used := fun h0 => by
  have := (h.bounds 0 h0).1
  exact absurd this (by decide)

theorem usable_le : s.usableSize ≤ s.wp.pageSize := by
  have := h.pageSize
  omega

theorem extend (hnone : Freelist s [])
    (hext : Extended s t n) : n ∉ used ∧ Workspace t (insert n used) := by
  have hgrows := lt_iff_toNat_lt.mp hext.grows
  have hpaged := hext.paged h.paged
  obtain ⟨overlay, rfl⟩ := hext.shape
  refine ⟨fun hn => ?_, { h with
    paged := hpaged
    bounds := fun m hm => ?_
    freelist := ⟨[], ⟨?_, hnone.nodup, hnone.count⟩, nofun⟩ }⟩
  · exact absurd (le_iff_toNat_le.mp (h.bounds n hn).2) (by omega)
  · rcases Set.mem_insert_iff.mp hm with rfl | hm
    · exact ⟨UInt32.lt_of_le_of_lt UInt32.zero_le hext.grows, UInt32.le_refl _⟩
    · obtain ⟨hlo, hhi⟩ := h.bounds m hm
      exact ⟨hlo, UInt32.le_of_lt (UInt32.lt_of_le_of_lt hhi hext.grows)⟩
  · exact hnone.trunks.congr nofun rfl

end

end Workspace

theorem extendFile_outOfPages (room : Nat) (hroom : s.wp.pageCount.toNat + room = 2 ^ 32 - 1)
    : Runs (extendFile room) s (fun _ _ => True) OutOfPages := by
  induction room generalizing s with
  | zero => exact ⟨rfl, hroom⟩
  | succ room ih =>
    have hcount := @grow_pageCount s (by omega)
    unfold extendFile
    rw [runs_get_bind]
    dsimp only
    split
    · exact ih (s := s.grow) (by omega)
    · trivial

theorem extendFile_zeroed (room : Nat) (hroom : s.wp.pageCount.toNat + room < 2 ^ 32)
    : Runs (extendFile room) s (fun n t => t.readPage n = .ok (zeroPage s.wp.pageSize))
      (fun _ _ => True) := by
  induction room generalizing s with
  | zero => trivial
  | succ room ih =>
    have hcount := @grow_pageCount s (by omega)
    unfold extendFile
    rw [runs_get_bind]
    dsimp only
    split
    · exact ih (s := s.grow) (by omega)
    · show s.grow.readPage _ = _
      rw [PagerState.grow, readPage_insert, if_pos rfl]

section Calls

variable {used : Set UInt32} (h : Workspace s used)

include h

/-- A page that is not in use is handed out, zeroed, or there is no page number left. -/
theorem allocatePage_workspace
    : Runs allocatePage s
      (fun n t => n ∉ used ∧ Workspace t (insert n used) ∧ Edited s t used ∧
        t.readPage n = .ok (zeroPage s.wp.pageSize))
      OutOfPages := by
  obtain ⟨chain, hfreelist, hfree⟩ := h.freelist
  have hsize := h.pageSize
  have hmin := h.minimum
  unfold allocatePage
  rw [runs_bind]
  refine .of_ok (acquireWriteIntent_held h.locked) ?_
  rw [runs_get_bind]
  split
  · next hsome =>
    obtain ⟨n, t, chain', hrun, hreused⟩ := allocFromFreelist_reuses h.locked h.paged (by omega)
      hfreelist (hfreelist.ne_nil_iff.mpr hsome)
    have hnodup : (n :: chainPages chain').Nodup := hreused.perm.nodup_iff.mp hfreelist.nodup
    have hn := hfree n (hreused.perm.mem_iff.mpr mem_cons_self)
    refine .of_ok hrun ⟨hn.2.2, h.edit hreused.edit (fun m hm => ?_) ⟨chain', hreused.freelist,
      fun m hm => ?_⟩, hreused.edit.edited fun m hm hin => (hfree m hin).2.2 hm, hreused.zeroed⟩
    · rcases Set.mem_insert_iff.mp hm with rfl | hm
      · exact ⟨hn.1, hn.2.1⟩
      · exact h.bounds m hm
    obtain ⟨hlo, hhi, hunused⟩ := hfree m (hreused.perm.mem_iff.mpr (mem_cons_of_mem _ hm))
    refine ⟨hlo, hhi, fun hin => ?_⟩
    rcases Set.mem_insert_iff.mp hin with rfl | hin
    · exact (nodup_cons.mp hnodup).1 hm
    · exact hunused hin
  · next hempty =>
    obtain rfl : chain = [] := not_not.mp (mt hfreelist.ne_nil_iff.mp hempty)
    have hlt := s.wp.pageCount.toNat_lt
    have hroom : s.wp.pageCount.toNat + (2 ^ 32 - 1 - s.wp.pageCount.toNat) = 2 ^ 32 - 1 := by omega
    refine (((extendFile_extends _ (by omega)).and (extendFile_zeroed _ (by omega))).and
      (extendFile_outOfPages _ hroom)).mono (fun n t hext => ?_) (fun _ _ hfull => hfull.2)
    obtain ⟨⟨hext, hzero⟩, -⟩ := hext
    obtain ⟨hfresh, hwork⟩ := h.extend hfreelist hext
    exact ⟨hfresh, hwork, hext.edited fun m hm => (h.bounds m hm).2, hzero⟩

theorem writePage_workspace (hn : n ∈ used) {b : Bytes} (hb : b.length = s.wp.pageSize)
    : ∃ t, writePage n b s = .ok () t ∧ Workspace t used ∧ t.readPage n = .ok b ∧
      ∀ kept, n ∉ kept → Edited s t kept := by
  obtain ⟨t, hrun, hedit, hheader, hread⟩ := writePage_edits h.locked n hb
  obtain ⟨chain, hfreelist, hfree⟩ := h.freelist
  refine ⟨t, hrun, h.edit hedit h.bounds ⟨chain, ⟨?_, hfreelist.nodup, ?_⟩, hfree⟩, hread,
    fun kept hkept => hedit.edited fun m hm hin => ?_⟩
  · rw [hheader]
    refine hedit.trunks hfreelist.trunks fun m hm hin => ?_
    rw [mem_singleton.mp hin] at hm
    exact (hfree n hm).2.2 hn
  · rw [hheader, hfreelist.count]
  · rw [mem_singleton.mp hin] at hm
    exact hkept hm

end Calls

end GraphiteSql
