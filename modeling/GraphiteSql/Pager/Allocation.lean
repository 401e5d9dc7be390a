import GraphiteSql.Pager.Freelist
import GraphiteSql.Pager.WalRules
import Mathlib.Data.List.Nodup
import Mathlib.Data.List.Perm.Subperm

/-! Allocating and freeing pages of a new database. Whatever the calls, the freelist holds the
pages that were freed and not handed out again, and a page that is handed out was not in use.
-/

namespace GraphiteSql

open Lib List UInt32 PagerState

variable {s t : PagerState} {chain chain' : List (UInt32 × List UInt32)} {ps n : UInt32}
  {mode : AutoVacuum}

-- Extending the file

/-- `t` is `s` grown to `n` pages; the pages it skips are reserved. -/
structure Extended (s t : PagerState) (n : UInt32) : Prop where
  shape : ∃ overlay, t = s.restage s.wp.header overlay n
  grows : s.wp.pageCount < n
  frame : ∀ m, m ≤ s.wp.pageCount → t.readPage m = s.readPage m
  paged : s.Paged → t.Paged
  staged : ∀ m, s.wp.overlay.contains m = true → t.wp.overlay.contains m = true
  skipped : ∀ m, s.wp.pageCount < m → m < n → s.autoVacuumOn ∧ s.isReservedLayoutPage m
  unreserved : s.autoVacuumOn → ¬ s.isReservedLayoutPage n

theorem Extended.next (h : Extended s t n) (hauto : ¬ s.autoVacuumOn) : n = s.wp.pageCount + 1 := by
  have hgrows := lt_iff_toNat_lt.mp h.grows
  have hlt := n.toNat_lt
  have hnext : (s.wp.pageCount + 1).toNat = s.wp.pageCount.toNat + 1 := by
    rw [UInt32.toNat_add, toNat_one]
    omega
  by_contra hne
  have hne' : n.toNat ≠ (s.wp.pageCount + 1).toNat := mt UInt32.toNat_inj.mp hne
  refine hauto (h.skipped (s.wp.pageCount + 1) ?_ ?_).1
  · rw [lt_iff_toNat_lt]
    omega
  · rw [lt_iff_toNat_lt]
    omega

/-- All `room` page numbers after the last page are reserved. -/
def PagerState.Full (s : PagerState) (room : Nat) : Prop :=
  ∀ m, s.wp.pageCount < m → m.toNat ≤ s.wp.pageCount.toNat + room →
    s.autoVacuumOn ∧ s.isReservedLayoutPage m

section Grow

def PagerState.grow (s : PagerState) : PagerState :=
  s.restage s.wp.header (s.wp.overlay.insert (s.wp.pageCount + 1) (zeroPage s.wp.pageSize))
    (s.wp.pageCount + 1)

theorem grow_paged (h : s.Paged) : s.grow.Paged := by
  intro m b hb
  rw [grow, readPage_insert] at hb
  split at hb
  · cases hb
    exact zeroPage_length _
  · exact h m b hb

theorem grow_staged {m : UInt32} (h : s.wp.overlay.contains m = true)
    : s.grow.wp.overlay.contains m = true := by
  simp [grow, restage, Std.TreeMap.contains_insert, h]

variable (hroom : s.wp.pageCount.toNat + 1 < 2 ^ 32)

include hroom

theorem grow_pageCount : s.grow.wp.pageCount.toNat = s.wp.pageCount.toNat + 1 := by
  exact Nat.mod_eq_of_lt hroom

theorem grow_frame {m : UInt32} (hm : m ≤ s.wp.pageCount) : s.grow.readPage m = s.readPage m := by
  have hcount := grow_pageCount hroom
  rw [grow, readPage_insert, if_neg]
  rintro rfl
  rw [le_iff_toNat_le] at hm
  exact absurd hm (by rw [show (s.wp.pageCount + 1).toNat = _ from hcount]; omega)

theorem Extended.one (hopen : ¬ (s.autoVacuumOn ∧ s.isReservedLayoutPage (s.wp.pageCount + 1)))
    : Extended s s.grow (s.wp.pageCount + 1) := by
  have hcount := grow_pageCount hroom
  refine ⟨⟨_, rfl⟩, ?_, fun m => grow_frame hroom, grow_paged, fun m => grow_staged, ?_, ?_⟩
  · exact Nat.lt_of_lt_of_eq (Nat.lt_succ_self _) hcount.symm
  · intro m hlo hhi
    rw [lt_iff_toNat_lt] at hlo hhi
    exact absurd hhi (by rw [show (s.wp.pageCount + 1).toNat = _ from hcount]; omega)
  · exact fun hauto hres => hopen ⟨hauto, hres⟩

/-- The next page is reserved and the file grows beyond it. -/
theorem Extended.skip (hskip : s.autoVacuumOn ∧ s.isReservedLayoutPage (s.wp.pageCount + 1))
    (h : Extended s.grow t n)
    : Extended s t n := by
  have hcount := grow_pageCount hroom
  have hbelow : s.wp.pageCount < s.grow.wp.pageCount := by
    rw [lt_iff_toNat_lt, hcount]
    exact Nat.lt_succ_self _
  refine ⟨?_, UInt32.lt_trans hbelow h.grows, fun m hm => ?_, h.paged ∘ grow_paged,
    fun m hm => h.staged m (grow_staged hm), fun m hlo hhi => ?_, h.unreserved⟩
  · obtain ⟨overlay, rfl⟩ := h.shape
    exact ⟨overlay, rfl⟩
  · rw [h.frame m (UInt32.le_trans hm (UInt32.le_of_lt hbelow)), grow_frame hroom hm]
  rcases eq_or_ne m (s.wp.pageCount + 1) with rfl | hne
  · exact hskip
  refine h.skipped m ?_ hhi
  rw [lt_iff_toNat_lt] at hlo ⊢
  have hne' : m.toNat ≠ s.grow.wp.pageCount.toNat := fun heq => hne (UInt32.toNat_inj.mp heq)
  omega

theorem PagerState.Full.skip (hskip : s.autoVacuumOn ∧ s.isReservedLayoutPage (s.wp.pageCount + 1))
    {room : Nat} (h : s.grow.Full room)
    : s.Full (room + 1) := by
  intro m hlo hhi
  have hcount := grow_pageCount hroom
  rcases eq_or_ne m (s.wp.pageCount + 1) with rfl | hne
  · exact hskip
  · have hne' : m.toNat ≠ s.grow.wp.pageCount.toNat := fun heq => hne (UInt32.toNat_inj.mp heq)
    rw [lt_iff_toNat_lt] at hlo
    exact h m (lt_iff_toNat_lt.mpr (by omega)) (by omega)

end Grow

/-- The page count grows by one per round until the page is not reserved. -/
theorem extendFile_extends (room : Nat) (hroom : s.wp.pageCount.toNat + room < 2 ^ 32)
    : Runs (extendFile room) s (fun n t => Extended s t n)
      (fun e _ => (∃ what, e = .panic what) ∧ s.Full room) := by
  induction room generalizing s with
  | zero =>
    refine ⟨⟨_, rfl⟩, fun m hlo hhi => ?_⟩
    rw [lt_iff_toNat_lt] at hlo
    omega
  | succ room ih =>
    have hone : s.wp.pageCount.toNat + 1 < 2 ^ 32 := by omega
    have hcount := grow_pageCount hone
    unfold extendFile
    rw [runs_get_bind]
    dsimp only
    split
    · next hskip =>
      refine (ih (s := s.grow) (by omega)).mono (fun n t h => .skip hone hskip h) (fun e t h => ?_)
      exact ⟨h.1, .skip hone hskip h.2⟩
    · next hopen => exact .one hone hopen

-- Runs

/-- The pages handed out and the pages given back. -/
structure Ledger where
  allocated : List UInt32
  freed : List UInt32

variable {l : Ledger}

namespace Ledger

def new : Ledger := ⟨[1], []⟩

def allocate (l : Ledger) (n : UInt32) : Ledger :=
  ⟨n :: l.allocated, l.freed.erase n⟩

def free (l : Ledger) (n : UInt32) : Ledger :=
  ⟨l.allocated.erase n, n :: l.freed⟩

def pages (l : Ledger) : List UInt32 :=
  l.allocated ++ l.freed

theorem allocate_reused (h : n ∈ l.freed)
    : (l.allocate n).pages.Perm l.pages :=
  (perm_middle.symm.trans ((perm_cons_erase h).symm.append_left _))

theorem allocate_fresh (n : UInt32) (h : l.freed = [])
    : (l.allocate n).pages = n :: l.pages := by
  unfold pages allocate
  rw [h]
  rfl

theorem free_perm (h : n ∈ l.allocated)
    : (l.free n).pages.Perm l.pages :=
  perm_middle.trans ((perm_cons_erase h).symm.append_right _)

end Ledger

/-- Calls of `allocate_page`, and of `free_page` on pages in use other than page 1, one after
another. A call may be refused; a panic ends the run.
-/
inductive Allocations (start : PagerState) : PagerState → Ledger → Prop where
  | start : Allocations start start .new
  | allocate {s t : PagerState} {l : Ledger} {n : UInt32} (before : Allocations start s l)
      (call : allocatePage s = .ok n t)
      : Allocations start t (l.allocate n)
  | free {s t : PagerState} {l : Ledger} {n : UInt32} (before : Allocations start s l)
      (inUse : n ∈ l.allocated) (notFirst : n ≠ 1) (call : freePage n s = .ok () t)
      : Allocations start t (l.free n)
  | refuseAllocate {s t : PagerState} {l : Ledger} {e : Error} (before : Allocations start s l)
      (call : allocatePage s = .error e t) (noPanic : ∀ what, e ≠ .panic what)
      : Allocations start t l
  | refuseFree {s t : PagerState} {l : Ledger} {e : Error} {n : UInt32}
      (before : Allocations start s l) (inUse : n ∈ l.allocated) (notFirst : n ≠ 1)
      (call : freePage n s = .error e t)
      : Allocations start t l

/-- The ledger accounts for the pages of `s`, the freelist for the freed ones. -/
structure Balanced (ps : UInt32) (mode : AutoVacuum) (s : PagerState) (l : Ledger) : Prop where
  wal : s.wp.wal = none
  pageSize : s.wp.pageSize = ps.toNat
  usableSize : s.usableSize = ps.toNat
  auto : s.autoVacuumOn = true ↔ mode ≠ .none
  paged : s.Paged
  dirty : s.wp.overlay.contains 1 = true
  freelist : ∃ chain, Freelist s chain ∧ (chainPages chain).Perm l.freed
  nodup : l.pages.Nodup
  bounds : ∀ n ∈ l.pages, 0 < n ∧ n ≤ s.wp.pageCount
  first : 1 ∈ l.allocated
  unreserved : mode ≠ .none → ∀ n ∈ l.pages, ¬ s.isReservedLayoutPage n
  complete : mode = .none → ∀ n, 0 < n → n ≤ s.wp.pageCount → n ∈ l.pages

namespace Balanced

variable {l' : Ledger}

section

variable (h : Balanced ps mode s l)

include h

theorem relock (hlocks : Relocked s t) : Balanced ps mode t l := by
  have hread : ∀ n, t.readPage n = s.readPage n := fun n => by
    rw [hlocks]
    rfl
  obtain ⟨chain, hfreelist, hperm⟩ := h.freelist
  rw [hlocks] at hread ⊢
  refine { h with
    paged := fun n b hb => h.paged n b (hread n ▸ hb)
    freelist := ⟨chain, ⟨?_, hfreelist.nodup, hfreelist.count⟩, hperm⟩ }
  exact hfreelist.trunks.congr (fun n _ => hread n) rfl

theorem rebalance {pages : List UInt32} (hedit : FreelistEdit s t pages)
    (hperm : l'.pages.Perm l.pages) (first : 1 ∈ l'.allocated)
    (freelist : ∃ chain, Freelist t chain ∧ (chainPages chain).Perm l'.freed)
    : Balanced ps mode t l' where
  wal := hedit.wal.trans h.wal
  pageSize := hedit.pageSize.trans h.pageSize
  usableSize := hedit.usableSize.trans h.usableSize
  auto := by rw [hedit.autoVacuumOn, h.auto]
  paged := hedit.paged h.paged
  dirty := hedit.staged 1 h.dirty
  freelist := freelist
  nodup := hperm.nodup_iff.mpr h.nodup
  bounds n hn := by
    rw [hedit.pageCount]
    exact h.bounds n (hperm.mem_iff.mp hn)
  first := first
  unreserved hmode n hn := by
    rw [hedit.isReservedLayoutPage]
    exact h.unreserved hmode n (hperm.mem_iff.mp hn)
  complete hmode n hlo hhi := by
    rw [hedit.pageCount] at hhi
    exact hperm.mem_iff.mpr (h.complete hmode n hlo hhi)

theorem reuse
    (hfreed : (chainPages chain).Perm l.freed) (hreused : Reused s t (chainPages chain) n chain')
    : n ∈ l.freed ∧ Balanced ps mode t (l.allocate n) := by
  have hperm := hfreed.symm.trans hreused.perm
  have hmem : n ∈ l.freed := hperm.mem_iff.mpr mem_cons_self
  refine ⟨hmem, h.rebalance hreused.edit (Ledger.allocate_reused hmem)
    (mem_cons_of_mem _ h.first) ⟨chain', hreused.freelist, ?_⟩⟩
  exact List.Perm.cons_inv (hperm.symm.trans (perm_cons_erase hmem))

theorem release (hfreed : (chainPages chain).Perm l.freed)
    (hreleased : Freed s t (chainPages chain) n chain') (hmem : n ∈ l.allocated) (hfirst : n ≠ 1)
    : Balanced ps mode t (l.free n) :=
  h.rebalance hreleased.edit (Ledger.free_perm hmem)
    ((mem_erase_of_ne hfirst.symm).mpr h.first)
    ⟨chain', hreleased.freelist, hreleased.perm.trans (hfreed.cons n)⟩

/-- With no free page the file grows. -/
theorem extend (hnone : l.freed = []) (hext : Extended s t n)
    : n ∉ l.pages ∧ Balanced ps mode t (l.allocate n) := by
  have hgrows := lt_iff_toNat_lt.mp hext.grows
  have hfresh : n ∉ l.pages := fun hn =>
    absurd (le_iff_toNat_le.mp (h.bounds n hn).2) (by omega)
  have hpages := Ledger.allocate_fresh n hnone
  obtain ⟨chain, hfreelist, hperm⟩ := h.freelist
  have hempty : chainPages chain = [] := by
    rw [hnone] at hperm
    exact hperm.eq_nil
  have hpaged := hext.paged h.paged
  have hdirty := hext.staged 1 h.dirty
  obtain ⟨overlay, rfl⟩ := hext.shape
  refine ⟨hfresh, { h with
    paged := hpaged
    dirty := hdirty
    freelist := ⟨chain, ⟨?_, hfreelist.nodup, hfreelist.count⟩, ?_⟩
    nodup := ?_
    bounds := fun m hm => ?_
    first := mem_cons_of_mem _ h.first
    unreserved := fun hmode m hm => ?_
    complete := fun hmode m hlo hhi => ?_ }⟩
  · exact hfreelist.trunks.congr (by simp [hempty]) rfl
  · rw [hempty]
    show List.Perm [] (l.freed.erase n)
    rw [hnone]
    exact .refl _
  · rw [hpages]
    exact nodup_cons.mpr ⟨hfresh, h.nodup⟩
  · rw [hpages, mem_cons] at hm
    rcases hm with rfl | hm
    · exact ⟨UInt32.lt_of_le_of_lt UInt32.zero_le hext.grows, UInt32.le_refl _⟩
    · obtain ⟨hlo, hhi⟩ := h.bounds m hm
      exact ⟨hlo, UInt32.le_of_lt (UInt32.lt_of_le_of_lt hhi hext.grows)⟩
  · rw [hpages, mem_cons] at hm
    rcases hm with rfl | hm
    · exact hext.unreserved (h.auto.mpr hmode)
    · exact h.unreserved hmode m hm
  rw [hpages, mem_cons]
  -- Without auto-vacuum no page is skipped.
  by_contra hnot
  rw [not_or] at hnot
  have habove : s.wp.pageCount < m := UInt32.not_le.mp fun hm => hnot.2 (h.complete hmode m hlo hm)
  have hskipped := hext.skipped m habove (UInt32.lt_of_le_of_ne hhi hnot.1)
  exact h.auto.mp hskipped.1 hmode

/-- Page numbers do not run out. -/
theorem freed_length (hn : n ∈ l.allocated) (hfirst : n ≠ 1)
    : l.freed.length + 1 < 2 ^ 32 := by
  have hsub : [1, n].Subperm l.allocated := by
    refine subperm_of_subset (by simp [hfirst.symm]) (by simp [h.first, hn])
  have hnodup : (l.pages.map UInt32.toNat).Nodup := h.nodup.map fun _ _ => UInt32.toNat_inj.mp
  have hrange : l.pages.map UInt32.toNat ⊆ range (2 ^ 32) := by
    intro k hk
    obtain ⟨m, -, rfl⟩ := mem_map.mp hk
    exact mem_range.mpr m.toNat_lt
  have hlength := (subperm_of_subset hnodup hrange).length_le
  have htwo := hsub.length_le
  rw [length_map, length_range, Ledger.pages, length_append] at hlength
  simp only [length_cons, length_nil] at htwo
  omega

/-- Taking the write lock changes nothing else. -/
theorem acquire
    : Runs acquireWriteIntent s
      (fun _ t => Relocked s t ∧ Balanced ps mode t l ∧ .reserved ≤ t.wp.held)
      (fun _ t => Balanced ps mode t l) := by
  have hdirty : ¬ s.wp.overlay.isEmpty := by
    rw [Std.TreeMap.isEmpty_eq_false_of_contains h.dirty]
    exact Bool.false_ne_true
  have hlocks := acquireWriteIntent_relocked h.wal hdirty s (Relocked.refl s)
  refine (hlocks.and (acquireWriteIntent_locked s)).mono (fun _ t ht => ?_) (fun _ t ht => ?_)
  · exact ⟨ht.1, h.relock ht.1, ht.2⟩
  · exact h.relock ht.1

end

end Balanced

/-- Where a page comes from that is handed out: the freelist, or the end of the file when there
is no free page.
-/
inductive Source (mode : AutoVacuum) (s : PagerState) (l : Ledger) (n : UInt32) : Prop where
  | reused (mem : n ∈ l.freed)
  | extended (noneFree : l.freed = []) (fresh : n ∉ l.pages) (above : s.wp.pageCount < n)
      (next : mode = .none → n = s.wp.pageCount + 1)

theorem Source.not_mem (h : Source mode s l n) (hbal : Balanced ps mode s l) : n ∉ l.allocated := by
  intro hn
  cases h with
  | reused mem => exact (nodup_append.mp hbal.nodup).2.2 n hn n mem rfl
  | extended noneFree fresh above next => exact fresh (mem_append_left _ hn)

section Calls

variable (h : Balanced ps mode s l) (hps : 512 ≤ ps.toNat)

include h hps

/-- A page that was not in use is handed out, or the pages run out. -/
theorem allocatePage_balanced
    : Runs allocatePage s
      (fun n t => Source mode s l n ∧ Balanced ps mode t (l.allocate n))
      (fun e t => (∃ what, e = .panic what) ∨ Balanced ps mode t l) := by
  refine h.acquire.bind (fun _ s' hs' => ?_) (fun _ _ => .inr)
  obtain ⟨hlocks, hs', locked⟩ := hs'
  obtain ⟨chain, hfreelist, hperm⟩ := hs'.freelist
  rw [runs_get_bind]
  split
  · next hsome =>
    obtain ⟨n, t, chain', hrun, hreused⟩ := allocFromFreelist_reuses locked hs'.paged
      (by rw [hs'.pageSize]; omega) hfreelist (hfreelist.ne_nil_iff.mpr hsome)
    obtain ⟨hmem, hbalanced⟩ := hs'.reuse hperm hreused
    exact .of_ok hrun ⟨.reused hmem, hbalanced⟩
  next hempty =>
  have hnil : chain = [] := not_not.mp (mt hfreelist.ne_nil_iff.mp hempty)
  have hnone : l.freed = [] := by
    rw [hnil] at hperm
    exact hperm.symm.eq_nil
  refine (extendFile_extends _ ?_).mono (fun n t hext => ?_) (fun _ _ hfull => .inl hfull.1)
  · have hlt := s'.wp.pageCount.toNat_lt
    omega
  obtain ⟨hfresh, hbalanced⟩ := hs'.extend hnone hext
  refine ⟨.extended hnone hfresh (hlocks.pageCount ▸ hext.grows) fun hmode => ?_, hbalanced⟩
  rw [← hlocks.pageCount]
  exact hext.next fun hauto => hs'.auto.mp hauto hmode

/-- A page in use is put on the freelist. -/
theorem freePage_balanced (hn : n ∈ l.allocated) (hfirst : n ≠ 1)
    : Runs (freePage n) s (fun _ t => Balanced ps mode t (l.free n))
      (fun _ t => Balanced ps mode t l) := by
  refine h.acquire.seq fun _ s' hs' => ?_
  obtain ⟨-, hs', locked⟩ := hs'
  obtain ⟨chain, hfreelist, hperm⟩ := hs'.freelist
  have hpages := nodup_append.mp h.nodup
  have hfresh : n ∉ chainPages chain := fun hin =>
    hpages.2.2 n hn n (hperm.mem_iff.mp hin) rfl
  have hzero : n ≠ 0 := fun hzero => by
    have hpos := (h.bounds n (mem_append_left _ hn)).1
    simp [hzero] at hpos
  have hcount : (chainPages chain).length + 1 < 2 ^ 32 := by
    rw [hperm.length_eq]
    exact h.freed_length hn hfirst
  obtain ⟨t, chain', hrun, hfreed⟩ := freePage_frees locked hfreelist hfresh hcount hs'.paged
    (by rw [hs'.pageSize]; omega) (by rw [hs'.usableSize, hs'.pageSize]) hzero
  unfold freePage at hrun
  rw [estate_bind_ok (acquireWriteIntent_held locked)] at hrun
  exact .of_ok hrun (hs'.release hperm hfreed hn hfirst)

end Calls

end GraphiteSql
