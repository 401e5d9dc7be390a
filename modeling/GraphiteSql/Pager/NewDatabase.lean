import GraphiteSql.Pager.Workspace

/-! The allocator from a new database on. The page that contains the lock byte is skipped with
auto-vacuum only: a file without it that grows that far gets the page handed out.
-/

namespace GraphiteSql

open Lib List UInt32 PagerState WritePager

variable {ps : UInt32} {mode : AutoVacuum} {s : PagerState} {l : Ledger} {journal walFile : Bool}
  {wp : WritePager}

theorem isReservedLayoutPage_one (s : PagerState) : s.isReservedLayoutPage 1 = false := by
  unfold isReservedLayoutPage isLockPage Ptrmap.isPtrmapPage
  rw [if_pos (by decide), Bool.false_or, Bool.and_eq_false_iff, toNat_one, decide_eq_false_iff_not,
    beq_eq_false_iff_ne]
  omega

/-- The pager of a new database: page 1 is staged. -/
theorem createAutoVacuum_ok (h : createAutoVacuum journal walFile ps mode = .ok wp)
    : 512 ≤ ps.toNat ∧ ∃ page1 : Bytes, page1.length = ps.toNat
      ∧ wp = { fresh (newHeader ps mode) 0 1 journal walFile none with
          overlay := (∅ : Overlay).insert 1 page1 } := by
  unfold createAutoVacuum at h
  split at h
  · cases h
  next hsize =>
  obtain ⟨page1, hpage1, h⟩ := except_bind_eq_ok.mp h
  obtain ⟨page1', hpage1', h⟩ := except_bind_eq_ok.mp h
  rw [Bool.or_eq_true, not_or, decide_eq_true_eq, UInt32.not_lt] at hsize
  refine ⟨hsize.1, page1', ?_, Except.ok.inj h.symm⟩
  rw [patch_length (orPanic_eq_ok.mp hpage1'), writeTo_length hpage1, zeroPage_length]

/-- A new database has page 1 and no free page. -/
theorem createAutoVacuum_balanced
    (h : createAutoVacuum journal walFile ps mode = .ok wp) (vfs : Vfs)
    : 512 ≤ ps.toNat ∧ Balanced ps mode ⟨vfs, wp⟩ .new := by
  obtain ⟨hps, page1, hlength, rfl⟩ := createAutoVacuum_ok h
  have hone : ∀ n ∈ Ledger.new.pages, n = 1 :=
    fun n hn => by simpa [Ledger.new, Ledger.pages] using hn
  refine ⟨hps, rfl, rfl, rfl, ?_, fun n b hb => ?_, ?_, ⟨[], ⟨.nil, .nil, rfl⟩, .refl _⟩, by decide,
    fun n hn => ?_, by decide, fun _ n hn => ?_, fun _ n hlo hhi => ?_⟩
  · show ((newHeader ps mode).largestRootPage != 0) = true ↔ _
    cases mode with
    | none => simp [newHeader]
    | full => simp [newHeader]
    | incremental => simp [newHeader]
  · unfold PagerState.readPage at hb
    rw [Std.TreeMap.getElem?_insert] at hb
    by_cases hn : n = 1
    · rw [if_pos (by simp [hn])] at hb
      cases hb
      exact hlength
    rw [if_neg (by simpa using Ne.symm hn)] at hb
    have hrange : n = 0 ∨ 0 < n := by
      rw [UInt32.pos_iff_ne_zero]
      exact Classical.em _
    simp [fresh, hrange] at hb
  · simp
  · rw [hone n hn]
    exact ⟨by decide, le_refl 1⟩
  · rw [hone n hn, isReservedLayoutPage_one]
    exact Bool.false_ne_true
  · have hone : n = 1 := by
      have hle : n.toNat ≤ 1 := le_iff_toNat_le.mp hhi
      have hlt : 0 < n.toNat := lt_iff_toNat_lt.mp hlo
      exact UInt32.toNat_inj.mp (by rw [toNat_one]; omega)
    rw [hone]
    decide

/-- The calls keep the ledger. -/
theorem Allocations.balanced {start : PagerState}
    (hps : 512 ≤ ps.toNat) (hstart : Balanced ps mode start .new) (h : Allocations start s l)
    : Balanced ps mode s l := by
  induction h with
  | start => exact hstart
  | allocate before call ih => exact ((allocatePage_balanced ih hps).ok call).2
  | free before inUse notFirst call ih => exact (freePage_balanced ih hps inUse notFirst).ok call
  | refuseAllocate before call noPanic ih =>
    rcases (allocatePage_balanced ih hps).error call with ⟨what, rfl⟩ | hb
    · exact absurd rfl (noPanic what)
    · exact hb
  | refuseFree before inUse notFirst call ih =>
    exact (freePage_balanced ih hps inUse notFirst).error call

namespace Balanced

variable (h : Balanced ps mode s l) {n : UInt32} (hn : n ∈ l.pages)

include h hn

theorem not_ptrmap (hmode : mode ≠ .none) : ¬ Ptrmap.isPtrmapPage ps.toNat n := by
  intro hmap
  refine h.unreserved hmode n hn ?_
  unfold isReservedLayoutPage
  rw [h.usableSize, hmap, Bool.true_or]

theorem not_lockPage (hmode : mode ≠ .none) (hfirst : n ≠ 1) : n.toNat ≠ lockPage ps.toNat := by
  intro hlock
  refine h.unreserved hmode n hn ?_
  have hpos : 0 < n.toNat := lt_iff_toNat_lt.mp (h.bounds n hn).1
  have hone : n.toNat ≠ 1 := fun hone => hfirst (UInt32.toNat_inj.mp hone)
  unfold isReservedLayoutPage isLockPage
  rw [h.pageSize]
  simp
  omega

omit hn in
/-- The page of the lock byte was handed out exactly when a file without auto-vacuum has grown
over it.
-/
theorem lockPage_iff
    : (∃ n ∈ l.pages, n ≠ 1 ∧ n.toNat = lockPage ps.toNat)
      ↔ mode = .none ∧ 1 < lockPage ps.toNat ∧ lockPage ps.toNat ≤ s.wp.pageCount.toNat := by
  constructor
  · rintro ⟨n, hn, hfirst, hlock⟩
    have hbounds := h.bounds n hn
    rw [le_iff_toNat_le] at hbounds
    have hone : n.toNat ≠ 1 := fun hone => hfirst (UInt32.toNat_inj.mp hone)
    have hpos : 0 < n.toNat := hbounds.1
    refine ⟨?_, by omega, by omega⟩
    by_contra hmode
    exact h.not_lockPage hn hmode hfirst hlock
  rintro ⟨hmode, hlarge, hgrown⟩
  have hlt := s.wp.pageCount.toNat_lt
  have hnat : (UInt32.ofNat (lockPage ps.toNat)).toNat = lockPage ps.toNat :=
    toNat_ofNat_of_lt' (by simp only [UInt32.size]; omega)
  refine ⟨.ofNat (lockPage ps.toNat), h.complete hmode _ ?_ ?_, fun hone => ?_, hnat⟩
  · rw [lt_iff_toNat_lt, hnat]
    exact Nat.lt_of_succ_lt hlarge
  · rwa [le_iff_toNat_le, hnat]
  · rw [hone] at hnat
    exact absurd hnat (Nat.ne_of_lt hlarge)

end Balanced

/-- In every run the freelist is a chain of the freed pages, and an allocation gives a page that
is not in use, not page 1 and no pointer-map page. It gives the page of the lock byte, if that was
not handed out before, exactly when the file has no auto-vacuum, has no free page and ends right
before that page.
-/
theorem allocations_account {journal walFile : Bool} {ps : UInt32} {mode : AutoVacuum}
    {wp : WritePager} (hnew : createAutoVacuum journal walFile ps mode = .ok wp) {vfs : Vfs}
    {s : PagerState} {l : Ledger} (hrun : Allocations ⟨vfs, wp⟩ s l)
    : (∃ chain, Freelist s chain ∧ (chainPages chain).Perm l.freed)
      ∧ (∀ n t, allocatePage s = .ok n t →
          n ∉ l.allocated ∧ n ≠ 1 ∧ (mode ≠ .none → ¬ Ptrmap.isPtrmapPage ps.toNat n)
          ∧ ((∀ m ∈ l.freed, m.toNat ≠ lockPage ps.toNat) →
              (n.toNat = lockPage ps.toNat
                ↔ mode = .none ∧ l.freed = [] ∧ s.wp.pageCount.toNat + 1 = lockPage ps.toNat)))
      ∧ ((∃ n ∈ l.pages, n ≠ 1 ∧ n.toNat = lockPage ps.toNat)
          ↔ mode = .none ∧ 1 < lockPage ps.toNat ∧ lockPage ps.toNat ≤ s.wp.pageCount.toNat) := by
  obtain ⟨hps, hstart⟩ := createAutoVacuum_balanced hnew vfs
  have hbal := hrun.balanced hps hstart
  refine ⟨hbal.freelist, fun n t hcall => ?_, hbal.lockPage_iff⟩
  obtain ⟨hsource, hafter⟩ := (allocatePage_balanced hbal hps).ok hcall
  have hmem : n ∈ (l.allocate n).pages := mem_append_left _ mem_cons_self
  have hunused := hsource.not_mem hbal
  have hfirst : n ≠ 1 := fun hone => hunused (hone ▸ hbal.first)
  refine ⟨hunused, hfirst, hafter.not_ptrmap hmem, fun hlock => ?_⟩
  cases hsource with
  | reused mem =>
    refine ⟨fun heq => absurd heq (hlock n mem), fun hrow => ?_⟩
    rw [hrow.2.1] at mem
    cases mem
  | extended noneFree fresh above next =>
    by_cases hmode : mode = .none
    · have hnat : n.toNat = s.wp.pageCount.toNat + 1 := by
        rw [lt_iff_toNat_lt, next hmode, UInt32.toNat_add] at above
        rw [next hmode, UInt32.toNat_add, toNat_one]
        omega
      rw [hnat]
      simp [hmode, noneFree]
    · exact ⟨fun heq => absurd heq (hafter.not_lockPage hmem hmode hfirst),
        fun hrow => absurd hrow.1 hmode⟩

/-- Any power of two from 512 on is accepted as page size. -/
theorem createAutoVacuum_succeeds (journal walFile : Bool) (mode : AutoVacuum)
    (hps : 512 ≤ ps) (hpow : isPowerOfTwo ps.toNat = true)
    : ∃ wp, createAutoVacuum journal walFile ps mode = .ok wp := by
  have hlen : 512 ≤ (zeroPage ps.toNat).length := by
    rw [zeroPage_length]
    exact le_iff_toNat_le.mp hps
  have hwrite : (newHeader ps mode).writeTo (zeroPage ps.toNat)
      = .ok ((newHeader ps mode).toBytes ++ (zeroPage ps.toNat).drop headerLen) :=
    DatabaseHeader.writeTo_ok (le_trans (by decide) hlen)
  obtain ⟨page1, hpage1⟩ : ∃ page1, patch ((newHeader ps mode).toBytes
      ++ (zeroPage ps.toNat).drop headerLen) headerLen (emptyLeafHeader ps) = some page1 := by
    refine ⟨_, patch_eq_some.mpr ⟨?_, rfl⟩⟩
    have hhead : headerLen = 100 := rfl
    have hbody : (emptyLeafHeader ps).length = 8 := by simp [emptyLeafHeader, u16ToBytes]
    rw [length_append, length_drop]
    omega
  unfold createAutoVacuum
  rw [if_neg (by simp [hpow, UInt32.not_lt.mpr hps])]
  dsimp only
  rw [hwrite, except_ok_bind, hpage1]
  exact ⟨_, rfl⟩

/-- Once the write lock is granted, with no free page and no auto-vacuum, the next page is handed
out.
-/
theorem allocatePage_next {s' : PagerState}
    (h : Balanced ps .none s l) (hlock : acquireWriteIntent s = .ok () s') (hnone : l.freed = [])
    (hroom : s.wp.pageCount.toNat + 1 < 2 ^ 32)
    : allocatePage s = .ok (s.wp.pageCount + 1) s'.grow ∧ .reserved ≤ s'.wp.held
      ∧ s'.wp.pageCount = s.wp.pageCount := by
  obtain ⟨hlocks, h', locked⟩ := h.acquire.ok hlock
  refine ⟨?_, locked, hlocks.pageCount⟩
  obtain ⟨chain, hfreelist, hperm⟩ := h'.freelist
  have hnil : chain = [] := by
    cases chain with
    | nil => rfl
    | cons head rest => simp [hnone, chainPages] at hperm
  have hauto : ¬ s'.autoVacuumOn := fun hauto => h'.auto.mp hauto rfl
  obtain ⟨room, hroom'⟩ : ∃ room, 2 ^ 32 - 1 - s'.wp.pageCount.toNat = room + 1 :=
    ⟨2 ^ 32 - 2 - s'.wp.pageCount.toNat, by rw [hlocks.pageCount]; omega⟩
  unfold allocatePage
  rw [estate_bind_ok hlock, estate_get_bind,
    if_neg (mt hfreelist.ne_nil_iff.mpr (not_not.mpr hnil)), hroom']
  unfold extendFile
  rw [estate_get_bind, if_neg (fun hskip => hauto hskip.1), ← hlocks.pageCount]
  rfl

/-- From a new database without auto-vacuum, allocations alone give one page after the other. -/
theorem allocations_reach {start first : PagerState} (hps : 512 ≤ ps.toNat)
    (hstart : Balanced ps .none start .new) (hone : start.wp.pageCount = 1)
    (hlock : acquireWriteIntent start = .ok () first) (k : Nat) (hk : k + 1 < 2 ^ 32)
    : ∃ s s' l, Allocations start s l ∧ l.freed = [] ∧ s.wp.pageCount.toNat = k + 1
      ∧ acquireWriteIntent s = .ok () s' := by
  induction k with
  | zero => exact ⟨start, first, .new, .start, rfl, by rw [hone]; rfl, hlock⟩
  | succ k ih =>
    obtain ⟨s, s', l, hrun, hnone, hcount, hlock⟩ := ih (by omega)
    obtain ⟨hcall, locked, hsame⟩ := allocatePage_next (hrun.balanced hps hstart) hlock hnone
      (by omega)
    refine ⟨s'.grow, s'.grow, l.allocate (s.wp.pageCount + 1), hrun.allocate hcall, ?_, ?_,
      acquireWriteIntent_held locked⟩
    · show l.freed.erase _ = []
      rw [hnone]
      rfl
    · rw [grow_pageCount (by rw [hsame]; omega), hsame, hcount]

def emptyVfs : Vfs where
  disk := { db := [], journal := [], wal := [] }
  trace := []
  locks := .default
  index := .new

/-- The first call gets the write lock. -/
theorem createAutoVacuum_locks (h : createAutoVacuum journal walFile ps mode = .ok wp)
    : wp.pageCount = 1 ∧ ∃ s, acquireWriteIntent ⟨emptyVfs, wp⟩ = .ok () s := by
  obtain ⟨-, page1, -, rfl⟩ := createAutoVacuum_ok h
  exact ⟨rfl, _, rfl⟩

/-- A new database under its write lock is a workspace that uses page 1. -/
theorem createAutoVacuum_workspace
    (h : createAutoVacuum journal walFile ps mode = .ok wp) (hmax : ps.toNat ≤ 65536)
    : ∃ s, acquireWriteIntent ⟨emptyVfs, wp⟩ = .ok () s ∧ Workspace s {1} := by
  obtain ⟨-, s, hlock⟩ := createAutoVacuum_locks h
  obtain ⟨hps, hstart⟩ := createAutoVacuum_balanced h emptyVfs
  obtain ⟨hlocks, hbal, locked⟩ := hstart.acquire.ok hlock
  have hreserved : s.wp.header.reservedSpace.toNat = 0 := by
    obtain ⟨-, page1, -, rfl⟩ := createAutoVacuum_ok h
    rw [hlocks]
    rfl
  obtain ⟨chain, hfreelist, hperm⟩ := hbal.freelist
  refine ⟨s, hlock, locked, hbal.paged, ?_, ?_, ?_, fun n hn => ?_, chain, hfreelist,
    fun n hn => ?_⟩
  · rw [hbal.usableSize, hbal.pageSize, hreserved, Nat.add_zero]
  · rw [hbal.pageSize]
    exact hmax
  · rw [hbal.usableSize]
    omega
  · rw [Set.mem_singleton_iff.mp hn]
    exact hbal.bounds 1 (mem_append_left _ hbal.first)
  · exact absurd (hperm.mem_iff.mp hn) not_mem_nil

/-- Allocates two pages, frees the first one and allocates again. -/
def reusePage : PagerM (UInt32 × UInt32) := do
  let page ← allocatePage
  let _ ← allocatePage
  freePage page
  return (page, ← allocatePage)

def reusedPage (wp : WritePager) : Option (UInt32 × UInt32) :=
  match reusePage ⟨emptyVfs, wp⟩ with
  | .ok pages _ => some pages
  | .error _ _ => none

/-- In a new database with pages of 512 bytes, a page that was freed is allocated again. -/
theorem allocations_account_two
    : ∃ wp s l t, createAutoVacuum true false 512 .none = .ok wp
      ∧ Allocations ⟨emptyVfs, wp⟩ s l ∧ 2 ∈ l.freed ∧ allocatePage s = .ok 2 t ∧ 2 ∉ l.allocated
      ∧ ∃ chain, Freelist s chain ∧ (chainPages chain).Perm l.freed := by
  have hvalue : (createAutoVacuum true false 512 .none).toOption.bind reusedPage = some (2, 2) := by
    decide +kernel
  obtain ⟨wp, hnew⟩ := createAutoVacuum_succeeds true false .none
    (show (512 : UInt32) ≤ 512 by decide) (by decide)
  rw [hnew, Except.toOption, Option.bind_some, reusedPage] at hvalue
  split at hvalue <;> cases hvalue
  rename_i t hreuse
  obtain ⟨page, s₁, hfirst, hreuse⟩ := estate_bind_eq_ok.mp hreuse
  obtain ⟨other, s₂, hsecond, hreuse⟩ := estate_bind_eq_ok.mp hreuse
  obtain ⟨_, s₃, hfree, hreuse⟩ := estate_bind_eq_ok.mp hreuse
  obtain ⟨again, s₄, hagain, hpair⟩ := estate_bind_eq_ok.mp hreuse
  cases hpair
  have hrun₁ : Allocations ⟨emptyVfs, wp⟩ s₁ _ := .allocate .start hfirst
  have hrun₂ := hrun₁.allocate hsecond
  have hrun₃ := hrun₂.free (mem_cons_of_mem _ mem_cons_self) (by decide) hfree
  obtain ⟨hchain, hpages, -⟩ := allocations_account hnew hrun₃
  exact ⟨wp, s₃, _, _, hnew, hrun₃, mem_cons_self, hagain, (hpages 2 _ hagain).1, hchain⟩

/-- In a new database with pages of 65536 bytes, the 16384th allocation hands out the page that
contains the lock byte.
-/
theorem allocatePage_lockByte
    : ∃ wp s l n t, createAutoVacuum true false 65536 .none = .ok wp
      ∧ Allocations ⟨emptyVfs, wp⟩ s l ∧ allocatePage s = .ok n t
      ∧ (n.toNat - 1) * 65536 ≤ pendingByte ∧ pendingByte < n.toNat * 65536 := by
  obtain ⟨wp, hnew⟩ := createAutoVacuum_succeeds true false .none
    (show (512 : UInt32) ≤ 65536 by decide) (by decide)
  obtain ⟨hone, first, hlock⟩ := createAutoVacuum_locks hnew
  obtain ⟨hps, hstart⟩ := createAutoVacuum_balanced hnew emptyVfs
  obtain ⟨s, s', l, hrun, hnone, hcount, hlock⟩ := allocations_reach hps hstart hone hlock 16383
    (by decide)
  obtain ⟨hcall, -, -⟩ := allocatePage_next (hrun.balanced hps hstart) hlock hnone
    (by rw [hcount]; decide)
  have hnat : (s.wp.pageCount + 1).toNat = 16385 := by
    rw [UInt32.toNat_add, hcount]
    rfl
  refine ⟨wp, s, l, _, _, hnew, hrun, hcall, ?_, ?_⟩
  · rw [hnat]
    decide
  · rw [hnat]
    decide

end GraphiteSql
