import GraphiteSql.Pager.Commit

/-! What a transaction can change before its commit flushes: the header, the staged pages and the
page count, and nothing else. Everything that runs under a write lock keeps this.
-/

namespace GraphiteSql

open Lib Ptrmap List Nat PagerState LockLevel
open Std (TreeMap TreeSet)

variable {base : PagerState} {fail : Error → PagerState → Prop} {inv : PagerState → Prop}
  {n size : UInt32} {b buf : Bytes} {header : DatabaseHeader} {last : Nat} {s : PagerState}

def PagerState.restage (s : PagerState) (header : DatabaseHeader) (overlay : Overlay)
    (pageCount : UInt32) : PagerState :=
  { s with wp := { s.wp with header, overlay, pageCount } }

def PagerState.LogPaged (s : PagerState) : Prop :=
  s.wp.wal ≠ none → ∀ f ∈ s.vfs.index.log, f.data.length = s.wp.pageSize

/-- `s` differs from `base` only by what a transaction stages, and whole pages are staged. -/
structure Staged (base s : PagerState) : Prop where
  shape : s = base.restage s.wp.header s.wp.overlay s.wp.pageCount
  layout : s.wp.header.layout = base.wp.header.layout
  paged : ∀ (n : UInt32) (b : Bytes), s.wp.overlay[n]? = some b → b.length = base.wp.pageSize
  positive : 1 ≤ base.wp.pageCount.toNat → 1 ≤ s.wp.pageCount.toNat

/-- Only whole pages are staged. -/
def Overlay.Paged (overlay : Overlay) (ps : Nat) : Prop :=
  ∀ (n : UInt32) (b : Bytes), overlay[n]? = some b → b.length = ps

theorem Staged.refl (paged : s.wp.overlay.Paged s.wp.pageSize) : Staged s s :=
  ⟨rfl, rfl, paged, id⟩

section Fields

variable (h : Staged base s)

include h

theorem Staged.vfs : s.vfs = base.vfs := by rw [h.shape]; rfl

theorem Staged.pageSize : s.wp.pageSize = base.wp.pageSize := by rw [h.shape]; rfl

theorem Staged.diskPages : s.wp.diskPages = base.wp.diskPages := by rw [h.shape]; rfl

theorem Staged.journal : s.wp.journal = base.wp.journal := by rw [h.shape]; rfl

theorem Staged.wal : s.wp.wal = base.wp.wal := by rw [h.shape]; rfl

theorem Staged.walFile : s.wp.walFile = base.wp.walFile := by rw [h.shape]; rfl

theorem Staged.held : s.wp.held = base.wp.held := by rw [h.shape]; rfl

theorem Staged.logPaged (log : base.LogPaged) : s.LogPaged := by
  intro hmode f hf
  rw [h.wal] at hmode
  rw [h.vfs] at hf
  rw [h.pageSize]
  exact log hmode f hf

end Fields

-- Reading and staging pages

theorem findFrame_mem {ix : WalIndex} {mx : Nat}
    (h : ix.findFrame n mx = some b) : ∃ f ∈ ix.log, f.pageNo = n ∧ f.data = b := by
  obtain ⟨f, hf, rfl⟩ := Option.map_eq_some_iff.mp h
  have hmem := mem_of_find?_eq_some hf
  have hprop := find?_some hf
  exact ⟨f, mem_of_mem_take (mem_reverse.mp hmem), by simpa using hprop, rfl⟩

theorem readExactAt_length {data : Bytes} {len offset : Nat}
    (h : readExactAt data len offset = .ok buf) : buf.length = len :=
  slice_length (readExactAt_ok.mp h)

/-- Whatever a read returns is one whole page. -/
theorem Staged.readPage_length (h : Staged base s) (log : base.LogPaged)
    (hread : s.readPage n = .ok b) : b.length = base.wp.pageSize := by
  unfold PagerState.readPage at hread
  cases hover : s.wp.overlay[n]? with
  | some bytes =>
    rw [hover] at hread
    cases hread
    exact h.paged n b hover
  | none =>
    have hdisk : s.readDisk n = .ok b → b.length = base.wp.pageSize := fun hd => by
      rw [← h.pageSize]
      exact readExactAt_length hd
    rw [hover] at hread
    cases hwal : s.wp.wal with
    | none =>
      simp only [hwal] at hread
      split at hread
      · cases hread
      · exact hdisk hread
    | some w =>
      simp only [hwal] at hread
      cases hfind : s.vfs.index.findFrame n w.snapshot.mxFrame with
      | some bytes =>
        rw [hfind] at hread
        cases hread
        obtain ⟨f, hf, -, rfl⟩ := findFrame_mem hfind
        rw [← h.pageSize]
        exact h.logPaged log (by simp [hwal]) f hf
      | none =>
        simp only [hfind] at hread
        split at hread
        · cases hread
        · exact hdisk hread

theorem zeroPage_length (n : Nat) : (zeroPage n).length = n := length_replicate

theorem put32_length {buf' : Bytes} {off : Nat} {v : UInt32} (h : put32 buf off v = .ok buf')
    : buf'.length = buf.length :=
  patch_length (orPanic_eq_ok.mp h)

theorem putEntry_length {usable : Nat} {page page' : Bytes} {entry : UInt32 × PtrmapEntry}
    (h : putEntry usable page entry = .ok page') : page'.length = page.length := by
  obtain ⟨off, -, hoff⟩ := except_bind_eq_ok.mp h
  exact patch_length (orPanic_eq_ok.mp hoff)

section UnderLock

/-- With the write lock held, taking it again does nothing. -/
theorem acquireWriteIntent_held (h : .reserved ≤ s.wp.held)
    : acquireWriteIntent s = .ok () s := by
  have hshared : ¬ s.wp.held < .shared := not_lt.mpr (le_trans (by decide) h)
  have hres : ¬ s.wp.held < .reserved := not_lt.mpr h
  have h1 : ensureShared s = .ok () s := by
    simp only [ensureShared, estate_get_bind, if_neg hshared]
    rfl
  have h2 : ∀ undo, ensureReserved undo s = .ok () s := by
    intro undo
    simp only [ensureReserved, estate_get_bind, if_neg hres]
    rfl
  rw [acquireWriteIntent, estate_get_bind, estate_bind_ok h1]
  exact h2 _

theorem Staged.insert (h : Staged base s) (hb : b.length = base.wp.pageSize)
    (hheader : header.layout = s.wp.header.layout) {pageCount : UInt32}
    (hcount : s.wp.pageCount.toNat ≤ pageCount.toNat)
    : Staged base (s.restage header (s.wp.overlay.insert n b) pageCount) := by
  refine ⟨?_, hheader.trans h.layout, fun m c hc => ?_, fun hb => le_trans (h.positive hb) hcount⟩
  · rw [h.shape]
    rfl
  simp only [restage, TreeMap.getElem?_insert] at hc
  split at hc
  · cases hc
    exact hb
  · exact h.paged m c hc

theorem Staged.erase (h : Staged base s) (n : UInt32)
    : Staged base (s.restage s.wp.header (s.wp.overlay.erase n) s.wp.pageCount) := by
  refine ⟨?_, h.layout, fun m c hc => ?_, h.positive⟩
  · rw [h.shape]
    rfl
  simp only [restage, TreeMap.getElem?_erase] at hc
  split at hc
  · cases hc
  · exact h.paged m c hc

theorem Staged.withHeader (h : Staged base s)
    (hheader : header.layout = s.wp.header.layout)
    : Staged base (s.restage header s.wp.overlay s.wp.pageCount) := by
  refine ⟨?_, hheader.trans h.layout, h.paged, h.positive⟩
  rw [h.shape]
  rfl

theorem readPage_runs {post : Bytes → PagerState → Prop}
    : Runs (readPage n) s post fail
      ↔ (∀ b, s.readPage n = .ok b → post b s) ∧ (∀ e, s.readPage n = .error e → fail e s) := by
  unfold readPage
  rw [runs_get_bind, runs_lift]

theorem readPage_maintains (n : UInt32) : Maintains inv (readPage n) :=
  fun _ hs => readPage_runs.mpr ⟨fun _ _ => hs, fun _ _ => hs⟩

end UnderLock

-- Invariants of a writing transaction

/-- An invariant of a transaction that holds the write lock: staging a whole page and changing
the header keep it.
-/
structure StagingInvariant (ps : Nat) (inv : PagerState → Prop) : Prop where
  locked : ∀ {s}, inv s → LockLevel.reserved ≤ s.wp.held
  pageSize : ∀ {s}, inv s → s.wp.pageSize = ps
  insert : ∀ {s n b header}, inv s → b.length = ps → header.layout = s.wp.header.layout
    → inv (s.restage header (s.wp.overlay.insert n b) s.wp.pageCount)
  withHeader : ∀ {s header}, inv s → header.layout = s.wp.header.layout
    → inv (s.restage header s.wp.overlay s.wp.pageCount)

/-- What the page-level calls need of an invariant: taking the write lock, staging a page whose
length is `sized`, and changing the header keep it.
-/
structure StagingRules (sized : Nat → Prop) (inv : PagerState → Prop) : Prop where
  acquire : Maintains inv acquireWriteIntent
  pageSize : ∀ {s}, inv s → sized s.wp.pageSize
  insert : ∀ {s n b header}, inv s → sized b.length → header.layout = s.wp.header.layout
    → inv (s.restage header (s.wp.overlay.insert n b) s.wp.pageCount)
  withHeader : ∀ {s header}, inv s → header.layout = s.wp.header.layout
    → inv (s.restage header s.wp.overlay s.wp.pageCount)

/-- Under the write lock, whole pages are staged. -/
theorem StagingInvariant.rules {ps : Nat} (keeps : StagingInvariant ps inv)
    : StagingRules (· = ps) inv where
  acquire := fun _ hs => .of_ok (acquireWriteIntent_held (keeps.locked hs)) hs
  pageSize := keeps.pageSize
  insert := keeps.insert
  withHeader := keeps.withHeader

/-- What a transaction stages is such an invariant. -/
theorem staged_invariant (locked : reserved ≤ base.wp.held)
    : StagingInvariant base.wp.pageSize (Staged base) where
  locked hs := by rw [hs.held]; exact locked
  pageSize hs := hs.pageSize
  insert hs hb hheader := hs.insert hb hheader (le_refl _)
  withHeader hs hheader := hs.withHeader hheader

/-- `t` stages at least what `s` stages, for the same number of pages. -/
structure StagedOnto (base s t : PagerState) : Prop where
  staged : Staged base t
  kept : ∀ n, n ∈ s.wp.overlay → n ∈ t.wp.overlay
  pageCount : t.wp.pageCount = s.wp.pageCount

theorem StagedOnto.refl (hs : Staged base s) : StagedOnto base s s :=
  ⟨hs, fun _ => id, rfl⟩

theorem stagedOnto_invariant (locked : reserved ≤ base.wp.held)
    : StagingInvariant base.wp.pageSize (StagedOnto base s) where
  locked ht := (staged_invariant locked).locked ht.staged
  pageSize ht := ht.staged.pageSize
  insert ht hb hheader :=
    { staged := ht.staged.insert hb hheader (le_refl _)
      kept := fun n hn => TreeMap.mem_insert.mpr (Or.inr (ht.kept n hn))
      pageCount := ht.pageCount }
  withHeader ht hheader :=
    { staged := ht.staged.withHeader hheader, kept := ht.kept, pageCount := ht.pageCount }

/-- Every page past `size` and up to page `last` is staged. -/
def Covered (size : UInt32) (last : Nat) (s : PagerState) : Prop :=
  ∀ n : UInt32, size < n → n.toNat ≤ last → n ∈ s.wp.overlay

theorem Covered.insert (h : Covered size last s)
    (n : UInt32) (b : Bytes) {pageCount : UInt32}
    : Covered size last (s.restage header (s.wp.overlay.insert n b) pageCount) := fun m hm hle =>
  TreeMap.mem_insert.mpr (Or.inr (h m hm hle))

theorem StagedOnto.covered {t : PagerState}
    (ht : StagedOnto base s t) (h : Covered size last s) : Covered size last t := fun n hn hle =>
  ht.kept n (h n hn hle)

section Freelist

variable {sized : Nat → Prop} (keeps : StagingRules sized inv)

include keeps

theorem stage_keeps (hb : sized b.length) : Maintains inv (stage n b) :=
  Maintains.modify fun _ hs => keeps.insert hs hb rfl

/-- `write_page` checks the size of what it stages. -/
theorem writePage_keeps (n : UInt32) (b : Bytes) : Maintains inv (writePage n b) := by
  refine .get_bind fun s hs => ?_
  split
  · exact hs
  rename_i hlen
  have hb : sized b.length := by
    rw [not_not.mp hlen]
    exact keeps.pageSize hs
  exact keeps.acquire.bind (fun _ => stage_keeps keeps hb) s hs

theorem countFreed_keeps {change : DatabaseHeader → DatabaseHeader}
    (hchange : ∀ h, (change h).layout = h.layout) : Maintains inv (countFreed change) := by
  refine .get_bind fun s hs => ?_
  refine (maintains_lift _).bind (fun count => ?_) s hs
  exact .modify fun s hs =>
    keeps.withHeader hs (hchange { s.wp.header with freelistCount := count })

theorem freeAsTrunk_keeps (page trunk : UInt32) : Maintains inv (freeAsTrunk page trunk) := by
  refine .get_bind fun s hs => ?_
  refine Maintains.bind (maintains_lift _) (fun nb => ?_) s hs
  refine Maintains.bind (maintains_lift _) fun nb => ?_
  exact (writePage_keeps keeps page nb).bind fun _ => countFreed_keeps keeps fun _ => rfl

theorem scrub_keeps (page : UInt32) : Maintains inv (scrub page) := by
  refine .get_bind fun s hs => ?_
  dsimp only
  split
  · exact writePage_keeps keeps page _ s hs
  · exact hs

theorem freeAsLeaf_keeps (page trunk leafCount : UInt32) (tbytes : Bytes)
    : Maintains inv (freeAsLeaf page trunk leafCount tbytes) := by
  refine .bind (maintains_lift _) fun tbytes => ?_
  refine .bind (maintains_lift _) fun tbytes => ?_
  refine (writePage_keeps keeps trunk tbytes).bind fun _ => ?_
  exact (scrub_keeps keeps page).bind fun _ => countFreed_keeps keeps fun _ => rfl

theorem freePage_keeps (page : UInt32) : Maintains inv (freePage page) := by
  refine keeps.acquire.bind fun _ => ?_
  refine .get_bind fun s hs => ?_
  dsimp only
  split
  · exact freeAsTrunk_keeps keeps page _ s hs
  refine (readPage_maintains _).bind (fun tbytes => ?_) s hs
  refine .bind (maintains_lift _) fun leafCount => ?_
  split
  · exact freeAsLeaf_keeps keeps page _ leafCount tbytes
  · exact freeAsTrunk_keeps keeps page _

theorem allocFromFreelist_keeps : Maintains inv allocFromFreelist := by
  have hzero : ∀ {s : PagerState}, inv s → sized (zeroPage s.wp.pageSize).length := fun hs => by
    rw [zeroPage_length]
    exact keeps.pageSize hs
  refine .get_bind fun s hs => ?_
  refine (readPage_maintains _).bind (fun tbytes => ?_) s hs
  refine .bind (maintains_lift _) fun leafCount => ?_
  split
  · refine .bind (maintains_lift _) fun leaf => ?_
    refine .bind (maintains_lift _) fun tbytes => ?_
    refine (writePage_keeps keeps _ tbytes).bind fun _ => ?_
    refine .get_bind fun t ht => ?_
    refine Maintains.bind (maintains_lift _) (fun count => ?_) t ht
    refine Maintains.bind (Maintains.modify fun u hu => ?_) fun _ => Maintains.pure _
    exact keeps.insert hu (hzero hu) (by rfl)
  refine .bind (maintains_lift _) fun next => ?_
  refine .get_bind fun t ht => ?_
  refine Maintains.bind (maintains_lift _) (fun count => ?_) t ht
  refine Maintains.bind (Maintains.modify fun u hu => ?_) fun _ => Maintains.pure _
  exact keeps.insert hu (hzero hu) (by rfl)

variable (paged : ∀ {s n b}, inv s → s.readPage n = .ok b → sized b.length)

include paged

/-- A page read from the pager can be staged after any change that keeps its length. -/
theorem fixReference_keeps (kind : PtrmapType) (holder old new : UInt32)
    : Maintains inv (fixReference kind holder old new) := by
  have hmove : ∀ kind, Maintains inv (do
      let bytes ← readPage holder
      let off ← (← get).referenceOffset kind holder old bytes
      stage holder (← put32 bytes off new)) := by
    intro kind s hs
    rw [runs_bind, readPage_runs]
    refine ⟨fun bytes hbytes => ?_, fun _ _ => hs⟩
    rw [runs_get_bind]
    refine runs_lift_bind.mpr ⟨fun off _ => ?_, fun _ _ => hs⟩
    refine runs_lift_bind.mpr ⟨fun page hpage => ?_, fun _ _ => hs⟩
    exact stage_keeps keeps (by rw [put32_length hpage]; exact paged hs hbytes) s hs
  cases kind with
  | rootPage => exact .throw _
  | freePage => exact .throw _
  | overflow1 => exact hmove .overflow1
  | overflow2 => exact hmove .overflow2
  | btree => exact hmove .btree

theorem rebuildMapPage_keeps (usable : Nat) (mapPg : UInt32) (entries : List (UInt32 × PtrmapEntry))
    : Maintains inv (rebuildMapPage usable mapPg entries) := by
  refine .get_bind fun s hs => ?_
  refine runs_lift_bind.mpr ⟨fun page hpage => ?_, fun _ _ => hs⟩
  refine runs_lift_bind.mpr ⟨fun page' hpage' => ?_, fun _ _ => hs⟩
  have hlen : sized page.length := by
    unfold mapPage at hpage
    split_ifs at hpage with hpresent
    · exact paged hs hpage
    · cases hpage
      rw [zeroPage_length]
      exact keeps.pageSize hs
  refine stage_keeps keeps ?_ s hs
  refine except_foldlM_keeps (fun b : Bytes => sized b.length) (fun _ _ _ hb hput => ?_) hlen hpage'
  rw [putEntry_length hput]
  exact hb

theorem rebuildPtrmap_keeps : Maintains inv rebuildPtrmap := by
  refine .get_bind fun s hs => ?_
  refine Maintains.bind (maintains_lift _) (fun result => ?_) s hs
  refine Maintains.bind (Maintains.modify fun t ht => keeps.withHeader ht rfl) fun _ => ?_
  refine .bind (maintains_lift _) fun byMap => ?_
  exact .forM fun entry _ => rebuildMapPage_keeps keeps paged _ entry.1 entry.2

end Freelist

/-- The page count grows by one per round and does not overflow. -/
theorem extendFile_staged (room : Nat) (hs : Staged base s)
    (hroom : s.wp.pageCount.toNat + room < 2 ^ 32)
    : Ends (extendFile room) s (Staged base) := by
  induction room generalizing s with
  | zero => exact hs
  | succ room ih =>
    have hnext : (s.wp.pageCount + 1).toNat = s.wp.pageCount.toNat + 1 := by
      rw [UInt32.toNat_add, mod_eq_of_lt (by simp; omega)]
      rfl
    have hgrown : Staged base (s.restage s.wp.header
        (s.wp.overlay.insert (s.wp.pageCount + 1) (zeroPage s.wp.pageSize))
        (s.wp.pageCount + 1)) :=
      hs.insert (by rw [zeroPage_length, hs.pageSize]) rfl (by omega)
    unfold extendFile
    rw [Ends, runs_get_bind]
    dsimp only
    split
    · exact ih hgrown (by show (s.wp.pageCount + 1).toNat + room < 2 ^ 32; omega)
    · exact hgrown

/-- The relocation loop stops at page 1 at the latest. -/
theorem relocateTail_last (want : WantMap) (limit start last : Nat) (free : TreeSet UInt32)
    (moved : TreeMap UInt32 UInt32)
    : Returns (fun r : Nat × TreeSet UInt32 => 1 ≤ last → 1 ≤ r.1 ∧ r.1 ≤ last)
      (relocateTail want limit start last free moved) := by
  fun_induction relocateTail want limit start last free moved with
  | case1 free moved => exact .pure fun hpos => absurd hpos (by omega)
  | case2 free moved => exact .pure fun _ => ⟨Nat.le_refl 1, Nat.le_refl 1⟩
  | case3 last free moved ih1 ih2 ih3 =>
    have hstop : 1 ≤ last + 2 → 1 ≤ last + 2 ∧ last + 2 ≤ last + 2 := fun hpos =>
        ⟨hpos, Nat.le_refl _⟩
    have hstep : ∀ {x : PagerM (Nat × TreeSet UInt32)},
        Returns (fun r : Nat × TreeSet UInt32 => 1 ≤ last + 1 → 1 ≤ r.1 ∧ r.1 ≤ last + 1) x
          → Returns
            (fun r : Nat × TreeSet UInt32 => 1 ≤ last + 2 → 1 ≤ r.1 ∧ r.1 ≤ last + 2) x := by
      intro x hx s
      refine (hx s).mono (fun r _ h _ => ?_) (fun _ _ => id)
      obtain ⟨hlow, hhigh⟩ := h (le_add_left 1 last)
      exact ⟨hlow, le_succ_of_le hhigh⟩
    refine .bind fun s => ?_
    dsimp only at ih2 ih3 ⊢
    split
    · exact .pure hstop
    split
    · exact .bind fun _ => hstep ih1
    split
    · exact .pure hstop
    split
    · exact .bind fun _ => hstep ih2
    split
    · exact .pure hstop
    rename_i dest _
    refine .bind fun entry => ?_
    split
    · exact .pure hstop
    · refine .bind fun _ => .bind fun _ => .bind fun _ => ?_
      exact .bind fun _ => hstep (ih3 dest)

theorem Covered.erase (h : Covered size (last + 1) s) (hlast : last + 1 < 2 ^ 32)
    : Covered size last (s.restage s.wp.header (s.wp.overlay.erase (.ofNat (last + 1)))
      s.wp.pageCount) := by
  intro n hn hle
  refine TreeMap.mem_erase.mpr ⟨fun heq => ?_, h n hn (le_succ_of_le hle)⟩
  have hnum := congrArg UInt32.toNat (Std.LawfulEqCmp.eq_of_compare heq)
  rw [UInt32.toNat_ofNat', mod_eq_of_lt hlast] at hnum
  omega

section Vacuum

variable (locked : reserved ≤ base.wp.held)

include locked

theorem allocatePage_maintains : Maintains (Staged base) allocatePage := by
  refine (staged_invariant locked).rules.acquire.bind fun _ => ?_
  refine .get_bind fun s hs => ?_
  split
  · exact allocFromFreelist_keeps (staged_invariant locked).rules s hs
  · have hcount := s.wp.pageCount.toNat_lt
    exact extendFile_staged _ hs (by omega)

variable (log : base.LogPaged)

include log

/-- The relocation loop covers the pages that stay, if all were covered before. -/
theorem relocateTail_runs (want : WantMap) (limit start last : Nat) (free : TreeSet UInt32)
    (moved : TreeMap UInt32 UInt32) (hlast : last < 2 ^ 32)
    : ∀ s, Staged base s → Runs (relocateTail want limit start last free moved) s
      (fun r t => Staged base t ∧ ∀ size, Covered size last s → Covered size r.1 t)
      (fun _ => Staged base) := by
  fun_induction relocateTail want limit start last free moved with
  | case1 free moved => exact fun s hs => ⟨hs, fun _ => id⟩
  | case2 free moved => exact fun s hs => ⟨hs, fun _ => id⟩
  | case3 last free moved ih1 ih2 ih3 =>
    intro s hs
    rw [runs_get_bind]
    dsimp only at ih2 ih3 ⊢
    split
    · exact ⟨hs, fun _ => id⟩
    split
    · exact (ih1 (by omega) _ (hs.erase _)).mono
        (fun _ _ ht => ⟨ht.1, fun size hcov => ht.2 size (hcov.erase hlast)⟩) (fun _ _ => id)
    split
    · exact ⟨hs, fun _ => id⟩
    split
    · exact (ih2 (by omega) _ (hs.erase _)).mono
        (fun _ _ ht => ⟨ht.1, fun size hcov => ht.2 size (hcov.erase hlast)⟩) (fun _ _ => id)
    split
    · exact ⟨hs, fun _ => id⟩
    rename_i dest _
    refine runs_lift_bind.mpr ⟨fun entry _ => ?_, fun _ _ => hs⟩
    split
    · exact ⟨hs, fun _ => id⟩
    -- A live page moves down: its image is staged at the free slot.
    rw [runs_bind, readPage_runs]
    refine ⟨fun contents hcontents => ?_, fun _ _ => hs⟩
    rw [runs_bind, stage, modifyWp, runs_modify, runs_bind, unstage, modifyWp, runs_modify,
      runs_bind]
    have hmoved := hs.insert (n := dest) (hs.readPage_length log hcontents) (by rfl) (le_refl _)
    have hstart := StagedOnto.refl (hmoved.erase (.ofNat (last + 2)))
    refine (fixReference_keeps (stagedOnto_invariant locked).rules
      (fun hu hread => hu.staged.readPage_length log hread) _ _ _ _ _ hstart).mono
      (fun _ u hu => ?_) (fun _ _ hu => hu.staged)
    refine (ih3 dest (by omega) u hu.staged).mono
      (fun r t ht => ⟨ht.1, fun size hcov => ht.2 size (hu.covered ?_)⟩) (fun _ _ => id)
    exact (hcov.insert dest contents).erase hlast

/-- Only pointer-map pages are staged past the page count. -/
def PagerState.Within (s : PagerState) : Prop :=
  ∀ n ∈ s.wp.overlay, n ≤ s.wp.pageCount ∨ isPtrmapPage s.usableSize n = true

/-- A step that keeps the pages covered as far as the page count says, and the staged pages within
the page count.
-/
def Vacuums (base : PagerState) (x : PagerM Unit) (s : PagerState) : Prop :=
  Runs x s (fun _ t => Staged base t
    ∧ (∀ size, Covered size s.wp.pageCount.toNat s → Covered size t.wp.pageCount.toNat t)
    ∧ (1 ≤ s.wp.pageCount.toNat → s.Within → t.Within)) (fun _ => Staged base)

theorem autovacuumTruncate_runs (limit : Nat) (hs : Staged base s)
    : Vacuums base (autovacuumTruncate limit) s := by
  refine runs_lift_bind.mpr ⟨fun want _ => ?_, fun _ _ => hs⟩
  refine runs_lift_bind.mpr ⟨fun probe _ => ?_, fun _ _ => hs⟩
  dsimp only
  split
  · exact ⟨hs, fun _ => id, fun _ => id⟩
  rw [runs_bind, modifyWp, runs_modify, runs_bind]
  have hlt := s.wp.pageCount.toNat_lt
  refine ((relocateTail_runs locked log _ _ _ _ _ _ hlt _ (hs.withHeader (by rfl))).and
    (relocateTail_last _ _ _ _ _ _ _)).mono (fun r u hu => ?_) (fun _ _ hu => hu.1)
  obtain ⟨⟨hstaged, hcovered⟩, hbound⟩ := hu
  refine (Maintains.forM (fun pg _ => freePage_keeps (stagedOnto_invariant locked).rules pg) u
    (StagedOnto.refl hstaged)).bind (fun _ t ht => ?_) (fun _ _ ht => ht.staged)
  have hfits : ∀ {k : Nat}, k ≤ (UInt32.ofNat r.1).toNat → k ≤ r.1 := fun hk => by
    exact le_trans hk (mod_le _ _)
  refine ⟨⟨?_, ht.staged.layout, fun n b hb => ?_, fun hpos => ?_⟩, fun size hcov n hn hle => ?_,
    fun hpos _ n hn => ?_⟩
  · rw [ht.staged.shape]
    rfl
  · simp only [TreeMap.getElem?_filter', Option.filter_eq_some_iff] at hb
    exact ht.staged.paged n b hb.1
  · have hr := hbound (hs.positive hpos)
    rw [UInt32.toNat_ofNat', mod_eq_of_lt (by omega)]
    exact hr.1
  · have hstays : n ∈ t.wp.overlay := ht.kept n (hcovered size hcov n hn (hfits hle))
    obtain ⟨b, hb⟩ := Option.isSome_iff_exists.mp (TreeMap.mem_iff_isSome_getElem?.mp hstays)
    rw [TreeMap.mem_iff_isSome_getElem?, TreeMap.getElem?_filter', hb]
    simp [hfits hle]
  · -- the pages past the new count are dropped from what is staged
    obtain ⟨b, hb⟩ := Option.isSome_iff_exists.mp (TreeMap.mem_iff_isSome_getElem?.mp hn)
    simp only [TreeMap.getElem?_filter', Option.filter_eq_some_iff, decide_eq_true_eq] at hb
    refine .inl (UInt32.le_iff_toNat_le.mpr ?_)
    rw [UInt32.toNat_ofNat', mod_eq_of_lt (lt_of_le_of_lt (hbound hpos).2 hlt)]
    exact hb.2

theorem maybeAutovacuumTruncate_runs (hs : Staged base s)
    : Vacuums base maybeAutovacuumTruncate s := by
  unfold Vacuums Runs maybeAutovacuumTruncate
  split_ifs with hmode
  · exact ⟨hs, fun _ => id, fun _ => id⟩
  have hrun := autovacuumTruncate_runs locked log 0 hs
  cases htrunc : autovacuumTruncate 0 s with
  | ok u s' => exact hrun.ok htrunc
  | error e s' =>
    have hs' : Staged base s' := hrun.error htrunc
    dsimp only
    split_ifs with hreturned
    · refine ⟨⟨?_, hs.layout, hs.paged, hs.positive⟩, fun _ => id, fun _ => id⟩
      rw [hs'.shape]
      rfl
    · exact hs'

omit locked log in
/-- The rebuilt map pages are pointer-map pages. -/
theorem isPtrmapPage_ptrmapPageno {usable : Nat} {pg map : UInt32}
    (h : ptrmapPageno usable pg = .ok map) : isPtrmapPage usable map = true := by
  unfold ptrmapPageno at h
  split_ifs at h with hpg
  cases h
  have hlow : 2 ≤ pg.toNat := UInt32.le_iff_toNat_le.mp (UInt32.not_lt.mp hpg)
  have hlt := pg.toNat_lt
  have hle : cycleStart usable pg.toNat ≤ pg.toNat := by
    have := Nat.div_mul_le_self (pg.toNat - 2) (entriesPerPage usable + 1)
    simp only [cycleStart]
    omega
  have hnat : (UInt32.ofNat (cycleStart usable pg.toNat)).toNat = cycleStart usable pg.toNat := by
    rw [UInt32.toNat_ofNat', mod_eq_of_lt (by omega)]
  unfold isPtrmapPage
  rw [if_neg (by rw [UInt32.lt_iff_toNat_lt, hnat]; simp [cycleStart]), hnat, beq_iff_eq]
  simp [cycleStart]

omit locked log in
/-- Rebuilding the pointer map stages its pages, and leaves the page count. -/
theorem rebuildPtrmap_stages (s : PagerState)
    : Runs rebuildPtrmap s
      (fun _ t => t.wp.pageCount = s.wp.pageCount ∧ (s.Within → t.Within)) (fun _ _ => True) := by
  have hinv : Maintains (fun t => t.wp.pageCount = s.wp.pageCount ∧ t.usableSize = s.usableSize
      ∧ (s.Within → t.Within)) rebuildPtrmap := by
    refine .get_bind fun t ht => ?_
    refine Maintains.bind (maintains_lift _) (fun _ => ?_) t ht
    refine Maintains.bind (Maintains.modify fun _ => id) fun _ => ?_
    intro u hu
    refine runs_lift_bind.mpr ⟨fun byMap hmap => ?_, fun _ _ => hu⟩
    have hkeys : ∀ n ∈ byMap, isPtrmapPage t.usableSize n = true := by
      refine except_foldlM_keeps (fun m => ∀ n ∈ m, isPtrmapPage t.usableSize n = true)
        (fun m entry m' hm hstep n hn => ?_) (fun n hn => absurd hn TreeMap.not_mem_emptyc) hmap
      obtain ⟨pg, hpg, hstep⟩ := except_bind_eq_ok.mp hstep
      cases hstep
      rcases TreeMap.mem_insert.mp hn with heq | hn
      · exact Std.LawfulEqCmp.eq_of_compare heq ▸ isPtrmapPage_ptrmapPageno hpg
      · exact hm n hn
    refine Maintains.forM (fun entry hentry => .get_bind fun v hv => ?_) u hu
    refine Maintains.bind (maintains_lift _) (fun _ => ?_) v hv
    refine Maintains.bind (maintains_lift _) fun _ => Maintains.modify fun w hw => ?_
    refine ⟨hw.1, hw.2.1, fun hs n hn => ?_⟩
    rcases TreeMap.mem_insert.mp hn with heq | hn
    · refine .inr ?_
      have hget := TreeMap.mem_toList_iff_getElem?_eq_some.mp hentry
      have hmem := hkeys entry.1 (TreeMap.mem_iff_isSome_getElem?.mpr (by rw [hget]; rfl))
      rw [ht.2.1, ← hw.2.1] at hmem
      exact Std.LawfulEqCmp.eq_of_compare heq ▸ hmem
    · exact hw.2.2 hs n hn
  exact (hinv s ⟨rfl, rfl, id⟩).mono (fun _ _ h => ⟨h.1, h.2.2⟩) fun _ _ _ => trivial

theorem vacuumForCommit_runs (hs : Staged base s)
    : Vacuums base vacuumForCommit s := by
  unfold vacuumForCommit
  rw [Vacuums, runs_get_bind]
  split
  · refine (maybeAutovacuumTruncate_runs locked log hs).seq fun _ t ht => ?_
    refine ((rebuildPtrmap_keeps (stagedOnto_invariant locked).rules
      (fun hu hread => hu.staged.readPage_length log hread) t (StagedOnto.refl ht.1)).and
      (rebuildPtrmap_stages t)).mono (fun _ u hu => ?_) (fun _ _ hu => hu.1.staged)
    refine ⟨hu.1.staged, fun size hcov => ?_, fun hpos hin => hu.2.2 (ht.2.2 hpos hin)⟩
    rw [hu.1.pageCount]
    exact hu.1.covered (ht.2.1 size hcov)
  · exact ⟨hs, fun _ => id, fun _ => id⟩

end Vacuum

theorem writeTo_length {h : DatabaseHeader} {buf' : Bytes} (hw : h.writeTo buf = .ok buf')
    : buf'.length = buf.length := by
  unfold DatabaseHeader.writeTo at hw
  dsimp only at hw
  split_ifs at hw with hlen
  cases hw
  rw [length_append, length_drop, h.toBytes_length]
  omega

def PagerState.stampedHeader (s : PagerState) : DatabaseHeader :=
  s.wp.header.stamped s.wp.pageCount

theorem stampPage1_runs {post : Unit → PagerState → Prop}
    (hpost : ∀ p p', s.readPage 1 = .ok p → s.stampedHeader.writeTo p = .ok p'
      → post () (s.restage s.stampedHeader (s.wp.overlay.insert 1 p') s.wp.pageCount))
    (hfail : ∀ e, fail e (s.restage s.stampedHeader s.wp.overlay s.wp.pageCount))
    : Runs stampPage1 s post fail := by
  unfold stampPage1 modifyWp
  rw [runs_bind, runs_modify, runs_bind, readPage_runs]
  refine ⟨fun p hp => ?_, fun e _ => hfail e⟩
  rw [runs_get_bind, runs_lift_bind]
  exact ⟨fun p' hp' => hpost p p' hp hp', fun e _ => hfail e⟩

theorem stampPage1_staged (log : base.LogPaged) (hs : Staged base s)
    : Runs stampPage1 s
      (fun _ s' => StagedOnto base s s'
        ∧ (∃ old page1, s'.wp.header.writeTo old = .ok page1
          ∧ s'.wp.overlay[(1 : UInt32)]? = some page1)
        ∧ s'.wp.header.sizeInPages = s'.wp.pageCount)
      (fun _ => Staged base) := by
  refine stampPage1_runs (fun p p' hp hp' => ?_) (fun e => hs.withHeader rfl)
  have hlen : p'.length = base.wp.pageSize := (writeTo_length hp').trans (hs.readPage_length log hp)
  refine ⟨⟨hs.insert hlen (by rfl) (le_refl _), fun n hn => ?_, rfl⟩, ⟨p, p', hp', ?_⟩, rfl⟩
  · exact TreeMap.mem_insert.mpr (Or.inr hn)
  · exact TreeMap.getElem?_insert_self

end GraphiteSql
