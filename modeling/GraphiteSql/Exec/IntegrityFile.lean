import GraphiteSql.Exec.IntegritySound

/-! The page accounting reports nothing exactly on the files it can account for along the
overflow pointers that their cells hold, and when that is the same as accounting for all of
their payloads.
-/

namespace GraphiteSql

open Lib Ptrmap Ledger PageAccounting List Nat UInt32

variable {pg : UInt32} {maxErr : Nat} {uses : List PageUse} {need : Payload → Option Nat}
  {src : PageFile}

theorem entry_eq_encodeEntry {entry : Bytes} (hlen : entry.length = entrySize) {kind : PtrmapType}
    {parent : UInt32}
    : (entry.headD 0 = kind.asU8 ∧ beU32OrZero entry 1 = parent)
      ↔ entry = encodeEntry kind parent := by
  match entry, hlen with
  | [t, a, b, c, d], _ =>
    rw [encodeEntry, cons.injEq]
    refine and_congr_right fun _ => ⟨?_, ?_⟩
    · rintro rfl
      exact (u32ToBytes_u32OfBytes a b c d).symm
    · exact fun h => u32OfBytes_u32ToBytes h.symm

/-- The pointer-map page of a page is not past it, and close enough for its entry to fit. -/
theorem cycleStart_bounds {usable pg : Nat} (hpg : 2 ≤ pg)
    : cycleStart usable pg ≤ pg ∧ (pg - cycleStart usable pg) * entrySize ≤ usable := by
  have hcycle : 0 < entriesPerPage usable + 1 := succ_pos _
  have hdiv := div_add_mod' (pg - 2) (entriesPerPage usable + 1)
  have hmod := mod_lt (pg - 2) hcycle
  have hfit := div_mul_le_self usable entrySize
  have hstart : cycleStart usable pg
      = (pg - 2) / (entriesPerPage usable + 1) * (entriesPerPage usable + 1) + 2 := rfl
  rw [hstart]
  generalize (pg - 2) / (entriesPerPage usable + 1) * (entriesPerPage usable + 1) = base at hdiv ⊢
  refine ⟨by omega, ?_⟩
  have hslot : pg - (base + 2) ≤ entriesPerPage usable := by omega
  exact (mul_le_mul_right _ hslot).trans hfit

/-- The accounting reads pointer-map entries where the pointer map stores them. -/
theorem ptrmapGet_iff (hzero : pg ≠ 0) (hone : pg ≠ 1)
    (hlast : pg ≤ src.pageCount) {kind : PtrmapType} {parent : UInt32}
    : (new src maxErr).ptrmapGet pg = .ok (some (kind.asU8, parent))
      ↔ src.HasEntry pg kind parent := by
  have hlow : ¬ pg < 2 := by grind
  have htwo : 2 ≤ pg.toNat := UInt32.le_iff_toNat_le.mp (UInt32.not_lt.mp hlow)
  obtain ⟨hstart, hfit⟩ := @cycleStart_bounds src.usableSize _ htwo
  obtain ⟨map, hmap⟩ : ∃ map, map = UInt32.ofNat (cycleStart src.usableSize pg.toNat) := ⟨_, rfl⟩
  have hmapNat : map.toNat = cycleStart src.usableSize pg.toNat := by
    rw [hmap, toNat_ofNat', mod_eq_of_lt (lt_of_le_of_lt hstart pg.toNat_lt)]
  have hpageno : ptrmapPageno src.usableSize pg = .ok map := by
    rw [ptrmapPageno, if_neg hlow, hmap]
  have hrange : ¬ (pg < 2 ∨ (new src maxErr).nPage < pg) :=
    not_or.mpr ⟨hlow, UInt32.not_lt.mpr hlast⟩
  have husable : (new src maxErr).usable = src.usableSize := rfl
  unfold ptrmapGet
  rw [if_neg hrange, husable, hpageno, except_ok_bind]
  by_cases hself : pg ≤ map
  · rw [if_pos hself]
    refine ⟨fun h => (nomatch h), ?_⟩
    rintro ⟨_, off, _, -, hoff, -⟩
    have hnat := UInt32.le_iff_toNat_le.mp hself
    rw [ptrmapEntryOffset, hpageno, except_ok_bind, if_pos (lt_succ_of_le hnat)] at hoff
    cases hoff
  have hnat : map.toNat < pg.toNat := UInt32.lt_iff_toNat_lt.mp (UInt32.not_le.mp hself)
  have hoff : ptrmapEntryOffset src.usableSize pg
      = .ok ((pg.toNat - map.toNat - 1) * entrySize) := by
    rw [ptrmapEntryOffset, hpageno, except_ok_bind, if_neg (by omega)]
    rfl
  have hslot : (pg.toNat - map.toNat - 1) * entrySize + entrySize ≤ src.usableSize := by
    rw [← succ_mul]
    exact (Nat.mul_le_mul_right _ (by omega)).trans hfit
  rw [if_neg hself, if_neg (not_lt.mpr hslot)]
  constructor
  · intro h
    obtain ⟨opt, hopt, h⟩ := except_bind_eq_ok.mp h
    cases opt with
    | none => cases h
    | some page =>
      refine ⟨map, _, page, hpageno, hoff, attempt_eq_some.mp hopt, ?_⟩
      dsimp only at h
      split at h
      · cases h
      next entry hentry =>
        split at h
        · cases h
        · have hpair := Prod.mk.inj (Option.some.inj (Except.ok.inj h))
          rw [hentry, (entry_eq_encodeEntry (slice_length hentry)).mp hpair]
  · rintro ⟨_, _, page, hm, ho, hpage, hentry⟩
    cases hpageno.symm.trans hm
    cases hoff.symm.trans ho
    refine except_bind_eq_ok.mpr ⟨some page, attempt_eq_some.mpr hpage, ?_⟩
    obtain ⟨hkind, hparent⟩ := (entry_eq_encodeEntry rfl).mpr (Eq.refl (encodeEntry kind parent))
    dsimp only
    rw [hentry]
    dsimp only
    rw [hkind, hparent, if_neg (by cases kind <;> decide)]
    rfl

-- The partition of the file

theorem mem_pages : pg ∈ src.pages ↔ pg ≠ 0 ∧ pg ≤ src.pageCount := by
  have hlast := src.pageCount.toNat_lt
  rw [PageFile.pages, mem_map]
  constructor
  · rintro ⟨i, hi, rfl⟩
    rw [mem_range'_1] at hi
    have hnat : (UInt32.ofNat i).toNat = i := by
      rw [toNat_ofNat', mod_eq_of_lt (by omega)]
    refine ⟨fun hzero => ?_, le_iff_toNat_le.mpr (by omega)⟩
    rw [hzero, UInt32.toNat_zero] at hnat
    omega
  rintro ⟨hzero, hle⟩
  have hpos : pg.toNat ≠ 0 := fun h => hzero (UInt32.toNat_inj.mp h)
  have hnat := le_iff_toNat_le.mp hle
  refine ⟨pg.toNat, ?_, UInt32.ofNat_toNat⟩
  rw [mem_range'_1]
  omega

theorem nodup_pages : src.pages.Nodup := by
  have hlast := src.pageCount.toNat_lt
  refine List.Nodup.map_on (fun i hi j hj h => ?_) (nodup_range' _ (by decide))
  rw [mem_range'_1] at hi hj
  have hnat := congrArg UInt32.toNat h
  rwa [toNat_ofNat', toNat_ofNat', mod_eq_of_lt (by omega),
    mod_eq_of_lt (by omega)] at hnat

/-- At the start only the lock page is marked. -/
theorem start_marked (hpg : pg ∈ src.pages)
    : Bitmap.get (new src maxErr).start.refs pg.toNat = true ↔ pg ∈ src.lockPages := by
  have hnat := le_iff_toNat_le.mp (mem_pages.mp hpg).2
  have hrefs : (new src maxErr).start.refs
      = if src.pendingPage ≤ src.pageCount.toNat then
          Bitmap.set (replicate (src.pageCount.toNat / 8 + 1) 0) src.pendingPage
        else replicate (src.pageCount.toNat / 8 + 1) 0 := rfl
  rw [PageFile.lockPages, mem_filter, decide_eq_true_iff, hrefs]
  have hclear : Bitmap.get (replicate (src.pageCount.toNat / 8 + 1) 0) pg.toNat = false :=
    Bitmap.get_replicate ..
  by_cases hin : src.pendingPage ≤ src.pageCount.toNat
  · have hbyte : src.pendingPage / 8
        < (replicate (src.pageCount.toNat / 8 + 1) (0 : UInt8)).length := by
      rw [length_replicate]
      exact lt_succ_of_le (Nat.div_le_div_right hin)
    rw [if_pos hin, Bitmap.get_set hbyte, hclear, Bool.or_false, decide_eq_true_iff, eq_comm]
    exact ⟨fun h => ⟨hpg, h⟩, And.right⟩
  · rw [if_neg hin, hclear]
    refine ⟨fun h => (nomatch h), fun h => ?_⟩
    omega

theorem start_clean
    : (new src maxErr).ledger.clean (new src maxErr).start := by
  refine ⟨rfl, ?_⟩
  unfold start
  split
  · rw [Bitmap.length_set, length_replicate]
  · rw [length_replicate]

theorem marked_iff {s' : Tally} (marks : Marks (new src maxErr) (new src maxErr).start uses s')
    (hpg : pg ∈ src.pages)
    : Bitmap.get s'.refs pg.toNat = true
      ↔ pg ∈ src.lockPages ∨ pg ∈ uses.map PageUse.page := by
  rw [marks.marked, start_marked hpg, mem_map]
  simp only [UInt32.toNat_inj]

/-- The pages that are marked are those that are no pointer-map pages. -/
def Swept (src : PageFile) (refs : Bytes) : Prop :=
  ∀ i, 1 ≤ i → i < 1 + src.pageCount.toNat →
    Bitmap.get refs i = !(src.autoVacuum && isPtrmapPage src.usableSize (.ofNat i))

/-- What the sweep asks of the bitmap, said of page numbers. -/
theorem sweep_iff {refs : Bytes}
    : Swept src refs
      ↔ ∀ pg ∈ src.pages, Bitmap.get refs pg.toNat = true ↔ pg ∉ src.mapPages := by
  have hmap {pg : UInt32} (hpg : pg ∈ src.pages) (refs : Bytes)
      : (Bitmap.get refs pg.toNat = true ↔ pg ∉ src.mapPages)
        ↔ Bitmap.get refs pg.toNat = !(src.autoVacuum && isPtrmapPage src.usableSize pg) := by
    rw [PageFile.mapPages, mem_filter]
    simp only [hpg, true_and]
    cases Bitmap.get refs pg.toNat <;>
      cases src.autoVacuum && isPtrmapPage src.usableSize pg <;> simp
  have hlast := src.pageCount.toNat_lt
  constructor
  · intro h pg hpg
    obtain ⟨hzero, hle⟩ := mem_pages.mp hpg
    have hpos : pg.toNat ≠ 0 := fun h => hzero (UInt32.toNat_inj.mp h)
    have hnat := le_iff_toNat_le.mp hle
    rw [hmap hpg, h pg.toNat (by omega) (by omega), UInt32.ofNat_toNat]
  intro h i hlow hhigh
  have hnat : (UInt32.ofNat i).toNat = i := by
    rw [toNat_ofNat', mod_eq_of_lt (by omega)]
  have hpg : UInt32.ofNat i ∈ src.pages :=
    mem_map_of_mem (mem_range'_1.mpr ⟨hlow, by omega⟩)
  have := (hmap hpg refs).mp (h _ hpg)
  rwa [hnat] at this

/-- Every page is marked once and no pointer map is, exactly when the references and the pages
with a fixed purpose partition the file.
-/
theorem partition_iff
    : (∃ s', (new src maxErr).ledger.claimAll (new src maxErr).start uses = some s'
        ∧ Swept src s'.refs)
      ↔ (src.lockPages ++ src.mapPages ++ uses.map PageUse.page).Perm src.pages := by
  constructor
  · rintro ⟨s', hclaim, hsweep⟩
    have marks := claimAll_marks start_clean hclaim
    have hpages : ∀ pg ∈ uses.map PageUse.page, pg ∈ src.pages := by
      intro pg hpg
      obtain ⟨u, hu, rfl⟩ := mem_map.mp hpg
      exact mem_pages.mpr (marks.range u hu)
    have hexactly : ∀ pg ∈ src.pages,
        (pg ∈ src.lockPages ∨ pg ∈ uses.map PageUse.page) ↔ pg ∉ src.mapPages := by
      intro pg hpg
      rw [← marked_iff marks hpg]
      exact sweep_iff.mp hsweep pg hpg
    have hlock : ∀ pg ∈ src.lockPages, pg ∈ src.pages := fun pg h => (mem_filter.mp h).1
    have hmap : ∀ pg ∈ src.mapPages, pg ∈ src.pages := fun pg h => (mem_filter.mp h).1
    refine (perm_ext_iff_of_nodup ?_ nodup_pages).mpr fun pg => ?_
    · refine ((nodup_pages.filter _).append (nodup_pages.filter _) fun pg hl hm => ?_).append
        marks.distinct fun pg hfixed hu => ?_
      · exact (hexactly pg (hlock pg hl)).mp (.inl hl) hm
      rcases mem_append.mp hfixed with hl | hm
      · obtain ⟨u, hmem, rfl⟩ := mem_map.mp hu
        have hmarked : Bitmap.get (new src maxErr).start.refs u.page.toNat = true :=
          (start_marked (hlock _ hl)).mpr hl
        rw [marks.fresh u hmem] at hmarked
        cases hmarked
      · exact (hexactly pg (hpages pg hu)).mp (.inr hu) hm
    · rw [mem_append, mem_append]
      have hexactly := hexactly pg
      tauto
  · intro hperm
    obtain ⟨hfixed, hdistinct, hapart⟩ := nodup_append'.mp (hperm.nodup_iff.mpr nodup_pages)
    obtain ⟨-, -, hlockMap⟩ := nodup_append'.mp hfixed
    have hpages : ∀ pg ∈ uses.map PageUse.page, pg ∈ src.pages := fun pg h =>
      hperm.mem_iff.mp (mem_append_right _ h)
    obtain ⟨s', hclaim⟩ := claimAll_of_fresh (@start_clean maxErr src)
      (fun u hu => mem_pages.mp (hpages _ (mem_map_of_mem hu)))
      (fun u hu => Bool.eq_false_iff.mpr fun h =>
        hapart (mem_append_left _ ((start_marked (hpages _ (mem_map_of_mem hu))).mp h))
          (mem_map_of_mem hu))
      hdistinct
    have marks := claimAll_marks start_clean hclaim
    refine ⟨s', hclaim, sweep_iff.mpr fun pg hpg => ?_⟩
    have hall := hperm.mem_iff.mpr hpg
    rw [mem_append, mem_append] at hall
    rw [marked_iff marks hpg]
    refine ⟨?_, by tauto⟩
    rintro (h | h) hm
    · exact hlockMap h hm
    · exact hapart (mem_append_right _ hm) h

-- The whole check

/-- What the whole check passes with. -/
theorem checkAll_passes (hbudget : 0 < maxErr) (roots : List (UInt32 × String)) {s' : Tally}
    : (new src maxErr).ledger.Passes ((new src maxErr).checkAll roots) (new src maxErr).start () s'
      ↔ ∃ free parts, ((∃ trunks, src.Freelist trunks src.freelistTrunk free)
            ∧ free.length = src.freelistCount.toNat ∧ ∀ u ∈ free, (new src maxErr).Entered u)
          ∧ List.Forall₂ (new src maxErr).TreeChecked (1 :: roots.map Prod.fst) parts
          ∧ (new src maxErr).ledger.claimAll (new src maxErr).start (free ++ parts.flatten)
            = some s'
          ∧ Swept src s'.refs := by
  have hsweep (_ : Unit) : (new src maxErr).ledger.Sticky (new src maxErr).checkNeverUsed :=
    sweep_keeps ledger_stable
  have hwalks := (@checkFreelist_accounts (new src maxErr) hbudget rfl).bind
    (fun _ _ uses => _) (fun _ => checkTrees_keeps ledger_stable)
    fun _ _ _ => checkTrees_accounts hbudget rfl ((1, "sqlite_schema") :: roots)
  have hassoc : (new src maxErr).checkAll roots
      = (do
          (new src maxErr).checkFreelist
          (new src maxErr).checkTrees ((1, "sqlite_schema") :: roots))
        >>= fun _ => (new src maxErr).checkNeverUsed := by
    rw [bind_assoc]
    rfl
  rw [hassoc, passes_bind hsweep]
  constructor
  · rintro ⟨_, mid, hfirst, hsweep⟩
    obtain ⟨uses, ⟨_, free, _, hfree, ⟨parts, rfl, hparts⟩, rfl⟩, hclaim⟩ :=
      (hwalks _ start_clean _ _).mp hfirst
    obtain ⟨rfl, hmarks⟩ := (sweep_passes hbudget hfirst.2 _ _).mp hsweep
    exact ⟨free, parts, hfree, hparts, hclaim, hmarks⟩
  rintro ⟨free, parts, hfree, hparts, hclaim, hmarks⟩
  have hfirst := (hwalks _ start_clean ⟨⟩ _).mpr
    ⟨_, ⟨⟨⟩, free, _, hfree, ⟨parts, rfl, hparts⟩, rfl⟩, hclaim⟩
  exact ⟨⟨⟩, s', hfirst, (sweep_passes hbudget hfirst.2 _ _).mpr ⟨rfl, hmarks⟩⟩

theorem accountingProblems_passes {roots : List (UInt32 × String)}
    : accountingProblems src maxErr roots = .ok []
      ↔ ∃ s', (new src maxErr).ledger.Passes ((new src maxErr).checkAll roots)
          (new src maxErr).start () s' := by
  unfold accountingProblems
  dsimp only
  constructor
  · intro h
    split at h
    · next tally hrun =>
        have hsized := (checkAll_keeps sized_stable _ start_clean.2).ok hrun
        exact ⟨tally, hrun, Except.ok.inj h, hsized⟩
    · cases h
  · rintro ⟨s', hrun, hclean⟩
    rw [hrun]
    exact congrArg Except.ok hclean.1

theorem entered_iff {u : PageUse} (hpage : u.page ∈ src.pages) (hone : u.page ≠ 1)
    : (new src maxErr).Entered u
      ↔ (src.autoVacuum = true → src.HasEntry u.page u.role.kind u.role.parent) := by
  obtain ⟨hzero, hlast⟩ := mem_pages.mp hpage
  exact imp_congr_right fun _ => ptrmapGet_iff hzero hone hlast

theorem freelist_free {k : Nat} (h : src.Freelist k pg uses)
    : ∀ u ∈ uses, u.role = .free := by
  induction k generalizing pg uses with
  | zero =>
    obtain ⟨-, rfl⟩ := h
    exact nofun
  | succ k ih =>
    obtain ⟨-, page, leaves, rest, -, ⟨-, rfl⟩, rfl, hrest⟩ := h
    refine forall_mem_cons.mpr ⟨rfl, forall_mem_append.mpr ⟨fun u hu => ?_, ih hrest⟩⟩
    obtain ⟨i, -, rfl⟩ := mem_map.mp hu
    rfl

/-- Below its top, a tree has no root. -/
theorem tree_tail {height : Nat} {role : PageRole} (h : src.Tree need height role pg uses)
    : ∀ u ∈ uses.tail, u.role ≠ .root := by
  have hcell {u : PageUse} (hu : u.role.isNode = false) : u.role ≠ .root := by
    intro hrole
    rw [hrole] at hu
    cases hu
  induction height generalizing role pg uses with
  | zero =>
    obtain ⟨_, cells, -, -, hcells, rfl⟩ := h
    exact fun u hu => hcell (cells_overflow hcells u hu)
  | succ height ih =>
    obtain ⟨_, cells, below, -, -, hcells, hbelow, rfl⟩ := h
    refine forall_mem_append.mpr ⟨fun u hu => hcell (cells_overflow hcells u hu), ?_⟩
    refine (forall₂_forall_mem.mp (hbelow.imp fun i part hpart => ⟨hpart, ?_⟩)).2
    obtain ⟨child, -, htree⟩ := hpart
    obtain ⟨rest, rfl⟩ := tree_head htree
    exact forall_mem_cons.mpr ⟨nofun, ih htree⟩

theorem treeChecked_entered {root : UInt32} (h : (new src maxErr).TreeChecked root uses)
    : ∀ u ∈ uses, u.page ≠ 0 → u.page ≠ 1 → (new src maxErr).Entered u := by
  obtain ⟨height, htree⟩ := h.tree
  have htail := h.entered
  obtain ⟨rest, rfl⟩ := tree_head htree
  refine forall_mem_cons.mpr ⟨fun hzero hone => h.root_entered ?_, fun u hu _ _ => htail u hu⟩
  grind

theorem Accounted.schema_mem {roots : List UInt32} {a : Accounting}
    (h : Accounted src need roots a) : (⟨1, .root⟩ : PageUse) ∈ a.uses := by
  obtain ⟨part, parts, ⟨height, htree⟩, -, htrees⟩ := forall₂_cons_left_iff.mp h.trees
  obtain ⟨rest, rfl⟩ := tree_head htree
  rw [Accounting.uses, htrees]
  exact mem_append_right _ (mem_append_left _ mem_cons_self)

theorem Accounted.page_one {roots : List UInt32} {a : Accounting}
    (h : Accounted src need roots a) {u : PageUse} (hu : u ∈ a.uses) (hone : u.page = 1)
    : u = ⟨1, .root⟩ := by
  have hnodup := (nodup_append'.mp (h.partition.nodup_iff.mpr nodup_pages)).2.1
  exact inj_on_of_nodup_map hnodup hu h.schema_mem hone

/-- The check reports nothing exactly when the file can be accounted for along the overflow
pointers of its cells and no leaf below a root is empty.
-/
theorem accountingProblems_iff (hbudget : 0 < maxErr) (roots : List (UInt32 × String))
    : accountingProblems src maxErr roots = .ok []
      ↔ ∃ a, Accounted src (followedPages src.usableSize) (roots.map Prod.fst) a
          ∧ NoEmptyLeaf src a.uses := by
  rw [accountingProblems_passes]
  constructor
  · rintro ⟨s', hpass⟩
    obtain ⟨free, parts, ⟨hfree, hcount, hentered⟩, hparts, hclaim, hsweep⟩ :=
      (checkAll_passes hbudget roots).mp hpass
    have hperm := partition_iff.mp ⟨s', hclaim, hsweep⟩
    have hpages : ∀ u ∈ free ++ parts.flatten, u.page ∈ src.pages := fun u hu =>
      hperm.mem_iff.mp (mem_append_right _ (mem_map_of_mem hu))
    have hall := (forall₂_forall_mem.mp (hparts.imp fun root part h =>
      ⟨h, treeChecked_entered h⟩)).2
    have hempty := (forall₂_forall_mem.mp (hparts.imp fun root part h => ⟨h, h.nonEmpty⟩)).2
    obtain ⟨trunks, hlist⟩ := hfree
    refine ⟨⟨free, parts⟩, ⟨⟨trunks, hlist⟩, hcount, hparts.imp fun _ _ h => h.tree, hperm, ?_⟩, ?_⟩
    · intro hauto u hu hone
      have hu' : (new src maxErr).Entered u := by
        rcases mem_append.mp hu with h | h
        · exact hentered u h
        · exact hall u h (mem_pages.mp (hpages u hu)).1 hone
      exact (entered_iff (hpages u hu) hone).mp hu' hauto
    · refine forall_mem_append.mpr ⟨fun u hu parent hrole => ?_, hempty⟩
      rw [freelist_free hlist u hu] at hrole
      cases hrole
  · rintro ⟨a, hacc, hempty⟩
    obtain ⟨s', hclaim, hsweep⟩ := (@partition_iff maxErr a.uses src).mpr hacc.partition
    have hpages : ∀ u ∈ a.uses, u.page ∈ src.pages := fun u hu =>
      hacc.partition.mem_iff.mp (mem_append_right _ (mem_map_of_mem hu))
    have hentered : ∀ u ∈ a.uses, u ≠ ⟨1, .root⟩ → (new src maxErr).Entered u := by
      intro u hu hnot
      have hone : u.page ≠ 1 := fun h => hnot (hacc.page_one hu h)
      exact (entered_iff (hpages u hu) hone).mpr fun hauto => hacc.entries hauto u hu hone
    obtain ⟨trunks, hlist⟩ := hacc.freelist
    have hfree : ∀ u ∈ a.free, (new src maxErr).Entered u := by
      intro u hu
      refine hentered u (mem_append_left _ hu) fun h => ?_
      have hrole := freelist_free hlist u hu
      rw [h] at hrole
      cases hrole
    have hparts : List.Forall₂ (new src maxErr).TreeChecked (1 :: roots.map Prod.fst) a.trees := by
      refine (forall₂_forall_mem.mpr ⟨hacc.trees, fun u hu =>
        And.intro (hempty u (mem_append_right _ hu))
          (hentered u (mem_append_right _ hu))⟩).imp fun root part hpart => ?_
      obtain ⟨⟨height, htree⟩, hall⟩ := hpart
      obtain ⟨rest, rfl⟩ := tree_head htree
      refine ⟨⟨height, htree⟩, fun u hu => (hall u hu).1, fun hroot => ?_, fun u hu => ?_⟩
      · refine (hall _ mem_cons_self).2 fun h => ?_
        cases h
        exact absurd hroot (by decide)
      · refine (hall u (mem_cons_of_mem _ hu)).2 fun h => tree_tail htree u hu ?_
        rw [h]
    exact ⟨s', (checkAll_passes hbudget roots).mpr
      ⟨a.free, a.trees, ⟨⟨trunks, hlist⟩, hacc.freeCount, hfree⟩, hparts, hclaim, hsweep⟩⟩

end GraphiteSql
