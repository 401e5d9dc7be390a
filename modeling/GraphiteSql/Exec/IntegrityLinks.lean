import GraphiteSql.Exec.IntegrityFile
import GraphiteSql.Pager.Open

/-! When accounting for a file along the overflow pointers of its cells is accounting for all
of their payloads: when no payload that spills has a pointer of 0.
-/

namespace GraphiteSql

open Lib PageAccounting PageFile List Nat

variable {cells : List (List PageUse)} {uses us vs : List PageUse} {role : PageRole} {pg : UInt32}
  {bt : BtreePage} {src : PageFile} {need need' : Payload → Option Nat}

theorem chain_unique {n m : Nat}
    (hus : src.Chain n role pg us) (hvs : src.Chain m role pg vs) : us = vs := by
  induction n generalizing m role pg us vs with
  | zero =>
    obtain ⟨rfl, rfl⟩ := hus
    cases m with
    | zero => exact hvs.2.symm
    | succ m => exact (hvs.1 rfl).elim
  | succ n ih =>
    obtain ⟨hne, page, rest, hpage, rfl, hrest⟩ := hus
    cases m with
    | zero => exact (hne hvs.1).elim
    | succ m =>
      obtain ⟨-, page', rest', hpage', rfl, hrest'⟩ := hvs
      cases hpage.symm.trans hpage'
      rw [ih hrest hrest']

theorem freelist_unique {n m : Nat}
    (hus : src.Freelist n pg us) (hvs : src.Freelist m pg vs) : us = vs := by
  induction n generalizing m pg us vs with
  | zero =>
    obtain ⟨rfl, rfl⟩ := hus
    cases m with
    | zero => exact hvs.2.symm
    | succ m => exact (hvs.1 rfl).elim
  | succ n ih =>
    obtain ⟨hne, page, leaves, rest, hpage, ⟨-, rfl⟩, rfl, hrest⟩ := hus
    cases m with
    | zero => exact (hne hvs.1).elim
    | succ m =>
      obtain ⟨-, page', leaves', rest', hpage', ⟨-, rfl⟩, rfl, hrest'⟩ := hvs
      cases hpage.symm.trans hpage'
      rw [ih hrest hrest']

theorem cellChain_unique (i : Nat) (us vs : List PageUse)
    (hus : src.CellChain need bt pg i us) (hvs : src.CellChain need bt pg i vs) : us = vs := by
  obtain ⟨payload, hpayload, hus⟩ := hus
  obtain ⟨payload', hpayload', hvs⟩ := hvs
  cases hpayload.symm.trans hpayload'
  cases payload with
  | none => exact hus.trans hvs.symm
  | some p =>
    obtain ⟨n, -, hus⟩ := hus
    obtain ⟨m, -, hvs⟩ := hvs
    exact chain_unique hus hvs

theorem tree_unique {h k : Nat}
    (hus : src.Tree need h role pg us) (hvs : src.Tree need k role pg vs) : us = vs := by
  induction h generalizing k role pg us vs with
  | zero =>
    obtain ⟨bt, cells, hnode, hleaf, hcells, rfl⟩ := hus
    cases k with
    | zero =>
      obtain ⟨bt', cells', hnode', -, hcells', rfl⟩ := hvs
      cases hnode.symm.trans hnode'
      rw [forall₂_eq cellChain_unique hcells hcells']
    | succ k =>
      obtain ⟨bt', cells', below', hnode', hinterior, -⟩ := hvs
      cases hnode.symm.trans hnode'
      cases hleaf.symm.trans hinterior
  | succ h ih =>
    obtain ⟨bt, cells, below, hnode, hinterior, hcells, hbelow, rfl⟩ := hus
    cases k with
    | zero =>
      obtain ⟨bt', cells', hnode', hleaf, -⟩ := hvs
      cases hnode.symm.trans hnode'
      cases hleaf.symm.trans hinterior
    | succ k =>
      obtain ⟨bt', cells', below', hnode', -, hcells', hbelow', rfl⟩ := hvs
      cases hnode.symm.trans hnode'
      rw [forall₂_eq cellChain_unique hcells hcells', forall₂_eq ?_ hbelow hbelow']
      rintro i part part' ⟨child, hchild, hpart⟩ ⟨child', hchild', hpart'⟩
      cases hchild.symm.trans hchild'
      exact ih hpart hpart'

theorem Accounted.unique {roots : List UInt32} {a b : Accounting}
    (ha : Accounted src need roots a) (hb : Accounted src need roots b) : a = b := by
  obtain ⟨n, hfree⟩ := ha.freelist
  obtain ⟨m, hfree'⟩ := hb.freelist
  have htrees : a.trees = b.trees := by
    refine forall₂_eq ?_ ha.trees hb.trees
    rintro root us vs ⟨h, hus⟩ ⟨k, hvs⟩
    exact tree_unique hus hvs
  rw [Accounting.mk.injEq]
  exact ⟨freelist_unique hfree hfree', htrees⟩

theorem cells_congr (hrole : role.isNode = true) (hnode : src.node pg = .ok bt)
    (hneed : (⟨pg, role⟩ : PageUse).Payloads src fun p => need p = need' p)
    (hcells : List.Forall₂ (src.CellChain need bt pg) (range bt.numCells) cells)
    : List.Forall₂ (src.CellChain need' bt pg) (range bt.numCells) cells := by
  refine ((forall₂_and_left _ _).mpr ⟨hneed hrole bt hnode, hcells⟩).imp fun i part h => ?_
  obtain ⟨hsame, payload, hpayload, hchain⟩ := h
  refine ⟨payload, hpayload, ?_⟩
  cases payload with
  | none => exact hchain
  | some p =>
    obtain ⟨n, hn, hchain⟩ := hchain
    exact ⟨n, (hsame p hpayload).symm.trans hn, hchain⟩

/-- A tree stays a tree when its payloads need as many pages as before. -/
theorem tree_congr {height : Nat}
    (hrole : role.isNode = true) (htree : src.Tree need height role pg uses)
    (hneed : ∀ u ∈ uses, u.Payloads src fun p => need p = need' p)
    : src.Tree need' height role pg uses := by
  induction height generalizing role pg uses with
  | zero =>
    obtain ⟨bt, cells, hnode, hleaf, hcells, rfl⟩ := htree
    obtain ⟨htop, -⟩ := forall_mem_cons.mp hneed
    exact ⟨bt, cells, hnode, hleaf, cells_congr hrole hnode htop hcells, rfl⟩
  | succ height ih =>
    obtain ⟨bt, cells, below, hnode, hinterior, hcells, hbelow, rfl⟩ := htree
    obtain ⟨htop, hneed⟩ := forall_mem_cons.mp hneed
    obtain ⟨-, hneed⟩ := forall_mem_append.mp hneed
    refine ⟨bt, cells, below, hnode, hinterior, cells_congr hrole hnode htop hcells, ?_, rfl⟩
    refine (forall₂_forall_mem.mpr ⟨hbelow, hneed⟩).imp fun i part h => ?_
    obtain ⟨⟨child, hchild, hpart⟩, hneed⟩ := h
    exact ⟨child, hchild, ih rfl hpart hneed⟩

def Chained (src : PageFile) (need : Payload → Option Nat) (bound : Nat) (p : Payload) : Prop :=
  ∃ n holder chain, need p = some n ∧ src.Chain n (.overflow1 holder) p.overflow chain ∧ n ≤ bound

theorem payloads_imp {u : PageUse} {prop prop' : Payload → Prop} (himp : ∀ p, prop p → prop' p)
    (h : u.Payloads src prop) : u.Payloads src prop' :=
  fun hrole bt hnode i hi p hp => himp p (h hrole bt hnode i hi p hp)

theorem Chained.mono {bound bound' : Nat} (hle : bound ≤ bound') {u : PageUse}
    (h : u.Payloads src (Chained src need bound)) : u.Payloads src (Chained src need bound') :=
  payloads_imp (fun _ ⟨n, holder, chain, hn, hchain, hbound⟩ =>
    ⟨n, holder, chain, hn, hchain, hbound.trans hle⟩) h

theorem cells_chained (hnode : src.node pg = .ok bt)
    (hcells : List.Forall₂ (src.CellChain need bt pg) (range bt.numCells) cells)
    : (⟨pg, role⟩ : PageUse).Payloads src (Chained src need cells.flatten.length) := by
  intro _ bt' hnode' i hi p hp
  cases hnode.symm.trans hnode'
  obtain ⟨part, hpart, payload, hpayload, hchain⟩ := forall₂_left hcells hi
  cases hp.symm.trans hpayload
  obtain ⟨n, hn, hchain⟩ := hchain
  refine ⟨n, pg, part, hn, hchain, ?_⟩
  rw [← chain_length hchain]
  exact (sublist_flatten_of_mem hpart).length_le

theorem overflow_payloads {u : PageUse} (h : u.role.isNode = false) {prop : Payload → Prop}
    : u.Payloads src prop := by
  intro hrole
  cases h.symm.trans hrole

/-- Every payload of a tree has the chain that it needs. -/
theorem tree_chained {height : Nat} (htree : src.Tree need height role pg uses)
    : ∀ u ∈ uses, u.Payloads src (Chained src need uses.length) := by
  induction height generalizing role pg uses with
  | zero =>
    obtain ⟨bt, cells, hnode, -, hcells, rfl⟩ := htree
    refine forall_mem_cons.mpr ⟨Chained.mono (by simp) (cells_chained hnode hcells), fun u hu => ?_⟩
    exact overflow_payloads (cells_overflow hcells u hu)
  | succ height ih =>
    obtain ⟨bt, cells, below, hnode, -, hcells, hbelow, rfl⟩ := htree
    have hcellsLength : cells.flatten.length
        ≤ (⟨pg, role⟩ :: (cells.flatten ++ below.flatten) : List PageUse).length := by
      simp only [length_cons, length_append]
      omega
    refine forall_mem_cons.mpr ⟨Chained.mono hcellsLength (cells_chained hnode hcells),
      forall_mem_append.mpr ⟨fun u hu => overflow_payloads (cells_overflow hcells u hu),
        fun u hu => ?_⟩⟩
    obtain ⟨part, hpart, hu⟩ := mem_flatten.mp hu
    obtain ⟨i, -, child, -, hchild⟩ := forall₂_right hbelow hpart
    refine Chained.mono ?_ (ih hchild u hu)
    have hle := (sublist_flatten_of_mem hpart).length_le
    simp only [length_cons, length_append]
    omega

theorem spilled_le_required (p : Payload)
    : p.totalLen - p.localLen ≤ (src.usableSize - 4) * requiredPages src.usableSize p := by
  have hlarge := src.usable_large
  exact le_smul_ceilDiv (show 0 < src.usableSize - 4 by omega)

/-- A linked payload is followed for as many pages as it takes. -/
theorem followedPages_of_linked {p : Payload} (h : Linked src.usableSize p)
    : followedPages src.usableSize p = some (requiredPages src.usableSize p) := by
  have hsmall : src.usableSize ≤ 65536 := (sub_le _ _).trans src.valid.maximum
  by_cases hspill : p.localLen < p.totalLen
  · obtain ⟨hpointer, hpages⟩ := h hspill
    have hbytes := @spilled_le_required src p
    have hbound := mul_le_mul_left (src.usableSize - 4) (le_of_lt hpages)
    rw [followedPages, if_neg hpointer, if_pos (by omega), mod_eq_of_lt hpages]
  have hnone : requiredPages src.usableSize p = 0 := by
    rw [requiredPages, Nat.sub_eq_zero_of_le (not_lt.mp hspill), zero_ceilDiv]
  have hsum : p.totalLen - p.localLen + (src.usableSize - 5) < 2 ^ 64 := by omega
  rw [followedPages, hnone]
  split <;> rfl

theorem linked_of_chained {bound : Nat} (hbound : bound < 2 ^ 32) {p : Payload}
    (h : Chained src (fun p => some (requiredPages src.usableSize p)) bound p)
    : Linked src.usableSize p := by
  obtain ⟨n, holder, chain, hn, hchain, hle⟩ := h
  cases hn
  intro hspill
  refine ⟨fun hzero => ?_, lt_of_le_of_lt hle hbound⟩
  have hbytes := @spilled_le_required src p
  cases hpages : requiredPages src.usableSize p with
  | zero =>
    rw [hpages] at hbytes
    omega
  | succ k =>
    rw [hpages] at hchain
    exact hchain.1 hzero

variable {roots : List UInt32} {a : Accounting}

theorem Accounted.linked
    (h : Accounted src (fun p => some (requiredPages src.usableSize p)) roots a)
    : ∀ u ∈ a.uses, u.Payloads src (Linked src.usableSize) := by
  have hcount : a.uses.length < 2 ^ 32 := by
    have hlen := h.partition.length_eq
    have hlast := src.pageCount.toNat_lt
    simp only [length_append, length_map, pages, length_range'] at hlen
    omega
  obtain ⟨trunks, hlist⟩ := h.freelist
  refine forall_mem_append.mpr ⟨fun u hu => ?_, fun u hu => ?_⟩
  · refine overflow_payloads ?_
    rw [freelist_free hlist u hu]
    rfl
  obtain ⟨part, hpart, hmem⟩ := mem_flatten.mp hu
  obtain ⟨root, -, height, htree⟩ := forall₂_right h.trees hpart
  have hle := (sublist_flatten_of_mem hpart).length_le
  refine payloads_imp (fun _ => linked_of_chained ?_) (tree_chained htree u hmem)
  rw [Accounting.uses, length_append] at hcount
  omega

theorem Accounted.congr (h : Accounted src need roots a)
    (hneed : ∀ u ∈ a.uses, u.Payloads src fun p => need p = need' p)
    : Accounted src need' roots a := by
  refine { h with trees := ?_ }
  obtain ⟨-, hneed⟩ := forall_mem_append.mp hneed
  refine (forall₂_forall_mem.mpr ⟨h.trees, hneed⟩).imp fun root part hpart => ?_
  obtain ⟨⟨height, htree⟩, hneed⟩ := hpart
  exact ⟨height, tree_congr rfl htree hneed⟩

theorem accounted_iff_followed (h : ∀ u ∈ a.uses, u.Payloads src (Linked src.usableSize))
    : Accounted src (fun p => some (requiredPages src.usableSize p)) roots a
      ↔ Accounted src (followedPages src.usableSize) roots a := by
  have hsame u hu := payloads_imp (fun _ => followedPages_of_linked) (h u hu)
  exact ⟨fun hacc => hacc.congr fun u hu => payloads_imp (fun _ => Eq.symm) (hsame u hu),
    fun hacc => hacc.congr hsame⟩

/-- The check is sound and complete for a file and its roots exactly when every payload that
does not fit its page names a first overflow page (and takes fewer than `2 ^ 32` of them) in
the accounting along the overflow pointers.
-/
theorem accounting_exact_iff (src : PageFile) (maxErr : Nat) (hbudget : 0 < maxErr)
    (roots : List (UInt32 × String))
    : ((accountingProblems src maxErr roots = .ok [] →
          ∃ a, Accounted src (fun p => some (requiredPages src.usableSize p))
            (roots.map Prod.fst) a)
        ∧ ∀ a, Accounted src (fun p => some (requiredPages src.usableSize p))
            (roots.map Prod.fst) a →
          NoEmptyLeaf src a.uses → accountingProblems src maxErr roots = .ok [])
      ↔ ∀ a, Accounted src (followedPages src.usableSize) (roots.map Prod.fst) a →
          NoEmptyLeaf src a.uses → ∀ u ∈ a.uses, u.Payloads src (Linked src.usableSize) := by
  constructor
  · rintro ⟨hsound, -⟩ a hacc hempty
    obtain ⟨b, hb⟩ := hsound ((accountingProblems_iff hbudget roots).mpr ⟨a, hacc, hempty⟩)
    have hlinked := hb.linked
    rwa [((accounted_iff_followed hlinked).mp hb).unique hacc] at hlinked
  intro hlinked
  refine ⟨fun hclean => ?_, fun a hacc hempty => ?_⟩
  · obtain ⟨a, hacc, hempty⟩ := (accountingProblems_iff hbudget roots).mp hclean
    exact ⟨a, (accounted_iff_followed (hlinked a hacc hempty)).mpr hacc⟩
  · have hfollowed := (accounted_iff_followed hacc.linked).mp hacc
    exact (accountingProblems_iff hbudget roots).mpr ⟨a, hfollowed, hempty⟩

def listHeader (trunk free : UInt32) : DatabaseHeader :=
  { newHeader 512 .none with freelistTrunk := trunk, freelistCount := free }

/-- A file of pages of 512 bytes: page 1 with the given bytes from offset 100 on, and the others. -/
def smallFile (trunk free : UInt32) (first : Bytes) (others : List Bytes) : PageFile where
  page n :=
    match (((listHeader trunk free).toBytes ++ resize first 412 0)
        :: others.map (resize · 512 0))[n.toNat - 1]? with
    | some data => .ok { number := n, data }
    | none => .error (.corrupt "page out of range")
  header := listHeader trunk free
  pageCount := .ofNat (others.length + 1)
  valid := .of_layout (h := newHeader 512 .none) ⟨by decide, by decide, by decide, by decide⟩ rfl

/-- A schema table with one row of 600 bytes, of which 92 are on the page: the overflow pointer
behind them is 0.
-/
def danglingRow : PageFile :=
  smallFile 0 0 ([13, 0, 0, 0, 1, 0, 0, 0, 0, 200] ++ replicate 90 0 ++ [0x84, 0x58, 1]) []

/-- The check passes a row without its overflow pages. -/
theorem danglingRow_passes
    : accountingProblems danglingRow 100 [] = .ok []
      ∧ ((danglingRow.node 1).bind fun bt => cellPayload bt 0 danglingRow.usableSize)
        = .ok (some { totalLen := 600, localOffset := 203, localLen := 92, overflow := 0 })
      ∧ ¬ ∃ a, Accounted danglingRow (fun p => some (requiredPages danglingRow.usableSize p))
        [] a := by
  have hcell : ((danglingRow.node 1).bind fun bt => cellPayload bt 0 danglingRow.usableSize)
      = .ok (some { totalLen := 600, localOffset := 203, localLen := 92, overflow := 0 }) := by
    decide +kernel
  refine ⟨by decide +kernel, hcell, ?_⟩
  rintro ⟨a, hacc⟩
  obtain ⟨bt, hnode, hcell⟩ := except_bind_eq_ok.mp hcell
  have hcells : ((danglingRow.node 1).map BtreePage.numCells) = .ok 1 := by decide +kernel
  rw [hnode] at hcells
  have hzero : 0 ∈ range bt.numCells := by
    rw [Except.ok.inj hcells]
    exact mem_range.mpr one_pos
  exact (hacc.linked _ hacc.schema_mem rfl bt hnode 0 hzero _ hcell (by decide)).1 rfl

/-- An empty schema, a table with such a row on page 2 and its overflow page 3, and a free page. -/
def spilledRow : PageFile :=
  smallFile 4 1 [13] [[13, 0, 0, 0, 1, 0, 0, 0, 0, 200] ++ replicate 190 0 ++ [0x84, 0x58, 1]
    ++ replicate 92 0 ++ [0, 0, 0, 3], [], []]

theorem accounting_exact_spilledRow
    : accountingProblems spilledRow 100 [(2, "t")] = .ok []
      ∧ ∃ a, Accounted spilledRow (fun p => some (requiredPages spilledRow.usableSize p))
        [2] a := by
  have hclean : accountingProblems spilledRow 100 [(2, "t")] = .ok [] := by decide +kernel
  refine ⟨hclean, ((accounting_exact_iff spilledRow 100 (by decide) [(2, "t")]).mpr ?_).1 hclean⟩
  intro a hacc _ u hu _ bt hnode i hi p hp _
  have hpage : u.page ∈ spilledRow.pages :=
    hacc.partition.mem_iff.mp (mem_append_right _ (mem_map_of_mem hu))
  have hlinks : (spilledRow.pages.all fun n => (spilledRow.node n).toOption.all fun bt =>
      (range bt.numCells).all fun i => (cellPayload bt i spilledRow.usableSize).toOption.join.all
        fun p => p.overflow ≠ 0 ∧ requiredPages spilledRow.usableSize p < 2 ^ 32) = true := by
    decide +kernel
  have hlink := all_eq_true.mp hlinks _ hpage
  rw [hnode] at hlink
  have hcell := all_eq_true.mp hlink i hi
  rw [hp] at hcell
  exact of_decide_eq_true hcell

end GraphiteSql
