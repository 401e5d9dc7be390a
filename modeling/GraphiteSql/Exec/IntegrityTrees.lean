import GraphiteSql.Exec.IntegrityWalks

/-! What the walk of the trees accounts for: nodes, the overflow chains of their cells, and one
height for all the leaves of a tree.
-/

namespace GraphiteSql.PageAccounting

open Lib Ptrmap Ledger List Nat

variable {s s' : Tally} {pg : UInt32} {uses : List PageUse} {visit : UInt32 → Check Int}
  {rel : Int → UInt32 → List PageUse → Prop} {acct : PageAccounting} {label : String}

-- Marks

/-- `uses` are marked, none of them twice, and no problem is reported. -/
structure Marks (acct : PageAccounting) (s : Tally) (uses : List PageUse) (s' : Tally) : Prop where
  range : ∀ u ∈ uses, u.page ≠ 0 ∧ u.page ≤ acct.nPage
  fresh : ∀ u ∈ uses, Bitmap.get s.refs u.page.toNat = false
  distinct : (uses.map PageUse.page).Nodup
  clean : acct.ledger.clean s'
  marked : ∀ i, Bitmap.get s'.refs i = true
    ↔ Bitmap.get s.refs i = true ∨ ∃ u ∈ uses, u.page.toNat = i

theorem claim_eq_some {u : PageUse}
    : acct.ledger.claim s u = some s' ↔ u.page ≠ 0 ∧ u.page ≤ acct.nPage
      ∧ Bitmap.get s.refs u.page.toNat = false
      ∧ s' = { s with refs := Bitmap.set s.refs u.page.toNat } := by
  simp only [ledger, Option.ite_none_left_eq_some, Option.some.injEq, not_or, UInt32.not_lt,
    Bool.not_eq_true, ne_eq, and_assoc, @eq_comm _ _ s']

section

variable (hs : acct.ledger.clean s)

include hs

theorem get_mark (hpg : pg ≤ acct.nPage) (i : Nat)
    : Bitmap.get (Bitmap.set s.refs pg.toNat) i = true
      ↔ pg.toNat = i ∨ Bitmap.get s.refs i = true := by
  have hin : pg.toNat / 8 < s.refs.length := by
    rw [hs.2]
    exact lt_succ_of_le (Nat.div_le_div_right (UInt32.le_iff_toNat_le.mp hpg))
  rw [Bitmap.get_set hin, Bool.or_eq_true, decide_eq_true_iff]

/-- A list is claimed when its pages are in range, not marked and distinct. -/
theorem claimAll_marks
    (h : acct.ledger.claimAll s uses = some s') : Marks acct s uses s' := by
  induction uses generalizing s with
  | nil =>
    cases h
    exact ⟨nofun, nofun, .nil, hs, by simp⟩
  | cons u rest ih =>
    obtain ⟨mid, hclaim, hrest⟩ := Option.bind_eq_some_iff.mp h
    obtain ⟨hzero, hlast, hfree, rfl⟩ := claim_eq_some.mp hclaim
    have hclean : acct.ledger.clean { s with refs := Bitmap.set s.refs u.page.toNat } :=
      ⟨hs.1, (Bitmap.length_set ..).trans hs.2⟩
    have hmid := ih hclean hrest
    have hmark := get_mark hs hlast
    have hother : ∀ v ∈ rest, ¬ (u.page.toNat = v.page.toNat
        ∨ Bitmap.get s.refs v.page.toNat = true) := by
      intro v hv
      rw [← hmark, hmid.fresh v hv]
      exact Bool.false_ne_true
    refine ⟨forall_mem_cons.mpr ⟨⟨hzero, hlast⟩, hmid.range⟩,
      forall_mem_cons.mpr ⟨hfree, fun v hv => ?_⟩, ?_, hmid.clean, fun i => ?_⟩
    · exact Bool.eq_false_iff.mpr fun h => hother v hv (.inr h)
    · rw [map_cons, nodup_cons]
      refine ⟨fun hmem => ?_, hmid.distinct⟩
      obtain ⟨v, hv, hpage⟩ := mem_map.mp hmem
      exact hother v hv (.inl (congrArg UInt32.toNat hpage.symm))
    · rw [hmid.marked, hmark]
      simp only [exists_mem_cons_iff]
      tauto

theorem claimAll_of_fresh
    (hrange : ∀ u ∈ uses, u.page ≠ 0 ∧ u.page ≤ acct.nPage)
    (hfresh : ∀ u ∈ uses, Bitmap.get s.refs u.page.toNat = false)
    (hdistinct : (uses.map PageUse.page).Nodup) : ∃ s', acct.ledger.claimAll s uses = some s' := by
  induction uses generalizing s with
  | nil => exact ⟨s, rfl⟩
  | cons u rest ih =>
    obtain ⟨⟨hzero, hlast⟩, hrange⟩ := forall_mem_cons.mp hrange
    obtain ⟨hfree, hfresh⟩ := forall_mem_cons.mp hfresh
    rw [map_cons, nodup_cons] at hdistinct
    have hclaim := claim_eq_some.mpr ⟨hzero, hlast, hfree, rfl⟩
    have hclean : acct.ledger.clean { s with refs := Bitmap.set s.refs u.page.toNat } :=
      ⟨hs.1, (Bitmap.length_set ..).trans hs.2⟩
    rw [claimAll_cons, hclaim]
    refine ih hclean hrange (fun v hv => ?_) hdistinct.2
    refine Bool.eq_false_iff.mpr fun h => ?_
    rcases (get_mark hs hlast _).mp h with hsame | hmarked
    · refine hdistinct.1 (mem_map.mpr ⟨v, hv, (UInt32.toNat_inj.mp hsame).symm⟩)
    · rw [hfresh v hv] at hmarked
      cases hmarked

end

/-- No more pages can be claimed than the file has. -/
theorem Marks.length_le (h : Marks acct s uses s')
    : uses.length ≤ acct.nPage.toNat := by
  have hnodup : (uses.map fun u => u.page.toNat).Nodup := by
    have := h.distinct.map fun _ _ => UInt32.toNat_inj.mp
    rwa [map_map] at this
  have hsubset : (uses.map fun u => u.page.toNat) ⊆ range' 1 acct.nPage.toNat := by
    intro i hi
    obtain ⟨u, hu, rfl⟩ := mem_map.mp hi
    obtain ⟨hzero, hlast⟩ := h.range u hu
    have hpos : u.page.toNat ≠ 0 := fun h => hzero (UInt32.toNat_inj.mp h)
    have hle := UInt32.le_iff_toNat_le.mp hlast
    rw [mem_range'_1]
    omega
  simpa using (hnodup.subperm hsubset).length_le

/-- What a node passes with below it, when `rel` says what each subtree passes with. -/
def Children (acct : PageAccounting) (rel : Int → UInt32 → List PageUse → Prop) (bt : BtreePage)
    (pageNo : UInt32) (depth : Int) (uses : List PageUse) : Prop :=
  ∃ below, uses = below.flatten
    ∧ if bt.pageType.isLeaf = true then depth = 0 ∧ below = []
      else ∃ height, depth = height + 1
        ∧ List.Forall₂ (fun i part => ∃ child, bt.childPointer i = .ok child
            ∧ acct.Entered ⟨child, .btree pageNo⟩ ∧ rel height child part)
          (List.range (bt.numCells + 1)) below

def NodeBody (acct : PageAccounting) (rel : Int → UInt32 → List PageUse → Prop) (bt : BtreePage)
    (pageNo : UInt32) (depth : Int) (uses : List PageUse) : Prop :=
  ∃ cells vs, List.Forall₂ (acct.src.CellChain (followedPages acct.src.usableSize) bt pageNo)
      (List.range bt.numCells) cells
    ∧ (∀ u ∈ cells.flatten, acct.Entered u)
    ∧ acct.Children rel bt pageNo depth vs
    ∧ uses = cells.flatten ++ vs

section Walks

variable (hbudget : 0 < acct.maxErr) (husable : acct.usable = acct.src.usableSize)
  (hsticky : ∀ child, acct.ledger.Sticky (visit child))
  (hvisit : ∀ child, acct.ledger.Accounts (visit child) fun depth uses => rel depth child uses)

theorem chain_length {src : PageFile} {k : Nat} {role : PageRole}
    (h : src.Chain k role pg uses) : uses.length = k := by
  induction k generalizing role pg uses with
  | zero => rw [h.2, length_nil]
  | succ k ih =>
    obtain ⟨-, page, rest, -, rfl, hrest⟩ := h
    rw [length_cons, ih hrest]

theorem freelist_length {src : PageFile} {k : Nat}
    (h : src.Freelist k pg uses) : k ≤ uses.length := by
  induction k generalizing pg uses with
  | zero => exact zero_le _
  | succ k ih =>
    obtain ⟨-, page, leaves, rest, -, -, rfl, hrest⟩ := h
    have := ih hrest
    rw [length_cons, length_append]
    omega

theorem overflowPages_eq (src : PageFile) (p : Payload)
    : overflowPages src.usableSize p
      = if p.totalLen - p.localLen + (src.usableSize - 5) < 2 ^ 64 then
          .ok (requiredPages src.usableSize p)
        else .error (.panic "attempt to add with overflow") := by
  have hlarge := src.usable_large
  unfold overflowPages usizeAdd
  split
  · have hceil : p.totalLen - p.localLen + (src.usableSize - 5)
        = p.totalLen - p.localLen + (src.usableSize - 4) - 1 := by omega
    rw [except_ok_bind, except_pure, requiredPages, ceilDiv_eq_add_pred_div, ← hceil,
      max_eq_left (by omega)]
  · rfl

include hbudget

theorem checkList_chain (first expected : UInt32) (role : PageRole)
    : acct.ledger.Accounts (acct.checkList false first expected label) fun _ uses =>
      acct.src.Chain expected.toNat role first uses ∧ ∀ u ∈ uses.tail, acct.Entered u := by
  refine .skip (a := 0) (fun s hs => by simp [reported, hs.1]) ?_
  refine (chainLoop_accounts hbudget expected _ role first expected.toNat).congr_claimed
    fun s _ uses s' hs hclaim => ⟨?_, ?_⟩
  · rintro ⟨k, -, hk, hchain, htail⟩
    rw [Int.ofNat_inj.mp hk]
    exact ⟨hchain, htail⟩
  rintro ⟨hchain, htail⟩
  have hbound := (claimAll_marks hs hclaim).length_le
  rw [chain_length hchain] at hbound
  exact ⟨_, lt_succ_of_le hbound, rfl, hchain, htail⟩

theorem checkDepth_accounts (firstChild : Bool) (depth' depth : Int)
    : acct.ledger.Accounts (acct.checkDepth label firstChild depth' depth) fun _ uses =>
      (firstChild = false → depth' = depth) ∧ uses = [] :=
  (report_accounts hbudget).congr fun _ _ => and_congr_left fun _ => by simp

theorem checkLeaf_accounts (bt : BtreePage) (pageNo : UInt32) (isRoot : Bool)
    : acct.ledger.Accounts (acct.checkLeaf label bt pageNo isRoot) fun _ uses =>
      (isRoot = false → bt.pageType.isLeaf = true → bt.numCells ≠ 0) ∧ uses = [] :=
  (report_accounts hbudget).congr fun _ _ => and_congr_left fun _ => by simp; tauto

include husable

theorem checkFreelist_accounts
    : acct.ledger.Accounts acct.checkFreelist fun _ uses =>
      (∃ trunks, acct.src.Freelist trunks acct.freelistTrunk uses)
        ∧ uses.length = acct.freelistCount.toNat ∧ ∀ u ∈ uses, acct.Entered u := by
  refine .skip (a := 0) (fun s hs => by simp [reported, hs.1]) ?_
  refine (trunkLoop_accounts hbudget husable _ _ _ acct.freelistCount.toNat).congr_claimed
    fun s _ uses s' hs hclaim => ⟨?_, ?_⟩
  · rintro ⟨k, -, hk, hlist, hall⟩
    exact ⟨⟨k, hlist⟩, (Int.ofNat_inj.mp hk).symm, hall⟩
  · rintro ⟨⟨k, hlist⟩, hcount, hall⟩
    have hbound := (claimAll_marks hs hclaim).length_le
    exact ⟨k, lt_succ_of_le ((freelist_length hlist).trans hbound), hcount ▸ rfl, hlist, hall⟩

-- Nodes

/-- A payload passes when the chain it names is as long as the check asks for. -/
theorem checkPayload_accounts (pageNo : UInt32) (payload : Option Payload)
    : acct.ledger.Accounts (acct.checkPayload label pageNo payload) fun _ uses =>
      acct.src.PayloadChain (followedPages acct.src.usableSize) pageNo payload uses
        ∧ ∀ u ∈ uses, acct.Entered u := by
  cases payload with
  | none =>
    refine (Accounts.pure _).congr fun _ uses => ⟨?_, ?_⟩
    · rintro ⟨-, rfl⟩
      exact ⟨rfl, nofun⟩
    · rintro ⟨rfl, -⟩
      exact ⟨rfl, rfl⟩
  | some p =>
    rw [checkPayload]
    split
    · next hzero =>
        refine (Accounts.pure _).congr fun _ uses => ⟨?_, ?_⟩
        · rintro ⟨-, rfl⟩
          exact ⟨⟨0, if_pos hzero, hzero, rfl⟩, nofun⟩
        rintro ⟨⟨n, hn, hchain⟩, -⟩
        rw [followedPages, if_pos hzero] at hn
        cases hn
        exact ⟨rfl, hchain.2⟩
    next hpointer =>
      let first : PageUse := ⟨p.overflow, .overflow1 pageNo⟩
      refine (lift_bind _ fun expected _ => .guard (checkEntry_accounts hbudget first)
        (fun _ => checkList_keeps ledger_stable)
        (checkList_chain hbudget p.overflow (.ofNat expected) first.role)).congr
        fun _ uses => ?_
      rw [husable, overflowPages_eq, PageFile.PayloadChain, followedPages]
      split
      · simp only [Except.ok.injEq, exists_eq_left', Option.some.injEq, UInt32.toNat_ofNat']
        constructor
        · rintro ⟨hfirst, hchain, htail⟩
          exact ⟨hchain, (entered_chain hchain).mp ⟨fun _ => hfirst, htail⟩⟩
        rintro ⟨hchain, hall⟩
        obtain ⟨hfirst, htail⟩ := (entered_chain hchain).mpr hall
        have hpos : requiredPages acct.src.usableSize p % 2 ^ 32 ≠ 0 := by
          intro hnone
          rw [hnone] at hchain
          exact hpointer hchain.1
        exact ⟨hfirst (pos_of_ne_zero hpos), hchain, htail⟩
      · simp

theorem checkCell_accounts (bt : BtreePage) (pageNo : UInt32) (i : Nat)
    : acct.ledger.Accounts (acct.checkCell label bt pageNo i) fun _ uses =>
      acct.src.CellChain (followedPages acct.src.usableSize) bt pageNo i uses
        ∧ ∀ u ∈ uses, acct.Entered u := by
  refine (attempt_bind _ (push_fails hbudget _) fun payload _ =>
    checkPayload_accounts hbudget husable pageNo payload).congr fun _ uses => ?_
  simp only [PageFile.CellChain, husable, ← and_assoc, exists_and_right]

/-- The cells of a node pass when each of them does. -/
theorem checkCells_accounts (bt : BtreePage) (pageNo : UInt32) (cells : List Nat)
    : acct.ledger.Accounts (acct.checkCells label bt pageNo cells) fun stop uses =>
      stop = false ∧ ∃ parts, uses = parts.flatten
        ∧ List.Forall₂ (acct.src.CellChain (followedPages acct.src.usableSize) bt pageNo)
            cells parts
        ∧ ∀ u ∈ uses, acct.Entered u := by
  induction cells with
  | nil =>
    refine (Accounts.pure _).congr fun stop uses => and_congr_right fun _ => ⟨?_, ?_⟩
    · rintro rfl
      exact ⟨[], rfl, .nil, nofun⟩
    · rintro ⟨_, rfl, ⟨⟩, -⟩
      rfl
  | cons i rest ih =>
    refine .skip (fun s hs => full_clean hbudget hs) ?_
    refine ((checkCell_accounts hbudget husable bt pageNo i).bind (fun _ stop uses => _)
      (fun _ => checkCells_keeps ledger_stable) fun _ _ _ => ih).congr fun stop uses => ⟨?_, ?_⟩
    · rintro ⟨_, part, _, ⟨hcell, hpart⟩, ⟨rfl, parts, rfl, hcells, hrest⟩, rfl⟩
      exact ⟨rfl, part :: parts, rfl, .cons hcell hcells, forall_mem_append.mpr ⟨hpart, hrest⟩⟩
    rintro ⟨rfl, _, rfl, hcells, hall⟩
    obtain ⟨part, parts, hcell, htail, rfl⟩ := forall₂_cons_left_iff.mp hcells
    obtain ⟨hpart, hrest⟩ := forall_mem_append.mp hall
    exact ⟨⟨⟩, part, parts.flatten, ⟨hcell, hpart⟩, ⟨rfl, parts, rfl, htail, hrest⟩, rfl⟩

include hsticky hvisit

omit husable in
/-- The children of a node pass when each subtree passes, all with one result. -/
theorem checkChildren_accounts (bt : BtreePage) (pageNo : UInt32) (children : List Nat)
    (depth : Int) (firstChild : Bool)
    : acct.ledger.Accounts (acct.checkChildren label bt pageNo visit children depth firstChild)
      fun result uses => ∃ parts height, uses = parts.flatten
        ∧ List.Forall₂ (fun i part => ∃ child, bt.childPointer i = .ok child
            ∧ acct.Entered ⟨child, .btree pageNo⟩ ∧ rel height child part) children parts
        ∧ result = some (if children = [] then depth else height)
        ∧ (children ≠ [] → firstChild = false → height = depth) := by
  induction children generalizing depth firstChild with
  | nil =>
    refine (Accounts.pure _).congr fun result uses => ⟨?_, ?_⟩
    · rintro ⟨rfl, rfl⟩
      exact ⟨[], depth, rfl, .nil, rfl, fun h => (h rfl).elim⟩
    · rintro ⟨_, _, rfl, ⟨⟩, rfl, -⟩
      exact ⟨rfl, rfl⟩
  | cons i rest ih =>
    refine .skip (fun s hs => full_clean hbudget hs) ?_
    refine (attempt_bind _ (pushThen_fails hbudget ((checkChildren_keeps ledger_stable) hsticky) _)
      fun child _ => .guard (checkEntry_accounts hbudget ⟨child, .btree pageNo⟩) (fun _ => ?_)
        ((hvisit child).bind _ (fun _ => ?_) fun depth' _ _ =>
          .guard (checkDepth_accounts hbudget firstChild depth' depth)
            (fun _ => checkChildren_keeps ledger_stable hsticky) (ih depth' false))).congr
      fun result uses => ⟨?_, ?_⟩
    · exact .bind (hsticky _) fun _ => .bind (checkDepth_keeps ledger_stable) fun _ =>
        checkChildren_keeps ledger_stable hsticky
    · exact .bind (checkDepth_keeps ledger_stable) fun _ =>
        checkChildren_keeps ledger_stable hsticky
    · rintro ⟨child, hchild, hentered, depth', part, _, hpart, ⟨hdepth, parts, height, rfl, hrest,
        rfl, hsame⟩, rfl⟩
      have hheight : rest ≠ [] → height = depth' := fun h => hsame h rfl
      refine ⟨part :: parts, depth', rfl, .cons ⟨child, hchild, hentered, hpart⟩ ?_, ?_,
        fun _ => hdepth⟩
      · cases hrest with
        | nil => exact .nil
        | cons => exact hheight (cons_ne_nil _ _) ▸ .cons ‹_› ‹_›
      · by_cases hnil : rest = []
        · simp [hnil]
        · simp [hnil, hheight hnil]
    · rintro ⟨_, height, rfl, hall, rfl, hdepth⟩
      obtain ⟨part, parts, ⟨child, hchild, hentered, hpart⟩, hrest, rfl⟩ :=
        forall₂_cons_left_iff.mp hall
      refine ⟨child, hchild, hentered, height, part, parts.flatten, hpart,
        ⟨hdepth (cons_ne_nil _ _), parts, height, rfl, hrest, ?_, fun _ _ => rfl⟩, rfl⟩
      simp

/-- What `walkPage` returns after its children. -/
def above : Option Int → Check Int
  | none => return 0
  | some depth => return depth + 1

/-- The body of a node passes with the cells' chains and, below an interior node, subtrees of
one height.
-/
theorem walkPage_accounts (bt : BtreePage) (pageNo : UInt32) (isRoot : Bool)
    : acct.ledger.Accounts (acct.walkPage label bt pageNo isRoot visit) fun depth uses =>
      (isRoot = false → bt.pageType.isLeaf = true → bt.numCells ≠ 0)
      ∧ acct.NodeBody rel bt pageNo depth uses := by
  have hdone {result : Option Int} : acct.ledger.Sticky (above result) := by
    cases result <;> exact .pure _
  have hafter (stop : Bool) : acct.ledger.Sticky
      (if stop then return 0 else if bt.pageType.isLeaf then return 0
        else acct.checkChildren label bt pageNo visit (range (bt.numCells + 1))
          (-1) true >>= above) := by
    split
    · exact .pure _
    split
    · exact .pure _
    · exact .bind ((checkChildren_keeps ledger_stable) hsticky) fun _ => hdone
  refine .guard (checkLeaf_accounts hbudget bt pageNo isRoot)
    (fun _ => .bind (checkCells_keeps ledger_stable) hafter) ?_
  refine ((checkCells_accounts hbudget husable bt pageNo _).bind
    (fun _ => acct.Children rel bt pageNo) hafter ?_).congr fun depth uses => ⟨?_, ?_⟩
  · rintro _ _ ⟨rfl, -⟩
    simp only [Bool.false_eq_true, if_false]
    split
    · next hleaf =>
        refine (Accounts.pure _).congr fun depth uses => ?_
        simp only [Children, hleaf, if_true]
        constructor
        · rintro ⟨rfl, rfl⟩
          exact ⟨[], rfl, rfl, rfl⟩
        · rintro ⟨_, rfl, rfl, rfl⟩
          exact ⟨rfl, rfl⟩
    next hinterior =>
      refine ((checkChildren_accounts hbudget hsticky hvisit bt pageNo _ (-1) true).bind
        (fun result depth uses =>
          (∃ height, result = some height ∧ depth = height + 1) ∧ uses = [])
        (fun _ => hdone) ?_).congr fun depth uses => ?_
      · rintro _ _ ⟨_, height, -, -, rfl, -⟩
        exact (Accounts.pure _).congr fun depth uses => and_congr_left fun _ => by simp
      simp only [Children, hinterior]
      constructor
      · rintro ⟨_, _, _, ⟨below, height, rfl, hbelow, rfl, -⟩, ⟨⟨_, hsome, rfl⟩, rfl⟩, rfl⟩
        refine ⟨below, append_nil _, height, ?_, hbelow⟩
        simpa [range_succ] using hsome.symm
      rintro ⟨below, rfl, height, rfl, hbelow⟩
      refine ⟨_, below.flatten, [],
        ⟨below, height, rfl, hbelow, rfl, fun _ h => Bool.noConfusion h⟩,
        ⟨⟨height, ?_, rfl⟩, rfl⟩, (append_nil _).symm⟩
      simp [range_succ]
  · rintro ⟨_, _, vs, ⟨rfl, cells, rfl, hcells, hall⟩, hbelow, rfl⟩
    exact ⟨cells, vs, hcells, hall, hbelow, rfl⟩
  · rintro ⟨cells, vs, hcells, hall, hbelow, rfl⟩
    exact ⟨false, _, vs, ⟨rfl, cells, rfl, hcells, hall⟩, hbelow, rfl⟩

theorem walkNode_accounts (pageNo : UInt32) (isRoot : Bool)
    : acct.ledger.Accounts (acct.walkNode label pageNo isRoot visit) fun depth uses =>
      ∃ bt, acct.src.node pageNo = .ok bt
        ∧ (isRoot = false → bt.pageType.isLeaf = true → bt.numCells ≠ 0)
        ∧ acct.NodeBody rel bt pageNo depth uses := by
  refine (attempt_bind _ (pushThen_fails hbudget (.pure _) _) fun page _ =>
    attempt_bind _ (pushThen_fails hbudget (.pure _) _) fun bt _ =>
      walkPage_accounts hbudget husable hsticky hvisit bt pageNo isRoot).congr
    fun depth uses => ⟨?_, ?_⟩
  · rintro ⟨page, hread, bt, hparse, hbody⟩
    exact ⟨bt, except_bind_eq_ok.mpr ⟨page, hread, hparse⟩, hbody⟩
  · rintro ⟨bt, hnode, hbody⟩
    obtain ⟨page, hread, hparse⟩ := except_bind_eq_ok.mp hnode
    exact ⟨page, hread, bt, hparse, hbody⟩

end Walks

end GraphiteSql.PageAccounting
