import GraphiteSql.Exec.IntegrityTrees

/-! The page accounting reports nothing exactly on the files it can account for along the
overflow pointers that their cells hold.
-/

namespace GraphiteSql.PageAccounting

open Lib Ptrmap Ledger PageFile List Nat

variable {role : PageRole} {pg : UInt32} {uses : List PageUse} {acct : PageAccounting}
  {label : String} {src : PageFile}
variable {need : Payload → Option Nat}

/-- The first reference of a tree is to its top node. -/
theorem tree_head {height : Nat}
    (h : src.Tree need height role pg uses) : ∃ rest, uses = ⟨pg, role⟩ :: rest := by
  cases height with
  | zero =>
    obtain ⟨_, cells, -, -, -, rfl⟩ := h
    exact ⟨_, rfl⟩
  | succ height =>
    obtain ⟨_, cells, below, -, -, -, -, rfl⟩ := h
    exact ⟨_, rfl⟩

theorem tree_length {height : Nat}
    (h : src.Tree need height role pg uses) : height < uses.length := by
  induction height generalizing role pg uses with
  | zero =>
    obtain ⟨rest, rfl⟩ := tree_head h
    exact succ_pos _
  | succ height ih =>
    obtain ⟨bt, cells, below, -, -, -, hbelow, rfl⟩ := h
    rw [range_succ_eq_map] at hbelow
    obtain ⟨part, parts, ⟨child, -, hpart⟩, -, rfl⟩ := forall₂_cons_left_iff.mp hbelow
    have := ih hpart
    simp only [length_cons, length_append, flatten_cons]
    omega

theorem chain_overflow {k : Nat} (hrole : role.isNode = false) (h : src.Chain k role pg uses)
    : ∀ u ∈ uses, u.role.isNode = false := by
  induction k generalizing role pg uses with
  | zero =>
    obtain ⟨-, rfl⟩ := h
    exact nofun
  | succ k ih =>
    obtain ⟨-, page, rest, -, rfl, hrest⟩ := h
    exact forall_mem_cons.mpr ⟨hrole, ih rfl hrest⟩

/-- The chains of cells have no nodes. -/
theorem cells_overflow {bt : BtreePage} {indices : List Nat} {cells : List (List PageUse)}
    (h : List.Forall₂ (src.CellChain need bt pg) indices cells)
    : ∀ u ∈ cells.flatten, u.role.isNode = false := by
  refine (forall₂_forall_mem.mp (h.imp fun i part hcell => ⟨hcell, ?_⟩)).2
  obtain ⟨payload, -, hchain⟩ := hcell
  cases payload with
  | none =>
    cases hchain
    exact nofun
  | some p =>
    obtain ⟨n, -, hchain⟩ := hchain
    exact chain_overflow rfl hchain

theorem nonEmpty_of_overflow {u : PageUse} (h : u.role.isNode = false) : u.NonEmpty src := by
  intro parent hrole
  rw [hrole] at h
  cases h

/-- What the walk of a tree passes with; the entry of its top node is not looked at. -/
def Walked (acct : PageAccounting) (levels : Nat) (role : PageRole) (depth : Int) (pg : UInt32)
    (uses : List PageUse) : Prop :=
  ∃ height < levels, depth = height
    ∧ acct.src.Tree (followedPages acct.src.usableSize) height role pg uses
    ∧ NoEmptyLeaf acct.src uses ∧ ∀ u ∈ uses.tail, acct.Entered u

/-- Subtrees that pass one by one have one height, and pass as a whole. -/
theorem walked_children {levels : Nat} {bt : BtreePage} {depth : Int}
    {indices : List Nat} (hne : indices ≠ []) {below : List (List PageUse)}
    : List.Forall₂ (fun i part => ∃ child, bt.childPointer i = .ok child
          ∧ acct.Entered ⟨child, .btree pg⟩ ∧ acct.Walked levels (.btree pg) depth child part)
        indices below
      ↔ ∃ height < levels, depth = height
        ∧ List.Forall₂ (fun i part => ∃ child, bt.childPointer i = .ok child
            ∧ acct.src.Tree (followedPages acct.src.usableSize) height (.btree pg) child part)
          indices below
        ∧ ∀ u ∈ below.flatten, u.NonEmpty acct.src ∧ acct.Entered u := by
  constructor
  · intro h
    obtain ⟨i, rest, rfl⟩ := exists_cons_of_ne_nil hne
    obtain ⟨_, _, ⟨_, -, -, height, hlevels, rfl, -⟩, -, -⟩ := forall₂_cons_left_iff.mp h
    refine ⟨height, hlevels, rfl, forall₂_forall_mem.mp (h.imp fun j part hpart => ?_)⟩
    obtain ⟨child, hchild, hentered, height', -, hsame, htree, hempty, htail⟩ := hpart
    rw [← Int.ofNat_inj.mp hsame] at htree
    refine ⟨⟨child, hchild, htree⟩, fun u hu => ⟨hempty u hu, ?_⟩⟩
    obtain ⟨rest, rfl⟩ := tree_head htree
    exact forall_mem_cons.mpr ⟨hentered, htail⟩ u hu
  rintro ⟨height, hlevels, rfl, hparts, hall⟩
  refine (forall₂_forall_mem.mpr ⟨hparts, hall⟩).imp fun i part hpart => ?_
  obtain ⟨⟨child, hchild, htree⟩, hall⟩ := hpart
  obtain ⟨rest, rfl⟩ := tree_head htree
  obtain ⟨⟨-, hentered⟩, htail⟩ := forall_mem_cons.mp hall
  exact ⟨child, hchild, hentered, height, hlevels, rfl, htree, fun u hu => (hall u hu).1,
    fun u hu => (htail u hu).2⟩

/-- A node passes when it is the top of a tree that passes. -/
theorem walked_node {levels : Nat} {isRoot : Bool}
    (hrole : isRoot = false ↔ ∃ parent, role = .btree parent) {depth : Int}
    : (∃ bt, acct.src.node pg = .ok bt
        ∧ (isRoot = false → bt.pageType.isLeaf = true → bt.numCells ≠ 0)
        ∧ acct.NodeBody (acct.Walked levels (.btree pg)) bt pg depth uses)
      ↔ acct.Walked (levels + 1) role depth pg (⟨pg, role⟩ :: uses) := by
  constructor
  · rintro ⟨bt, hnode, htop, cells, vs, hcells, hentered, ⟨below, rfl, hbelow⟩, rfl⟩
    have hnonEmpty : (⟨pg, role⟩ : PageUse).NonEmpty acct.src := by
      intro parent hparent bt' hbt' hleaf
      cases hnode.symm.trans hbt'
      exact htop (hrole.mpr ⟨parent, hparent⟩) hleaf
    have hover := cells_overflow hcells
    split at hbelow
    · next hleaf =>
        obtain ⟨rfl, rfl⟩ := hbelow
        rw [flatten_nil, append_nil]
        exact ⟨0, succ_pos _, rfl, ⟨bt, cells, hnode, hleaf, hcells, rfl⟩,
          forall_mem_cons.mpr ⟨hnonEmpty, fun u hu => nonEmpty_of_overflow (hover u hu)⟩,
          hentered⟩
    next hinterior =>
      obtain ⟨_, rfl, hbelow⟩ := hbelow
      obtain ⟨height, hlevels, rfl, hparts, hall⟩ := (walked_children (by simp)).mp hbelow
      refine ⟨height + 1, succ_lt_succ hlevels, rfl,
        ⟨bt, cells, below, hnode, Bool.eq_false_iff.mpr hinterior, hcells, hparts, rfl⟩,
        forall_mem_cons.mpr ⟨hnonEmpty, forall_mem_append.mpr
          ⟨fun u hu => nonEmpty_of_overflow (hover u hu), fun u hu => (hall u hu).1⟩⟩,
        forall_mem_append.mpr ⟨hentered, fun u hu => (hall u hu).2⟩⟩
  · rintro ⟨_ | height, hlevels, rfl, htree, hempty, hentered⟩
    · obtain ⟨bt, cells, hnode, hleaf, hcells, huses⟩ := htree
      cases huses
      refine ⟨bt, hnode, fun hroot _ => ?_, cells, [], hcells, hentered, ⟨[], rfl, ?_⟩,
        (append_nil _).symm⟩
      · obtain ⟨parent, rfl⟩ := hrole.mp hroot
        exact hempty _ mem_cons_self parent rfl bt hnode hleaf
      · rw [if_pos hleaf]
        exact ⟨rfl, rfl⟩
    obtain ⟨bt, cells, below, hnode, hinterior, hcells, hparts, huses⟩ := htree
    cases huses
    obtain ⟨-, hempty⟩ := forall_mem_cons.mp hempty
    obtain ⟨-, hempty⟩ := forall_mem_append.mp hempty
    obtain ⟨hcellsEntered, hentered⟩ := forall_mem_append.mp hentered
    refine ⟨bt, hnode, fun _ hleaf => ?_, cells, below.flatten, hcells, hcellsEntered,
      ⟨below, rfl, ?_⟩, rfl⟩
    · rw [hinterior] at hleaf
      cases hleaf
    · rw [if_neg (by simp [hinterior])]
      refine ⟨height, rfl, (walked_children (by simp)).mpr
        ⟨height, lt_of_succ_lt_succ hlevels, rfl, hparts, fun u hu => ⟨hempty u hu, hentered u hu⟩⟩⟩

/-- A tree the check passes: whole, and entered in the pointer map. -/
structure TreeChecked (acct : PageAccounting) (root : UInt32) (uses : List PageUse) : Prop where
  tree : ∃ height, acct.src.Tree (followedPages acct.src.usableSize) height .root root uses
  nonEmpty : NoEmptyLeaf acct.src uses
  root_entered : 1 < root → acct.Entered ⟨root, .root⟩
  entered : ∀ u ∈ uses.tail, acct.Entered u

section Walk

variable (hbudget : 0 < acct.maxErr) (husable : acct.usable = acct.src.usableSize)

include hbudget

theorem checkRootEntry_accounts (root : UInt32)
    : acct.ledger.Accounts (acct.checkRootEntry root label) fun _ uses =>
      (1 < root → acct.Entered ⟨root, .root⟩) ∧ uses = [] :=
  .when (checkEntry_accounts hbudget ⟨root, .root⟩)

omit hbudget in
theorem sweepPage_reports {pg : Nat} {referenced isPtrmap : Bool} (h : ¬ referenced = !isPtrmap)
    {s s' : Tally} {a : Unit}
    : ¬ acct.ledger.Passes (sweepPage pg referenced isPtrmap) s a s' := by
  rintro ⟨hrun, hclean⟩
  cases referenced <;> cases isPtrmap <;> first | exact h rfl | cases hrun
  all_goals exact append_ne_nil_of_right_ne_nil _ (cons_ne_nil _ _) hclean.1

/-- The final sweep passes when exactly the pages that are not pointer maps are marked. -/
theorem sweep_passes {s : Tally} (hs : acct.ledger.clean s) (count pg : Nat) {s' : Tally}
    : acct.ledger.Passes (acct.sweep count pg) s () s' ↔ s' = s
      ∧ ∀ i, pg ≤ i → i < pg + count →
        Bitmap.get s.refs i = !(acct.autoVacuum && isPtrmapPage acct.usable (.ofNat i)) := by
  induction count generalizing pg with
  | zero =>
    constructor
    · rintro ⟨hrun, -⟩
      cases hrun
      exact ⟨rfl, fun i h h' => (not_lt.mpr h h').elim⟩
    · rintro ⟨rfl, -⟩
      exact ⟨rfl, hs⟩
  | succ count ih =>
    let isPtrmap := acct.autoVacuum && isPtrmapPage acct.usable (.ofNat pg)
    have hunfold : acct.sweep (count + 1) pg s
        = (do sweepPage pg (Bitmap.get s.refs pg) isPtrmap; acct.sweep count (pg + 1) : Check Unit)
          s := by
      rw [sweep, estate_bind_ok (full_clean hbudget hs)]
      rfl
    rw [Passes, hunfold, ← Passes]
    by_cases hpage : Bitmap.get s.refs pg = !isPtrmap
    · have hquiet : sweepPage pg (Bitmap.get s.refs pg) isPtrmap = pure () := by
        rw [hpage]
        cases isPtrmap <;> rfl
      rw [hquiet, pure_bind, ih]
      refine and_congr_right fun _ => ⟨fun h i hle hlt => ?_, fun h i hle hlt => ?_⟩
      · rcases eq_or_lt_of_le hle with rfl | hnext
        · exact hpage
        · exact h i hnext (by omega)
      · exact h i (by omega) (by omega)
    · refine ⟨fun hpass => ?_, fun h => (hpage (h.2 pg (le_refl _) (by omega))).elim⟩
      obtain ⟨_, mid, hfirst, -⟩ := (passes_bind fun _ => sweep_keeps ledger_stable).mp hpass
      exact (sweepPage_reports hpage hfirst).elim

include husable

/-- The walk passes on the trees whose leaves all have one height and are not empty below the
root.
-/
theorem walk_accounts (levels : Nat) (pageNo : UInt32) (isRoot : Bool)
    (role : PageRole) (hrole : isRoot = false ↔ ∃ parent, role = .btree parent)
    : acct.ledger.Accounts (acct.walk label levels pageNo isRoot) fun depth uses =>
      acct.Walked levels role depth pageNo uses := by
  induction levels generalizing pageNo isRoot role with
  | zero =>
    exact .throw fun _ _ ⟨k, hk, _⟩ => not_lt_zero k hk
  | succ levels ih =>
    refine .skip (fun s hs => full_clean hbudget hs) ?_
    have hvisit (child : UInt32) := ih child false (.btree pageNo) ⟨fun _ => ⟨_, rfl⟩, fun _ => rfl⟩
    refine (checkRef_bind hbudget pageNo role (fun stop => ?_)
      (walkNode_accounts hbudget husable
        (fun _ => walk_keeps ledger_stable) hvisit pageNo isRoot)).congr
      fun depth uses => ⟨?_, ?_⟩
    · split
      · exact .pure _
      · exact walkNode_keeps ledger_stable fun _ => walk_keeps ledger_stable
    · rintro ⟨vs, rfl, hnode⟩
      exact (walked_node hrole).mp hnode
    intro hwalked
    obtain ⟨_, -, -, htree, -⟩ := id hwalked
    obtain ⟨vs, rfl⟩ := tree_head htree
    exact ⟨vs, rfl, (walked_node hrole).mpr hwalked⟩

/-- A listed tree passes when it is a tree and the pointer map records its nodes. -/
theorem checkTree_accounts (root : UInt32)
    : acct.ledger.Accounts (acct.checkTree root label) fun _ uses =>
      acct.TreeChecked root uses := by
  have hrole : true = false ↔ ∃ parent, PageRole.root = .btree parent := by simp
  refine (Accounts.guard (checkRootEntry_accounts hbudget root)
    (fun _ => .bind (walk_keeps ledger_stable) fun _ => .pure _)
    ((walk_accounts hbudget husable _ root true .root hrole).bind
      (fun _ _ uses => uses = []) (fun _ => .pure _)
      fun _ _ _ => (Accounts.pure _).congr fun _ _ => by simp)).congr_claimed
    fun s _ uses s' hs hclaim => ⟨?_, ?_⟩
  · rintro ⟨hroot, _, us, _, ⟨height, -, -, htree, hempty, htail⟩, rfl, rfl⟩
    rw [append_nil]
    exact ⟨⟨height, htree⟩, hempty, hroot, htail⟩
  rintro ⟨⟨height, htree⟩, hempty, hroot, htail⟩
  have hbound := (claimAll_marks hs hclaim).length_le
  have hheight := tree_length htree
  exact ⟨hroot, height, uses, [], ⟨height, by omega, rfl, htree, hempty, htail⟩, rfl,
    (append_nil _).symm⟩

/-- The listed trees pass when each of them does. -/
theorem checkTrees_accounts (roots : List (UInt32 × String))
    : acct.ledger.Accounts (acct.checkTrees roots) fun _ uses =>
      ∃ parts, uses = parts.flatten
        ∧ List.Forall₂ acct.TreeChecked (roots.map Prod.fst) parts := by
  induction roots with
  | nil =>
    refine (Accounts.pure _).congr fun _ uses => ⟨?_, ?_⟩
    · rintro ⟨-, rfl⟩
      exact ⟨[], rfl, .nil⟩
    · rintro ⟨_, rfl, ⟨⟩⟩
      exact ⟨rfl, rfl⟩
  | cons root rest ih =>
    refine ((checkTree_accounts hbudget husable root.1).bind (fun _ _ uses => _)
      (fun _ => checkTrees_keeps ledger_stable) fun _ _ _ => ih).congr fun _ uses => ⟨?_, ?_⟩
    · rintro ⟨_, part, _, hpart, ⟨parts, rfl, hparts⟩, rfl⟩
      exact ⟨part :: parts, rfl, .cons hpart hparts⟩
    · rintro ⟨_, rfl, hall⟩
      obtain ⟨part, parts, hpart, hparts, rfl⟩ := forall₂_cons_left_iff.mp hall
      exact ⟨⟨⟩, part, parts.flatten, hpart, ⟨parts, rfl, hparts⟩, rfl⟩

end Walk

end GraphiteSql.PageAccounting
