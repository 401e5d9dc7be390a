import GraphiteSql.Exec.Accounting
import GraphiteSql.Lib.Ledger

/-! What each part of the page accounting accounts for: it ends without a message exactly when
the pages it visits form a chain, a freelist or a tree and none of them was marked before.
-/

namespace GraphiteSql.PageAccounting

open Lib Ptrmap List

variable {msg : String} {data : Bytes} {pageNo : UInt32} {n : Int} {isFreelist isRoot : Bool}
  {bt : BtreePage} {visit : UInt32 → Check Int}

/-- Nothing was reported, and the bitmap covers the file; claiming a page marks it. -/
def ledger (acct : PageAccounting) : Ledger Tally PageUse where
  clean s := s.problems = [] ∧ s.refs.length = acct.nPage.toNat / 8 + 1
  claim s u :=
    if u.page = 0 ∨ acct.nPage < u.page ∨ Bitmap.get s.refs u.page.toNat = true then none
    else some { s with refs := Bitmap.set s.refs u.page.toNat }

variable {acct : PageAccounting} {label : String}

/-- `inv` is kept by a message and by a mark, the only changes that the check makes. -/
structure Stable (inv : Tally → Prop) : Prop where
  report : ∀ s msg, inv s → inv { s with problems := s.problems ++ [msg] }
  mark : ∀ s pg, inv s → inv { s with refs := Bitmap.set s.refs pg }

/-- A message stays. -/
theorem ledger_stable : Stable fun s => ¬ acct.ledger.clean s where
  report _ _ _ hclean := append_ne_nil_of_right_ne_nil _ (cons_ne_nil _ _) hclean.1
  mark s pg hs hclean := hs ⟨hclean.1, Bitmap.length_set s.refs pg ▸ hclean.2⟩

theorem sized_stable {size : Nat} : Stable fun s => s.refs.length = size where
  report _ _ hs := hs
  mark _ _ hs := (Bitmap.length_set ..).trans hs

section Keeps

variable {inv : Tally → Prop} (h : Stable inv)

include h

omit h in
theorem full_keeps : Maintains inv acct.full := fun _ hs => hs

theorem report_keeps
    : Maintains inv
      (modify fun s => { s with problems := s.problems ++ [msg] } : Check Unit) :=
  .modify fun s => h.report s msg

theorem push_keeps : Maintains inv (acct.push msg) := by
  refine .bind full_keeps fun isFull => ?_
  split
  · exact .pure _
  · exact report_keeps h

theorem pushThen_keeps {α : Type} {a : α}
    : Maintains inv (do acct.push msg; return a) :=
  .bind (push_keeps h) fun _ => .pure a

theorem checkRef_keeps {pg : UInt32} : Maintains inv (acct.checkRef pg label) := by
  unfold checkRef
  split
  · exact pushThen_keeps h
  refine .get_bind fun s hs => ?_
  split
  · exact pushThen_keeps h s hs
  · exact h.mark s pg.toNat hs

theorem checkEntry_keeps {key : UInt32} {kind : PtrmapType} {parent : UInt32}
    : Maintains inv (acct.checkEntry key kind parent label) := by
  unfold checkEntry
  split
  · refine .bind (maintains_lift _) fun entry => ?_
    split
    · exact push_keeps h
    · split
      · exact push_keeps h
      · exact .pure _
  · exact .pure _

theorem checkLeaves_keeps {count i : Nat}
    : Maintains inv (acct.checkLeaves label data count i) := by
  induction count generalizing i with
  | zero => exact .pure _
  | succ count ih =>
    exact .bind (checkEntry_keeps h) fun _ => .bind (checkRef_keeps h) fun _ => ih

theorem checkTrunk_keeps
    : Maintains inv (acct.checkTrunk label pageNo data n) := by
  refine .bind (checkEntry_keeps h) fun _ => .bind (maintains_lift _) fun room => ?_
  split
  · exact pushThen_keeps h
  · exact .bind (checkLeaves_keeps h) fun _ => .pure _

theorem checkLink_keeps
    : Maintains inv (acct.checkLink label pageNo data n) := by
  unfold checkLink
  split
  · exact checkEntry_keeps h
  · exact .pure _

theorem listPage_keeps
    {go : UInt32 → Int → Check Int} (hgo : ∀ next rest, Maintains inv (go next rest))
    : Maintains inv (acct.listPage isFreelist label pageNo n go) := by
  refine .bind (maintains_lift _) fun page => ?_
  split
  · exact pushThen_keeps h
  split
  · exact .bind (checkTrunk_keeps h) fun _ => hgo _ _
  · exact .bind (checkLink_keeps h) fun _ => hgo _ _

theorem listLoop_keeps {turns : Nat}
    : Maintains inv (acct.listLoop isFreelist label turns pageNo n) := by
  induction turns generalizing pageNo n with
  | zero => exact .throw _
  | succ turns ih =>
    unfold listLoop
    split
    · exact .pure _
    refine .bind full_keeps fun isFull => ?_
    split
    · exact .pure _
    refine .bind (checkRef_keeps h) fun stop => ?_
    split
    · exact .pure _
    · exact listPage_keeps h fun _ _ => ih

theorem checkLength_keeps {expected : UInt32} {errStart : Nat}
    : Maintains inv (acct.checkLength isFreelist expected label errStart n) := by
  refine .bind (fun _ hs => hs) fun count => ?_
  split
  · exact push_keeps h
  · exact .pure _

theorem checkList_keeps {first expected : UInt32}
    : Maintains inv (acct.checkList isFreelist first expected label) :=
  .bind (fun _ hs => hs) fun _ => .bind (listLoop_keeps h) fun _ => checkLength_keeps h

theorem checkPayload_keeps {payload : Option Payload}
    : Maintains inv (acct.checkPayload label pageNo payload) := by
  cases payload with
  | none => exact .pure _
  | some p =>
    rw [checkPayload]
    split
    · exact .pure _
    · exact .bind (maintains_lift _) fun expected =>
        .bind (checkEntry_keeps h) fun _ => checkList_keeps h

theorem checkCell_keeps {i : Nat}
    : Maintains inv (acct.checkCell label bt pageNo i) := by
  refine .bind (maintains_lift _) fun payload => ?_
  split
  · exact push_keeps h
  · exact checkPayload_keeps h

theorem checkCells_keeps {cells : List Nat}
    : Maintains inv (acct.checkCells label bt pageNo cells) := by
  induction cells with
  | nil => exact .pure _
  | cons i rest ih =>
    refine .bind full_keeps fun isFull => ?_
    split
    · exact .pure _
    · exact .bind (checkCell_keeps h) fun _ => ih

theorem checkDepth_keeps {firstChild : Bool} {depth' depth : Int}
    : Maintains inv (acct.checkDepth label firstChild depth' depth) := by
  unfold checkDepth
  split
  · exact push_keeps h
  · exact .pure _

theorem checkChildren_keeps (hvisit : ∀ child, Maintains inv (visit child)) {children : List Nat}
    {depth : Int} {firstChild : Bool}
    : Maintains inv
      (acct.checkChildren label bt pageNo visit children depth firstChild) := by
  induction children generalizing depth firstChild with
  | nil => exact .pure _
  | cons i rest ih =>
    refine .bind full_keeps fun isFull => ?_
    split
    · exact .pure _
    refine .bind (maintains_lift _) fun child => ?_
    split
    · exact .bind (push_keeps h) fun _ => ih
    · exact .bind (checkEntry_keeps h) fun _ => .bind (hvisit _) fun depth' =>
        .bind (checkDepth_keeps h) fun _ => ih

theorem checkLeaf_keeps
    : Maintains inv (acct.checkLeaf label bt pageNo isRoot) := by
  unfold checkLeaf
  split
  · exact push_keeps h
  · exact .pure _

theorem walkPage_keeps (hvisit : ∀ child, Maintains inv (visit child))
    : Maintains inv (acct.walkPage label bt pageNo isRoot visit) := by
  refine .bind (checkLeaf_keeps h) fun _ => .bind (checkCells_keeps h) fun stop => ?_
  split
  · exact .pure _
  split
  · exact .pure _
  refine .bind ((checkChildren_keeps h) hvisit) fun depth => ?_
  split <;> exact .pure _

theorem walkNode_keeps (hvisit : ∀ child, Maintains inv (visit child))
    : Maintains inv (acct.walkNode label pageNo isRoot visit) := by
  refine .bind (maintains_lift _) fun page => ?_
  split
  · exact pushThen_keeps h
  refine .bind (maintains_lift _) fun bt => ?_
  split
  · exact pushThen_keeps h
  · exact walkPage_keeps h hvisit

theorem walk_keeps {levels : Nat}
    : Maintains inv (acct.walk label levels pageNo isRoot) := by
  induction levels generalizing pageNo isRoot with
  | zero => exact .throw _
  | succ levels ih =>
    refine .bind full_keeps fun isFull => ?_
    split
    · exact .pure _
    refine .bind (checkRef_keeps h) fun stop => ?_
    split
    · exact .pure _
    · exact walkNode_keeps h fun _ => ih

theorem checkRootEntry_keeps {root : UInt32}
    : Maintains inv (acct.checkRootEntry root label) := by
  unfold checkRootEntry
  split
  · exact checkEntry_keeps h
  · exact .pure _

theorem checkTree_keeps {root : UInt32} : Maintains inv (acct.checkTree root label) :=
  .bind (checkRootEntry_keeps h) fun _ => .bind (walk_keeps h) fun _ => .pure _

theorem checkTrees_keeps {roots : List (UInt32 × String)}
    : Maintains inv (acct.checkTrees roots) := by
  induction roots with
  | nil => exact .pure _
  | cons root rest ih => exact .bind (checkTree_keeps h) fun _ => ih

theorem sweepPage_keeps {pg : Nat} {referenced isPtrmap : Bool}
    : Maintains inv (sweepPage pg referenced isPtrmap) := by
  unfold sweepPage
  split
  · exact report_keeps h
  split
  · exact report_keeps h
  · exact .pure _

theorem sweep_keeps {count pg : Nat} : Maintains inv (acct.sweep count pg) := by
  induction count generalizing pg with
  | zero => exact .pure _
  | succ count ih =>
    refine .bind full_keeps fun isFull => ?_
    split
    · exact .pure _
    refine .get_bind fun s hs => ?_
    have hrest {pg referenced isPtrmap}
        : Maintains inv (do sweepPage pg referenced isPtrmap; acct.sweep count (pg + 1)) :=
      .bind (sweepPage_keeps h) fun _ => ih
    exact hrest s hs

theorem checkAll_keeps {roots : List (UInt32 × String)}
    : Maintains inv (acct.checkAll roots) :=
  .bind (checkList_keeps h) fun _ => .bind (checkTrees_keeps h) fun _ => sweep_keeps h

end Keeps

end GraphiteSql.PageAccounting
