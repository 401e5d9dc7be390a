import GraphiteSql.Exec.IntegrityRules

/-! What each part of the page accounting accounts for: with messages left in the budget it
ends without one exactly when the pages it visits form a chain, a freelist or a tree.
-/

namespace GraphiteSql.PageAccounting

open Lib Ptrmap Ledger List Nat

def Entered (acct : PageAccounting) (u : PageUse) : Prop :=
  acct.autoVacuum = true → acct.ptrmapGet u.page = .ok (some (u.role.kind.asU8, u.role.parent))

variable {acct : PageAccounting} {label : String} {α β : Type}

section Results

theorem attempt_eq_some {x : Result α} {a : α} : attempt x = .ok (some a) ↔ x = .ok a := by
  constructor
  · intro h
    unfold attempt at h
    split at h <;> cases h
    rfl
  · rintro rfl
    rfl

/-- A result that must be there. -/
theorem lift_bind {x : Result α} {f : α → Check β} (rel : α → β → List PageUse → Prop)
    (hf : ∀ a, x = .ok a → acct.ledger.Accounts (f a) (rel a))
    : acct.ledger.Accounts ((liftM x : Check α) >>= f) fun b uses =>
      ∃ a, x = .ok a ∧ rel a b uses := by
  cases x with
  | ok a =>
    refine (hf a rfl).congr fun b uses => ⟨fun h => ⟨a, rfl, h⟩, ?_⟩
    rintro ⟨_, ⟨⟩, h⟩
    exact h
  | error e =>
    refine .throw fun b uses => ?_
    rintro ⟨_, ⟨⟩, -⟩

/-- A call whose `Err` is reported: it must return `Ok`. -/
theorem attempt_bind {x : Result α} {f : Option α → Check β} (rel : α → β → List PageUse → Prop)
    (hnone : acct.ledger.Accounts (f none) fun _ _ => False)
    (hf : ∀ a, x = .ok a → acct.ledger.Accounts (f (some a)) (rel a))
    : acct.ledger.Accounts ((liftM (attempt x) : Check (Option α)) >>= f) fun b uses =>
      ∃ a, x = .ok a ∧ rel a b uses := by
  have hopt : ∀ opt, attempt x = .ok opt →
      acct.ledger.Accounts (f opt) fun b uses => ∃ a, opt = some a ∧ x = .ok a ∧ rel a b uses := by
    intro opt hopt
    cases opt with
    | none => exact hnone.congr fun b uses => ⟨False.elim, fun ⟨_, h, _⟩ => nomatch h⟩
    | some a =>
      have hok := attempt_eq_some.mp hopt
      refine (hf a hok).congr fun b uses => ⟨fun h => ⟨a, rfl, hok, h⟩, ?_⟩
      rintro ⟨_, ⟨⟩, -, h⟩
      exact h
  refine (lift_bind _ hopt).congr fun b uses => ⟨?_, ?_⟩
  · rintro ⟨_, -, a, rfl, hok, h⟩
    exact ⟨a, hok, h⟩
  · rintro ⟨a, rfl, h⟩
    exact ⟨some a, rfl, a, rfl, rfl, h⟩

end Results

theorem entered_chain {k : Nat} {role : PageRole} {pg : UInt32} {uses : List PageUse}
    (hchain : acct.src.Chain k role pg uses)
    : ((0 < k → acct.Entered ⟨pg, role⟩) ∧ ∀ u ∈ uses.tail, acct.Entered u)
      ↔ ∀ u ∈ uses, acct.Entered u := by
  cases k with
  | zero =>
    obtain ⟨-, rfl⟩ := hchain
    simp
  | succ k =>
    obtain ⟨-, _, rest, -, rfl, -⟩ := hchain
    simp

section Steps

variable (hbudget : 0 < acct.maxErr) (husable : acct.usable = acct.src.usableSize)

include hbudget

theorem full_clean {s : Tally} (hs : acct.ledger.clean s) : acct.full s = .ok false s := by
  have hnot : ¬ acct.maxErr ≤ s.problems.length := by
    rw [hs.1]
    exact not_le.mpr hbudget
  simp [full, hnot]

/-- With messages left in the budget, a message is a failure. -/
theorem push_fails (msg : String) : acct.ledger.Accounts (acct.push msg) fun _ _ => False := by
  refine .skip (fun s hs => full_clean hbudget hs) (.fails fun s hs _ s' hpass => ?_)
  obtain ⟨hrun, hclean⟩ := hpass
  cases hrun
  exact append_ne_nil_of_right_ne_nil _ (cons_ne_nil _ _) hclean.1

theorem report_accounts {wrong : Prop} [Decidable wrong] {msg : String}
    : acct.ledger.Accounts (if wrong then acct.push msg else return ()) fun _ uses =>
      ¬ wrong ∧ uses = [] :=
  .when ((push_fails hbudget msg).congr fun _ _ => iff_of_false id And.left)

theorem pushThen_fails {x : Check α} (hx : acct.ledger.Sticky x) (msg : String)
    : acct.ledger.Accounts (do acct.push msg; x) fun _ _ => False :=
  .bind_fails (push_fails hbudget msg) fun _ => hx

/-- A page passes when it can be claimed. -/
theorem checkRef_accounts (pg : UInt32) (role : PageRole)
    : acct.ledger.Accounts (acct.checkRef pg label) fun stop uses =>
      stop = false ∧ uses = [⟨pg, role⟩] := by
  have hfails {s : Tally} (hs : acct.ledger.clean s) {stop : Bool} {s' : Tally} (msg : String)
      (hclaim : acct.ledger.claimAll s [⟨pg, role⟩] = none)
      : acct.ledger.Passes (do acct.push msg; return true) s stop s'
        ↔ ∃ uses, (stop = false ∧ uses = [⟨pg, role⟩]) ∧ acct.ledger.claimAll s uses = some s' := by
    rw [pushThen_fails hbudget (.pure true) msg s hs stop s']
    refine ⟨fun ⟨_, hfalse, _⟩ => hfalse.elim, ?_⟩
    rintro ⟨_, ⟨-, rfl⟩, h⟩
    rw [hclaim] at h
    cases h
  intro s hs stop s'
  unfold checkRef
  split
  · next hrange =>
      exact hfails hs _ (by rcases hrange with h | h <;> simp [ledger, h])
  next hrange =>
    rw [Passes, estate_get_bind]
    split
    · next hmarked => exact hfails hs _ (by simp [ledger, hmarked])
    next hmarked =>
      obtain ⟨hzero, hlast⟩ := not_or.mp hrange
      have hclaim : acct.ledger.claimAll s [⟨pg, role⟩]
          = some { s with refs := Bitmap.set s.refs pg.toNat } := by
        simp [ledger, hzero, UInt32.not_lt.mp hlast, hmarked]
      constructor
      · rintro ⟨hrun, -⟩
        cases hrun
        exact ⟨_, ⟨rfl, rfl⟩, hclaim⟩
      · rintro ⟨_, ⟨rfl, rfl⟩, h⟩
        cases hclaim.symm.trans h
        exact ⟨rfl, hs.1, (Bitmap.length_set ..).trans hs.2⟩

/-- Claiming a page and going on. -/
theorem checkRef_bind {f : Bool → Check β} {rel : β → List PageUse → Prop} (pg : UInt32)
    (role : PageRole) (hsticky : ∀ stop, acct.ledger.Sticky (f stop))
    (hf : acct.ledger.Accounts (f false) rel)
    : acct.ledger.Accounts (acct.checkRef pg label >>= f) fun b uses =>
      ∃ vs, uses = ⟨pg, role⟩ :: vs ∧ rel b vs := by
  refine ((checkRef_accounts hbudget pg role).bind (fun _ => rel) hsticky ?_).congr
    fun b uses => ⟨?_, ?_⟩
  · rintro _ _ ⟨rfl, -⟩
    exact hf
  · rintro ⟨_, _, vs, ⟨rfl, rfl⟩, hvs, rfl⟩
    exact ⟨vs, rfl, hvs⟩
  · rintro ⟨vs, rfl, hvs⟩
    exact ⟨false, [⟨pg, role⟩], vs, ⟨rfl, rfl⟩, hvs, rfl⟩

theorem checkEntry_accounts (u : PageUse)
    : acct.ledger.Accounts (acct.checkEntry u.page u.role.kind u.role.parent label) fun _ uses =>
      acct.Entered u ∧ uses = [] := by
  refine .when ((lift_bind (fun entry _ uses =>
    entry = some (u.role.kind.asU8, u.role.parent) ∧ uses = []) ?_).congr fun _ uses => ⟨?_, ?_⟩)
  · rintro (_ | ⟨gotType, gotParent⟩) -
    · exact (push_fails hbudget _).congr fun _ _ => ⟨False.elim, fun h => nomatch h.1⟩
    · exact (report_accounts hbudget).congr fun _ _ => and_congr_left fun _ => by simp
  · rintro ⟨_, hget, rfl, rfl⟩
    exact ⟨hget, rfl⟩
  · rintro ⟨hget, rfl⟩
    exact ⟨_, hget, rfl, rfl⟩

-- Chains

def leafUses (data : Bytes) (count i : Nat) : List PageUse :=
  (List.range' i count).map fun j => ⟨beU32OrZero data (8 + j * 4), .free⟩

theorem checkLeaves_accounts (data : Bytes) (count i : Nat)
    : acct.ledger.Accounts (acct.checkLeaves label data count i) fun _ uses =>
      uses = leafUses data count i ∧ ∀ u ∈ uses, acct.Entered u := by
  induction count generalizing i with
  | zero =>
    refine (Accounts.pure _).congr fun _ uses => ⟨?_, ?_⟩
    · rintro ⟨-, rfl⟩
      exact ⟨rfl, nofun⟩
    · rintro ⟨rfl, -⟩
      exact ⟨rfl, rfl⟩
  | succ count ih =>
    let leaf : PageUse := ⟨beU32OrZero data (8 + i * 4), .free⟩
    refine (Accounts.guard (checkEntry_accounts hbudget leaf)
      (fun _ => .bind (checkRef_keeps ledger_stable) fun _ => checkLeaves_keeps ledger_stable)
      (checkRef_bind hbudget leaf.page .free (fun _ => checkLeaves_keeps ledger_stable)
        (ih (i + 1)))).congr
      fun _ uses => ⟨?_, ?_⟩
    · rintro ⟨hleaf, _, rfl, rfl, hrest⟩
      exact ⟨rfl, forall_mem_cons.mpr ⟨hleaf, hrest⟩⟩
    · rintro ⟨rfl, hall⟩
      obtain ⟨hleaf, hrest⟩ := forall_mem_cons.mp hall
      exact ⟨hleaf, _, rfl, rfl, hrest⟩

theorem checkLength_accounts (isFreelist : Bool) (expected : UInt32) (n : Int)
    : acct.ledger.Accounts (acct.checkLength isFreelist expected label 0 n) fun _ uses =>
      n = 0 ∧ uses = [] := by
  refine .skip (a := 0) (fun s hs => by simp [reported, hs.1]) ?_
  exact (report_accounts hbudget).congr fun _ _ => and_congr_left fun _ => by simp

/-- What a list walk of so many turns from a page passes with, when `n` pages are still expected. -/
def Walks (acct : PageAccounting) (isFreelist : Bool) (label : String) (expected : UInt32)
    (turns : Nat) (rel : UInt32 → Int → List PageUse → Prop) : Prop :=
  ∀ pageNo n, acct.ledger.Accounts (acct.listLoop isFreelist label turns pageNo n
    >>= acct.checkLength isFreelist expected label 0) fun _ => rel pageNo n

variable {expected pageNo : UInt32} {turns : Nat} {n : Int}
  {rel : UInt32 → Int → List PageUse → Prop}

theorem checkLink_accounts (pageNo : UInt32) (data : Bytes) (n : Int)
    : acct.ledger.Accounts (acct.checkLink label pageNo data n) fun _ uses =>
      (0 < n → acct.Entered ⟨beU32OrZero data 0, .overflow2 pageNo⟩) ∧ uses = [] :=
  .when (checkEntry_accounts hbudget ⟨beU32OrZero data 0, .overflow2 pageNo⟩)

/-- A marked overflow page passes when it can be read and the next one points back at it. -/
theorem listPage_chain (hgo : acct.Walks false label expected turns rel)
    : acct.ledger.Accounts (acct.listPage false label pageNo n (acct.listLoop false label turns)
      >>= acct.checkLength false expected label 0) fun _ uses =>
      ∃ page, acct.src.page pageNo = .ok page
        ∧ (0 < n - 1 → acct.Entered ⟨beU32OrZero page.data 0, .overflow2 pageNo⟩)
        ∧ rel (beU32OrZero page.data 0) (n - 1) uses := by
  unfold listPage
  rw [bind_assoc]
  refine attempt_bind _ ?_ fun page _ => ?_
  · rw [bind_assoc]
    exact pushThen_fails hbudget (checkLength_keeps ledger_stable) _
  · simp only [Bool.false_eq_true, if_false, bind_assoc]
    exact .guard (checkLink_accounts hbudget _ _ _) (fun _ =>
      .bind (listLoop_keeps ledger_stable) fun _ => checkLength_keeps ledger_stable) (hgo _ _)

/-- A turn of the list walk: the end of the list passes when nothing is left to visit, a page when
it can be claimed and passes.
-/
theorem listLoop_turn {isFreelist : Bool} {pageUses uses : List PageUse → Prop}
    (role : PageRole) (hpage : acct.ledger.Accounts (acct.listPage isFreelist label pageNo n
      (acct.listLoop isFreelist label turns) >>= acct.checkLength isFreelist expected label 0)
      fun _ => pageUses)
    (hend : pageNo = 0 → ∀ us, n = 0 ∧ us = [] ↔ uses us)
    (hmore : pageNo ≠ 0 → ∀ us, (∃ vs, us = ⟨pageNo, role⟩ :: vs ∧ pageUses vs) ↔ uses us)
    : acct.ledger.Accounts (acct.listLoop isFreelist label (turns + 1) pageNo n
      >>= acct.checkLength isFreelist expected label 0) fun _ => uses := by
  unfold listLoop
  split
  · next h => exact (checkLength_accounts hbudget isFreelist expected n).congr fun _ => hend h
  next h =>
    rw [bind_assoc]
    refine .skip (fun s hs => full_clean hbudget hs) ?_
    simp only [Bool.false_eq_true, if_false, bind_assoc]
    refine (checkRef_bind hbudget pageNo role
      (fun stop => .bind ?_ fun _ => checkLength_keeps ledger_stable) hpage).congr fun _ => hmore h
    split
    · exact .pure _
    · exact listPage_keeps ledger_stable fun _ _ => listLoop_keeps ledger_stable

/-- An overflow chain passes with as many pages as expected; the entry of its first page is
not looked at.
-/
theorem chainLoop_accounts (expected : UInt32) (turns : Nat) (role : PageRole)
    : acct.Walks false label expected turns fun pageNo n uses =>
      ∃ k < turns, n = k ∧ acct.src.Chain k role pageNo uses
        ∧ ∀ u ∈ uses.tail, acct.Entered u := by
  induction turns generalizing role with
  | zero => exact fun _ _ => .throw fun _ _ ⟨k, hk, _⟩ => not_lt_zero k hk
  | succ turns ih =>
    intro pageNo n
    refine listLoop_turn hbudget role (listPage_chain hbudget (ih (.overflow2 pageNo)))
      (fun hzero uses => ⟨?_, ?_⟩) (fun hpage uses => ⟨?_, ?_⟩)
    · rintro ⟨rfl, rfl⟩
      exact ⟨0, succ_pos _, rfl, ⟨hzero, rfl⟩, nofun⟩
    · rintro ⟨_ | k, -, rfl, hchain, -⟩
      · exact ⟨rfl, hchain.2⟩
      · exact (hchain.1 hzero).elim
    · rintro ⟨vs, rfl, page, hread, hlink, k, hk, hn, hchain, htail⟩
      refine ⟨k + 1, succ_lt_succ hk, by omega, ⟨hpage, page, vs, hread, rfl, hchain⟩, ?_⟩
      exact (entered_chain hchain).mp ⟨fun h => hlink (by omega), htail⟩
    · rintro ⟨_ | k, hk, rfl, hchain, htail⟩
      · exact (hpage hchain.1).elim
      obtain ⟨-, page, vs, hread, rfl, hchain⟩ := hchain
      obtain ⟨hlink, hrest⟩ := (entered_chain hchain).mpr htail
      exact ⟨vs, rfl, page, hread, fun h => hlink (by omega), k, lt_of_succ_lt_succ hk,
        by omega, hchain, hrest⟩

-- The freelist

include husable

theorem checkTrunk_accounts (pageNo : UInt32) (data : Bytes) (n : Int)
    : acct.ledger.Accounts (acct.checkTrunk label pageNo data n) fun rest uses =>
      acct.Entered ⟨pageNo, .free⟩ ∧ acct.src.TrunkLeaves data uses
        ∧ (∀ u ∈ uses, acct.Entered u) ∧ rest = n - uses.length := by
  have hroom : acct.leafRoom = .ok (acct.usable / 4 - 2) := by
    have := acct.src.usable_large
    rw [leafRoom, if_neg (by omega)]
  refine .guard (checkEntry_accounts hbudget ⟨pageNo, .free⟩)
    (fun _ => .bind (maintains_lift _) fun room => ?_) ?_
  · split
    · exact pushThen_keeps ledger_stable
    · exact .bind (checkLeaves_keeps ledger_stable) fun _ => .pure _
  rw [hroom, lift_ok_bind]
  split
  · next hbig =>
      refine (pushThen_fails hbudget (.pure _) _).congr fun _ uses => ⟨False.elim, ?_⟩
      rintro ⟨⟨hfit, -⟩, -⟩
      rw [← husable] at hfit
      exact (not_le.mpr hbig hfit).elim
  next hfit =>
    refine ((checkLeaves_accounts hbudget data _ 0).bind
      (fun _ rest uses => rest = n - (beU32OrZero data 4).toNat ∧ uses = [])
      (fun _ => .pure _) fun _ _ _ => .pure _).congr fun rest uses => ⟨?_, ?_⟩
    · rintro ⟨_, us, _, ⟨rfl, hall⟩, ⟨rfl, rfl⟩, rfl⟩
      rw [append_nil]
      refine ⟨⟨husable ▸ not_lt.mp hfit, ?_⟩, hall, ?_⟩
      · rw [leafUses, range_eq_range']
      · simp [leafUses]
    rintro ⟨⟨-, rfl⟩, hall, rfl⟩
    refine ⟨⟨⟩, _, [], ⟨?_, hall⟩, ⟨?_, rfl⟩, (append_nil _).symm⟩
    · rw [leafUses, range_eq_range']
    · simp

/-- A marked trunk page passes when it can be read and its leaves pass. -/
theorem listPage_trunk (hgo : acct.Walks true label expected turns rel)
    : acct.ledger.Accounts (acct.listPage true label pageNo n (acct.listLoop true label turns)
      >>= acct.checkLength true expected label 0) fun _ uses =>
      ∃ page, acct.src.page pageNo = .ok page ∧ ∃ leaves vs, uses = leaves ++ vs
        ∧ acct.Entered ⟨pageNo, .free⟩ ∧ acct.src.TrunkLeaves page.data leaves
        ∧ (∀ u ∈ leaves, acct.Entered u)
        ∧ rel (beU32OrZero page.data 0) (n - 1 - leaves.length) vs := by
  unfold listPage
  rw [bind_assoc]
  refine attempt_bind _ ?_ fun page _ => ?_
  · rw [bind_assoc]
    exact pushThen_fails hbudget (checkLength_keeps ledger_stable) _
  simp only [if_true, bind_assoc]
  refine ((checkTrunk_accounts hbudget husable pageNo page.data (n - 1)).bind
    (fun rest _ => rel (beU32OrZero page.data 0) rest)
    (fun _ => .bind (listLoop_keeps ledger_stable) fun _ => checkLength_keeps ledger_stable)
    fun rest _ _ => hgo _ rest).congr fun _ uses => ⟨?_, ?_⟩
  · rintro ⟨_, leaves, vs, ⟨htrunk, hleaves, hall, rfl⟩, hrest, rfl⟩
    exact ⟨leaves, vs, rfl, htrunk, hleaves, hall, hrest⟩
  · rintro ⟨leaves, vs, rfl, htrunk, hleaves, hall, hrest⟩
    exact ⟨_, leaves, vs, ⟨htrunk, hleaves, hall, rfl⟩, hrest, rfl⟩

/-- The freelist passes with as many pages as expected. -/
theorem trunkLoop_accounts (expected : UInt32) (turns : Nat)
    : acct.Walks true label expected turns fun pageNo n uses =>
      ∃ k < turns, n = uses.length ∧ acct.src.Freelist k pageNo uses
        ∧ ∀ u ∈ uses, acct.Entered u := by
  induction turns with
  | zero => exact fun _ _ => .throw fun _ _ ⟨k, hk, _⟩ => not_lt_zero k hk
  | succ turns ih =>
    intro pageNo n
    refine listLoop_turn hbudget .free (listPage_trunk hbudget husable ih)
      (fun hzero uses => ⟨?_, ?_⟩) (fun hpage uses => ⟨?_, ?_⟩)
    · rintro ⟨rfl, rfl⟩
      exact ⟨0, succ_pos _, rfl, ⟨hzero, rfl⟩, nofun⟩
    · rintro ⟨_ | k, -, rfl, hlist, -⟩
      · rw [hlist.2]
        exact ⟨rfl, rfl⟩
      · exact (hlist.1 hzero).elim
    · rintro ⟨_, rfl, page, hread, leaves, vs, rfl, htrunk, hleaves, hall, k, hk, hn, hlist, hrest⟩
      refine ⟨k + 1, succ_lt_succ hk, ?_, ⟨hpage, page, leaves, vs, hread, hleaves, rfl,
        hlist⟩, ?_⟩
      · simp only [length_cons, length_append]
        omega
      · exact forall_mem_cons.mpr ⟨htrunk, forall_mem_append.mpr ⟨hall, hrest⟩⟩
    · rintro ⟨_ | k, hk, rfl, hlist, hall⟩
      · exact (hpage hlist.1).elim
      obtain ⟨-, page, leaves, vs, hread, hleaves, rfl, hlist⟩ := hlist
      obtain ⟨htrunk, hall⟩ := forall_mem_cons.mp hall
      obtain ⟨hall, hrest⟩ := forall_mem_append.mp hall
      refine ⟨_, rfl, page, hread, leaves, vs, rfl, htrunk, hleaves, hall, k,
        lt_of_succ_lt_succ hk, ?_, hlist, hrest⟩
      simp only [length_cons, length_append]
      omega

end Steps

end GraphiteSql.PageAccounting
