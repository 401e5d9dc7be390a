import GraphiteSql.Lib.Fallible

/-! Rules for checkers: stateful computations that claim resources one by one and report what
they find wrong. A checker accounts for a relation when it ends without a report exactly on
the lists of resources in the relation, all of which could be claimed.
-/

namespace Lib

/-- The state of a checker: whether nothing was reported, and the claim of a resource, which
fails when the resource is not free.
-/
structure Ledger (σ κ : Type) where
  clean : σ → Prop
  claim : σ → κ → Option σ

namespace Ledger

variable {ε σ κ α β : Type} {L : Ledger σ κ}

def claimAll (L : Ledger σ κ) (s : σ) (uses : List κ) : Option σ :=
  uses.foldlM L.claim s

@[simp]
theorem claimAll_nil (s : σ) : L.claimAll s [] = some s := rfl

theorem claimAll_append (s : σ) (us vs : List κ)
    : L.claimAll s (us ++ vs) = (L.claimAll s us).bind fun s' => L.claimAll s' vs :=
  List.foldlM_append ..

@[simp]
theorem claimAll_cons (s : σ) (u : κ) (us : List κ)
    : L.claimAll s (u :: us) = (L.claim s u).bind fun s' => L.claimAll s' us :=
  rfl

/-- A report is never taken back. -/
def Sticky (L : Ledger σ κ) (x : EStateM ε σ α) : Prop :=
  Maintains (fun s => ¬ L.clean s) x

/-- `x` runs from `s` without a report so far, to `s'`. -/
def Passes (L : Ledger σ κ) (x : EStateM ε σ α) (s : σ) (a : α) (s' : σ) : Prop :=
  x s = .ok a s' ∧ L.clean s'

/-- From a clean state, `x` passes with the result `a` exactly by claiming a list of resources
that belongs to `a`.
-/
def Accounts (L : Ledger σ κ) (x : EStateM ε σ α) (rel : α → List κ → Prop) : Prop :=
  ∀ s, L.clean s → ∀ a s', L.Passes x s a s' ↔ ∃ uses, rel a uses ∧ L.claimAll s uses = some s'

variable {x : EStateM ε σ α} {f : α → EStateM ε σ β}

/-- A sequence passes when both its halves pass. -/
theorem passes_bind (hf : ∀ a, L.Sticky (f a)) {s s'' : σ} {b : β}
    : L.Passes (x >>= f) s b s'' ↔ ∃ a s', L.Passes x s a s' ∧ L.Passes (f a) s' b s'' := by
  constructor
  · rintro ⟨hrun, hclean⟩
    obtain ⟨a, s', hx, hfa⟩ := estate_bind_eq_ok.mp hrun
    refine ⟨a, s', ⟨hx, ?_⟩, hfa, hclean⟩
    by_contra hnot
    exact (hf a s' hnot).ok hfa hclean
  · rintro ⟨a, s', ⟨hx, -⟩, hfa, hclean⟩
    exact ⟨estate_bind_eq_ok.mpr ⟨a, s', hx, hfa⟩, hclean⟩

namespace Accounts

variable {rel rel' : α → List κ → Prop}

theorem congr (h : L.Accounts x rel) (hrel : ∀ a uses, rel a uses ↔ rel' a uses)
    : L.Accounts x rel' := by
  have heq : rel = rel' := funext fun a => funext fun uses => propext (hrel a uses)
  exact heq ▸ h

theorem pure (a : α)
    : L.Accounts (pure a : EStateM ε σ α) fun b uses => b = a ∧ uses = [] := by
  intro s hs b s'
  constructor
  · rintro ⟨hrun, -⟩
    cases hrun
    exact ⟨[], ⟨rfl, rfl⟩, rfl⟩
  · rintro ⟨uses, ⟨rfl, rfl⟩, hclaim⟩
    cases hclaim
    exact ⟨rfl, hs⟩

/-- The rule of sequencing: the claims of the second half follow those of the first. -/
theorem bind (relf : α → β → List κ → Prop) (hx : L.Accounts x rel) (hsticky : ∀ a, L.Sticky (f a))
    (hf : ∀ a us, rel a us → L.Accounts (f a) (relf a))
    : L.Accounts (x >>= f) fun b uses =>
      ∃ a us vs, rel a us ∧ relf a b vs ∧ uses = us ++ vs := by
  intro s hs b s''
  rw [passes_bind hsticky]
  constructor
  · rintro ⟨a, s', hpass, hrest⟩
    obtain ⟨us, hus, hclaim⟩ := (hx s hs a s').mp hpass
    obtain ⟨vs, hvs, hclaim'⟩ := (hf a us hus s' hpass.2 b s'').mp hrest
    exact ⟨us ++ vs, ⟨a, us, vs, hus, hvs, rfl⟩, by rw [claimAll_append, hclaim]; exact hclaim'⟩
  rintro ⟨uses, ⟨a, us, vs, hus, hvs, rfl⟩, hclaim⟩
  rw [claimAll_append] at hclaim
  obtain ⟨s', hclaim, hclaim'⟩ := Option.bind_eq_some_iff.mp hclaim
  have hpass := (hx s hs a s').mpr ⟨us, hus, hclaim⟩
  exact ⟨a, s', hpass, (hf a us hus s' hpass.2 b s'').mpr ⟨vs, hvs, hclaim'⟩⟩

theorem of_eq {y : EStateM ε σ α} (h : ∀ s, L.clean s → x s = y s) (hy : L.Accounts y rel)
    : L.Accounts x rel := by
  intro s hs a s'
  rw [Passes, h s hs]
  exact hy s hs a s'

/-- A first half that has one result on clean states and changes nothing. -/
theorem skip {relf : β → List κ → Prop} {a : α} (hx : ∀ s, L.clean s → x s = .ok a s)
    (hf : L.Accounts (f a) relf) : L.Accounts (x >>= f) relf :=
  of_eq (fun s hs => estate_bind_ok (hx s hs)) hf

/-- A first half that passes when `cond` holds, and then changes nothing. -/
theorem guard {relf : β → List κ → Prop} {cond : Prop} {x : EStateM ε σ PUnit}
    {f : PUnit → EStateM ε σ β} (hx : L.Accounts x fun _ uses => cond ∧ uses = [])
    (hsticky : ∀ a, L.Sticky (f a)) (hf : L.Accounts (f ⟨⟩) relf)
    : L.Accounts (x >>= f) fun b uses => cond ∧ relf b uses := by
  refine (hx.bind (fun _ => relf) hsticky fun _ _ _ => hf).congr fun b uses => ⟨?_, ?_⟩
  · rintro ⟨_, us, vs, ⟨hcond, rfl⟩, hvs, rfl⟩
    exact ⟨hcond, hvs⟩
  · rintro ⟨hcond, hvs⟩
    exact ⟨⟨⟩, [], uses, ⟨hcond, rfl⟩, hvs, rfl⟩

/-- Relations may be changed on lists that cannot be claimed. -/
theorem congr_claimed (h : L.Accounts x rel)
    (hrel : ∀ s a uses s', L.clean s → L.claimAll s uses = some s' → (rel a uses ↔ rel' a uses))
    : L.Accounts x rel' := by
  intro s hs a s'
  rw [h s hs a s']
  refine exists_congr fun uses => and_congr_left fun hclaim => ?_
  exact hrel s a uses s' hs hclaim

/-- A computation that never passes. -/
theorem fails (h : ∀ s, L.clean s → ∀ a s', ¬ L.Passes x s a s')
    : L.Accounts x fun _ _ => False := by
  intro s hs a s'
  refine ⟨fun hpass => (h s hs a s' hpass).elim, ?_⟩
  rintro ⟨_, hfalse, -⟩
  exact hfalse.elim

theorem throw {e : ε} (hrel : ∀ a uses, ¬ rel a uses)
    : L.Accounts (EStateM.throw e) rel := by
  refine (fails fun s _ a s' hpass => ?_).congr fun a uses => iff_of_false id (hrel a uses)
  cases hpass.1

/-- A check that is made under a condition. -/
theorem when {p cond : Prop} [Decidable p] {x : EStateM ε σ PUnit}
    (hx : L.Accounts x fun _ uses => cond ∧ uses = [])
    : L.Accounts (if p then x else Pure.pure ⟨⟩) fun _ uses => (p → cond) ∧ uses = [] := by
  split
  · next h => exact hx.congr fun _ _ => and_congr_left fun _ => ⟨fun hc _ => hc, fun hc => hc h⟩
  · next h =>
      exact (pure _).congr fun _ _ => and_congr_left fun _ => iff_of_true rfl (absurd · h)

theorem bind_fails (hx : L.Accounts x fun _ _ => False) (hsticky : ∀ a, L.Sticky (f a))
    : L.Accounts (x >>= f) fun _ _ => False := by
  refine fails fun s hs b s'' hpass => ?_
  obtain ⟨a, s', hfirst, -⟩ := (passes_bind hsticky).mp hpass
  obtain ⟨_, hfalse, -⟩ := (hx s hs a s').mp hfirst
  exact hfalse

end Accounts

end Ledger

end Lib
