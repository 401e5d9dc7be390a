import Mathlib.Tactic.Common
import Mathlib.Data.List.Forall2

/-! Rules for sequencing fallible computations: `Except` without a state, `EStateM` with one. -/

namespace Lib

open List

section Stateless

variable {ε α β : Type} {l : List α} {good : σ → Prop}

@[simp]
theorem except_ok_bind (a : α) (f : α → Except ε β) : ((Except.ok a : Except ε α) >>= f) = f a :=
  (rfl)

@[simp]
theorem except_error_bind (e : ε) (f : α → Except ε β)
    : ((Except.error e : Except ε α) >>= f) = .error e :=
  (rfl)

@[simp]
theorem except_pure (a : α) : (pure a : Except ε α) = .ok a := (rfl)

@[simp]
theorem except_throw (e : ε) : (throw e : Except ε α) = .error e := (rfl)

/-- A sequence succeeds exactly when both its halves do. -/
theorem except_bind_eq_ok {x : Except ε α} {f : α → Except ε β} {b : β}
    : (x >>= f) = .ok b ↔ ∃ a, x = .ok a ∧ f a = .ok b := by
  cases x with
  | ok a => simp
  | error e => simp

theorem except_foldlM_keeps (keep : β → Prop) {f : β → α → Except ε β} {b b' : β}
    (hf : ∀ b a b', keep b → f b a = .ok b' → keep b') (hb : keep b)
    (h : l.foldlM f b = .ok b') : keep b' := by
  induction l generalizing b with
  | nil =>
    cases h
    exact hb
  | cons head tail ih =>
    obtain ⟨mid, hmid, hrest⟩ := except_bind_eq_ok.mp h
    exact ih (hf b head mid hb hmid) hrest

/-- A map succeeds exactly when it succeeds on every item. -/
theorem except_mapM_eq_ok {f : α → Except ε β} {bs : List β}
    : l.mapM f = .ok bs ↔ List.Forall₂ (fun a b => f a = .ok b) l bs := by
  induction l generalizing bs with
  | nil =>
    rw [forall₂_nil_left_iff]
    exact ⟨fun h => (Except.ok.inj h).symm, fun h => h ▸ rfl⟩
  | cons head tail ih =>
    rw [mapM_cons, forall₂_cons_left_iff]
    simp only [except_bind_eq_ok, ih, except_pure, Except.ok.injEq]
    constructor
    · rintro ⟨b, hb, rest, hrest, rfl⟩
      exact ⟨b, rest, hb, hrest, rfl⟩
    · rintro ⟨b, rest, hb, hrest, rfl⟩
      exact ⟨b, hb, rest, hrest, rfl⟩

/-- Every item on the left of related lists has its partner. -/
theorem forall₂_left {rel : α → β → Prop} {m : List β} (h : List.Forall₂ rel l m)
    {a : α} (ha : a ∈ l) : ∃ b ∈ m, rel a b := by
  induction h with
  | nil => cases ha
  | cons hrel _ ih =>
    rcases mem_cons.mp ha with rfl | ha
    · exact ⟨_, mem_cons_self, hrel⟩
    · obtain ⟨b, hb, hrel⟩ := ih ha
      exact ⟨b, mem_cons_of_mem _ hb, hrel⟩

/-- Every item on the right of related lists has its partner. -/
theorem forall₂_right {rel : α → β → Prop} {m : List β} (h : List.Forall₂ rel l m)
    {b : β} (hb : b ∈ m) : ∃ a ∈ l, rel a b :=
  forall₂_left h.flip hb

theorem forall₂_eq {rel rel' : α → β → Prop} (h : ∀ a b b', rel a b → rel' a b' → b = b')
    {m m' : List β} (hm : List.Forall₂ rel l m) (hm' : List.Forall₂ rel' l m')
    : m = m' := by
  induction hm generalizing m' with
  | nil => exact (forall₂_nil_left_iff.mp hm').symm
  | cons hrel _ ih =>
    obtain ⟨b', rest, hrel', hrest, rfl⟩ := forall₂_cons_left_iff.mp hm'
    rw [h _ _ _ hrel hrel', ih hrest]

/-- A property of all items of the parts can be said of each part. -/
theorem forall₂_forall_mem {γ : Type} {rel : α → List γ → Prop} {prop : γ → Prop}
    {parts : List (List γ)}
    : List.Forall₂ (fun a part => rel a part ∧ ∀ c ∈ part, prop c) l parts
      ↔ List.Forall₂ rel l parts ∧ ∀ c ∈ parts.flatten, prop c := by
  induction l generalizing parts with
  | nil =>
    rw [forall₂_nil_left_iff, forall₂_nil_left_iff]
    exact ⟨fun h => ⟨h, h ▸ nofun⟩, And.left⟩
  | cons head tail ih =>
    rw [forall₂_cons_left_iff, forall₂_cons_left_iff]
    constructor
    · rintro ⟨part, rest, ⟨hrel, hpart⟩, hrest, rfl⟩
      obtain ⟨hrest, hall⟩ := ih.mp hrest
      exact ⟨⟨part, rest, hrel, hrest, rfl⟩, forall_mem_append.mpr ⟨hpart, hall⟩⟩
    · rintro ⟨⟨part, rest, hrel, hrest, rfl⟩, hall⟩
      obtain ⟨hpart, hall⟩ := forall_mem_append.mp hall
      exact ⟨part, rest, ⟨hrel, hpart⟩, ih.mpr ⟨hrest, hall⟩, rfl⟩

end Stateless

section Stateful

variable {ε σ α β : Type}

theorem estate_bind_ok {x : EStateM ε σ α} {f : α → EStateM ε σ β} {s s' : σ} {a : α}
    (h : x s = .ok a s') : (x >>= f) s = f a s' := by
  show EStateM.bind x f s = _
  rw [EStateM.bind, h]

theorem estate_bind_error {x : EStateM ε σ α} {f : α → EStateM ε σ β} {s s' : σ} {e : ε}
    (h : x s = .error e s') : (x >>= f) s = .error e s' := by
  show EStateM.bind x f s = _
  rw [EStateM.bind, h]

/-- A sequence succeeds exactly when both its halves do. -/
theorem estate_bind_eq_ok {x : EStateM ε σ α} {f : α → EStateM ε σ β} {s s'' : σ} {b : β}
    : (x >>= f) s = .ok b s'' ↔ ∃ a s', x s = .ok a s' ∧ f a s' = .ok b s'' := by
  cases hx : x s with
  | ok a s' => simp [estate_bind_ok hx]
  | error e s' => simp [estate_bind_error hx]

@[simp]
theorem estate_pure (a : α) (s : σ) : (pure a : EStateM ε σ α) s = .ok a s := (rfl)

@[simp]
theorem estate_throw (e : ε) (s : σ) : (throw e : EStateM ε σ α) s = .error e s := (rfl)

@[simp]
theorem estate_modify (f : σ → σ) (s : σ) : (modify f : EStateM ε σ PUnit) s = .ok ⟨⟩ (f s) := (rfl)

@[simp]
theorem estate_get_bind (f : σ → EStateM ε σ β) (s : σ) : (get >>= f) s = f s s := (rfl)

@[simp]
theorem estate_modify_bind (g : σ → σ) (f : PUnit → EStateM ε σ β) (s : σ)
    : (modify g >>= f) s = f ⟨⟩ (g s) := (rfl)

end Stateful

section Postconditions

variable {ε σ α β : Type}

/-- Running `x` from `s` ends with `post` when it succeeds and with `fail` when it fails. -/
def Runs (x : EStateM ε σ α) (s : σ) (post : α → σ → Prop) (fail : ε → σ → Prop) : Prop :=
  match x s with
  | .ok a s' => post a s'
  | .error e s' => fail e s'

variable {x : EStateM ε σ α} {f : α → EStateM ε σ β} {s s' : σ}
variable {post post' : α → σ → Prop} {fail fail' : ε → σ → Prop}

theorem Runs.of_ok {a : α} (h : x s = .ok a s') (hpost : post a s') : Runs x s post fail := by
  rw [Runs, h]
  exact hpost

theorem Runs.of_error {e : ε} (h : x s = .error e s') (hfail : fail e s')
    : Runs x s post fail := by
  rw [Runs, h]
  exact hfail

section

variable (hr : Runs x s post fail)

include hr

theorem Runs.ok {a : α} (h : x s = .ok a s') : post a s' := by
  rw [Runs, h] at hr
  exact hr

theorem Runs.error {e : ε} (h : x s = .error e s') : fail e s' := by
  rw [Runs, h] at hr
  exact hr

/-- Postconditions may be weakened. -/
theorem Runs.mono (hpost : ∀ a s', post a s' → post' a s')
    (hfail : ∀ e s', fail e s' → fail' e s') : Runs x s post' fail' := by
  unfold Runs at hr ⊢
  cases h : x s with
  | ok a s' =>
    rw [h] at hr
    exact hpost a s' hr
  | error e s' =>
    rw [h] at hr
    exact hfail e s' hr

/-- Two postconditions of one run hold together. -/
theorem Runs.and (hr' : Runs x s post' fail')
    : Runs x s (fun a t => post a t ∧ post' a t) (fun e t => fail e t ∧ fail' e t) := by
  unfold Runs at hr hr' ⊢
  cases h : x s with
  | ok a t =>
    rw [h] at hr hr'
    exact ⟨hr, hr'⟩
  | error e t =>
    rw [h] at hr hr'
    exact ⟨hr, hr'⟩

end

/-- The rule of sequencing. -/
theorem runs_bind {post : β → σ → Prop}
    : Runs (x >>= f) s post fail ↔ Runs x s (fun a s' => Runs (f a) s' post fail) fail := by
  unfold Runs
  cases h : x s with
  | ok a s' => rw [estate_bind_ok h]
  | error e s' => rw [estate_bind_error h]

theorem Runs.bind {post' : β → σ → Prop} (hr : Runs x s post fail)
    (hf : ∀ a t, post a t → Runs (f a) t post' fail') (hfail : ∀ e t, fail e t → fail' e t)
    : Runs (x >>= f) s post' fail' :=
  runs_bind.mpr (hr.mono hf hfail)

theorem Runs.seq {post' : β → σ → Prop} (hr : Runs x s post fail)
    (hf : ∀ a t, post a t → Runs (f a) t post' fail) : Runs (x >>= f) s post' fail :=
  hr.bind hf fun _ _ => id

theorem Runs.bind_ok {a : α} {post : β → σ → Prop} (h : x s = .ok a s')
    (hf : Runs (f a) s' post fail) : Runs (x >>= f) s post fail :=
  runs_bind.mpr (.of_ok h hf)

theorem runs_pure {a : α} : Runs (pure a) s post fail ↔ post a s := Iff.rfl

theorem runs_get_bind {f : σ → EStateM ε σ α}
    : Runs (get >>= f) s post fail ↔ Runs (f s) s post fail := Iff.rfl

theorem runs_modify {g : σ → σ} {post : PUnit → σ → Prop}
    : Runs (modify g) s post fail ↔ post ⟨⟩ (g s) := Iff.rfl

theorem runs_set {t : σ} {post : PUnit → σ → Prop}
    : Runs (set t) s post fail ↔ post ⟨⟩ t := Iff.rfl

/-- `x` leaves a `good` state, whether it succeeds or fails. -/
abbrev Ends (x : EStateM ε σ α) (s : σ) (good : σ → Prop) : Prop :=
  Runs x s (fun _ => good) (fun _ => good)

theorem Runs.imp {good good' : σ → Prop} (h : Ends x s good) (himp : ∀ t, good t → good' t)
    : Ends x s good' :=
  h.mono (fun _ => himp) (fun _ => himp)

def Maintains (inv : σ → Prop) (x : EStateM ε σ α) : Prop :=
  ∀ s, inv s → Runs x s (fun _ => inv) (fun _ => inv)

variable {inv : σ → Prop}

theorem Maintains.pure (a : α) : Maintains inv (pure a : EStateM ε σ α) := fun _ hs => hs

theorem Maintains.throw (e : ε) : Maintains inv (throw e : EStateM ε σ α) := fun _ hs => hs

theorem Maintains.modify {g : σ → σ} (hg : ∀ s, inv s → inv (g s))
    : Maintains inv (modify g : EStateM ε σ PUnit) := fun s hs => hg s hs

theorem Maintains.bind (hx : Maintains inv x) (hf : ∀ a, Maintains inv (f a))
    : Maintains inv (x >>= f) := by
  intro s hs
  exact (hx s hs).seq fun a s' hs' => hf a s' hs'

theorem Maintains.and {inv' : σ → Prop} (hx : Maintains inv x) (hx' : Maintains inv' x)
    : Maintains (fun s => inv s ∧ inv' s) x := fun s hs => (hx s hs.1).and (hx' s hs.2)

/-- Reading the state gives its invariant to the rest. -/
theorem Maintains.get_bind {f : σ → EStateM ε σ α}
    (hf : ∀ s, inv s → Runs (f s) s (fun _ => inv) (fun _ => inv))
    : Maintains inv (get >>= f) := fun s hs => hf s hs

/-- A loop over a list keeps what each of its steps keeps. -/
theorem Maintains.forM {l : List β} {g : β → EStateM ε σ PUnit}
    (hg : ∀ b ∈ l, Maintains inv (g b)) : Maintains inv (l.forM g) := by
  induction l with
  | nil => exact .pure _
  | cons head tail ih =>
    exact (hg head mem_cons_self).bind
      fun _ => ih fun b hb => hg b (mem_cons_of_mem _ hb)

def Returns (good : α → Prop) (x : EStateM ε σ α) : Prop :=
  ∀ s, Runs x s (fun a _ => good a) (fun _ _ => True)

theorem Returns.pure {good : α → Prop} {a : α} (h : good a)
    : Returns good (pure a : EStateM ε σ α) := fun _ => h

theorem runs_bind_of_forall {post : β → σ → Prop}
    (hf : ∀ a t, Runs (f a) t post (fun _ _ => True))
    : Runs (x >>= f) s post (fun _ _ => True) := by
  rw [runs_bind]
  unfold Runs
  cases x s with
  | ok a s' => exact hf a s'
  | error e s' => trivial

theorem Returns.bind {good : β → Prop} (hf : ∀ a, Returns good (f a)) : Returns good (x >>= f) :=
  fun _ => runs_bind_of_forall hf

def Ensures (good : σ → Prop) (x : EStateM ε σ α) : Prop :=
  ∀ s, Runs x s (fun _ => good) (fun _ _ => True)

/-- What the last call ensures, the sequence ensures. -/
theorem Ensures.bind (hf : ∀ a, Ensures good (f a)) : Ensures good (x >>= f) :=
  fun _ => runs_bind_of_forall hf

/-- What a call ensures, the sequence ensures if the rest keeps it when it succeeds. -/
theorem Ensures.bind_keeps (hx : Ensures good x)
    (hf : ∀ a t, good t → Runs (f a) t (fun _ => good) (fun _ _ => True))
    : Ensures good (x >>= f) := by
  intro s
  exact (hx s).seq fun a t ht => hf a t ht

theorem Ensures.throw (e : ε) : Ensures good (throw e : EStateM ε σ α) :=
  fun _ => trivial

theorem Ensures.modify {g : σ → σ} (hg : ∀ s, good (g s))
    : Ensures good (modify g : EStateM ε σ PUnit) :=
  fun s => hg s

end Postconditions

end Lib
