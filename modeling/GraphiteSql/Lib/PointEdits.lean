import Mathlib.Data.List.Nodup
import Mathlib.Data.List.Perm.Basic
import Mathlib.Logic.Function.Basic

/-! Edits of a partial map, each at one key. An edit looks at what its key holds, and either
refuses or replaces it. A list of edits at distinct keys acts on every key at once, so the order
of the list does not matter.
-/

namespace Lib

open List Option

/-- A partial edit of the value at one key; `none` inside is an absent value. -/
structure PointEdit (K V : Type) where
  key : K
  act : Option V → Option (Option V)

namespace PointEdit

variable {K V : Type} {m' : K → Option V} {m : K → Option V}

/-- What a list of edits at distinct keys does to a map: each edit is accepted at its key, and
every other key is left alone.
-/
structure Effect (edits : List (PointEdit K V)) (m m' : K → Option V) : Prop where
  accepted : ∀ e ∈ edits, e.act (m e.key) = some (m' e.key)
  others : ∀ k, k ∉ edits.map key → m' k = m k

theorem Effect.perm {edits edits' : List (PointEdit K V)} (hperm : edits'.Perm edits)
    (h : Effect edits m m')
    : Effect edits' m m' where
  accepted e he := h.accepted e (hperm.mem_iff.mp he)
  others k hk := h.others k fun hmem => hk ((hperm.map key).mem_iff.mpr hmem)

/-- An edit at a key that the others leave alone takes the place of the one that was there. -/
theorem Effect.absorb {found next : Option (PointEdit K V)} {others : List (PointEdit K V)} {k : K}
    {mid : K → Option V} (h : Effect (found.toList ++ others) m mid)
    (hfound : ∀ f ∈ found, f.key = k) (hfresh : k ∉ others.map key)
    (hsame : ∀ k', k' ≠ k → m' k' = mid k')
    (hnext : ∀ n ∈ next, n.key = k ∧ n.act (m k) = some (m' k)) (hnone : next = none → m' k = m k)
    : Effect (next.toList ++ others) m m' where
  accepted e he := by
    cases mem_append.mp he with
    | inl hnew =>
      obtain ⟨hkey, hact⟩ := hnext e (mem_toList.mp hnew)
      rw [hkey]
      exact hact
    | inr hother =>
      have hne : e.key ≠ k := fun heq => hfresh (heq ▸ mem_map_of_mem hother)
      rw [hsame e.key hne]
      exact h.accepted e (mem_append_right _ hother)
  others k' hk' := by
    rw [map_append, mem_append, not_or] at hk'
    by_cases heq : k' = k
    · subst heq
      refine hnone (eq_none_iff_forall_not_mem.mpr fun n hn => hk'.1 ?_)
      rw [← (hnext n hn).1]
      exact mem_map_of_mem (mem_toList.mpr hn)
    rw [hsame k' heq]
    refine h.others k' fun hmem => ?_
    rw [map_append, mem_append] at hmem
    cases hmem with
    | inl hin =>
      obtain ⟨f, hf, rfl⟩ := mem_map.mp hin
      exact heq (hfound f (mem_toList.mp hf))
    | inr hin => exact hk'.2 hin

variable [DecidableEq K]

def apply (e : PointEdit K V) (m : K → Option V) : Option (K → Option V) :=
  (e.act (m e.key)).map (Function.update m e.key)

def applyAll : List (PointEdit K V) → (K → Option V) → Option (K → Option V)
  | [], m => some m
  | e :: rest, m => (e.apply m).bind (applyAll rest)

theorem applyAll_append (edits more : List (PointEdit K V)) (m : K → Option V)
    : applyAll (edits ++ more) m = (applyAll edits m).bind (applyAll more) := by
  induction edits generalizing m with
  | nil => rfl
  | cons e rest ih =>
    simp only [cons_append, applyAll]
    cases e.apply m with
    | none => rfl
    | some mid => exact ih mid

theorem apply_eq_some {e : PointEdit K V} (h : e.apply m = some m')
    : e.act (m e.key) = some (m' e.key) ∧ ∀ k, k ≠ e.key → m' k = m k := by
  obtain ⟨v, hv, rfl⟩ := map_eq_some_iff.mp h
  refine ⟨by simpa using hv, fun k hk => ?_⟩
  simp [hk]

/-- Applying edits at distinct keys is having their effect. -/
theorem applyAll_eq_some_iff {edits : List (PointEdit K V)} (hkeys : (edits.map key).Nodup)
    : applyAll edits m = some m' ↔ Effect edits m m' := by
  induction edits generalizing m with
  | nil =>
    constructor
    · intro h
      cases h
      exact ⟨by simp, fun _ _ => rfl⟩
    intro h
    have hsame : m' = m := funext fun k => h.others k (by simp)
    rw [hsame]
    rfl
  | cons e rest ih =>
    obtain ⟨hfresh, hrest⟩ := nodup_cons.mp hkeys
    constructor
    · intro h
      obtain ⟨mid, hmid, htail⟩ := bind_eq_some_iff.mp h
      obtain ⟨hact, hothers⟩ := apply_eq_some hmid
      have heffect := (ih hrest).mp htail
      refine ⟨fun d hd => ?_, fun k hk => ?_⟩
      · cases mem_cons.mp hd with
        | inl hhead =>
          rw [hhead, heffect.others e.key hfresh]
          exact hact
        | inr htail =>
          have hne : d.key ≠ e.key := fun heq => hfresh (heq ▸ mem_map_of_mem htail)
          rw [← hothers d.key hne]
          exact heffect.accepted d htail
      · have hsplit : k ≠ e.key ∧ k ∉ rest.map key := by simpa using hk
        rw [heffect.others k hsplit.2, hothers k hsplit.1]
    · intro h
      have hhead := h.accepted e mem_cons_self
      refine bind_eq_some_iff.mpr
        ⟨Function.update m e.key (m' e.key), by rw [apply, hhead]; rfl, (ih hrest).mpr ?_⟩
      refine ⟨fun d hd => ?_, fun k hk => ?_⟩
      · have hne : d.key ≠ e.key := fun heq => hfresh (heq ▸ mem_map_of_mem hd)
        rw [Function.update_of_ne hne]
        exact h.accepted d (mem_cons_of_mem _ hd)
      by_cases heq : k = e.key
      · rw [heq, Function.update_self]
      · rw [Function.update_of_ne heq]
        exact h.others k fun hmem => (mem_cons.mp hmem).elim heq hk

theorem Effect.applyAll_perm {edits edits' : List (PointEdit K V)} (hperm : edits'.Perm edits)
    (hkeys : (edits.map key).Nodup) (h : Effect edits m m')
    : applyAll edits' m = some m' :=
  (applyAll_eq_some_iff ((hperm.map key).nodup_iff.mpr hkeys)).mpr (h.perm hperm)

end PointEdit

end Lib
