import GraphiteSql.Lib.Fallible

/-! Two fallible loops over one list, a program and the rule it should follow: they agree after
every prefix of the list exactly if every step meets the condition under which one step agrees.
-/

namespace Lib.Lockstep

open List

variable {ε σ τ α : Type}

def Agree (R : σ → τ → Prop) : Except ε σ → Except ε τ → Prop
  | .ok s, .ok t => R s t
  | .error e, .error e' => e = e'
  | _, _ => False

theorem Agree.ok {R : σ → τ → Prop} {x : Except ε σ} {t : τ} (h : Agree R x (.ok t))
    : ∃ s, x = .ok s ∧ R s t := by
  cases x with
  | error e => exact h.elim
  | ok s => exact ⟨s, rfl, h⟩

def Throughout (C : τ → α → Prop) (g : τ → α → Except ε τ) : τ → List α → Prop
  | _, [] => True
  | t, a :: rest => C t a ∧ ∀ t', g t a = .ok t' → Throughout C g t' rest

variable {f : σ → α → Except ε σ} {g : τ → α → Except ε τ} {R : σ → τ → Prop} {C : τ → α → Prop}
  {I : List α → τ → Prop}

theorem agree_cons {s : σ} {t : τ} {a : α} {l : List α} (hstep : Agree R (f s a) (g t a))
    (hrest : ∀ s' t', f s a = .ok s' → g t a = .ok t' → R s' t'
      → Agree R (l.foldlM f s') (l.foldlM g t'))
    : Agree R ((a :: l).foldlM f s) ((a :: l).foldlM g t) := by
  rw [foldlM_cons, foldlM_cons]
  cases hf : f s a with
  | error e =>
    cases hg : g t a with
    | error e' =>
      rw [hf, hg] at hstep
      exact hstep
    | ok t' =>
      rw [hf, hg] at hstep
      exact hstep.elim
  | ok s' =>
    cases hg : g t a with
    | error e' =>
      rw [hf, hg] at hstep
      exact hstep.elim
    | ok t' =>
      rw [hf, hg] at hstep
      exact hrest s' t' hf hg hstep

/-- The loops agree after every prefix exactly if every step meets the condition. The invariant `I`
is about the state of the rule and the items that are left.
-/
theorem agree_iff (hkeep : ∀ a l t t', I (a :: l) t → g t a = .ok t' → I l t')
    (hstep : ∀ a l s t, I (a :: l) t → R s t → (Agree R (f s a) (g t a) ↔ C t a))
    {l : List α} {s : σ} {t : τ} (hI : I l t) (hR : R s t)
    : (∀ k, Agree R ((l.take k).foldlM f s) ((l.take k).foldlM g t)) ↔ Throughout C g t l := by
  induction l generalizing s t with
  | nil =>
    refine ⟨fun _ => trivial, fun _ k => ?_⟩
    rw [take_nil]
    exact hR
  | cons a l ih =>
    constructor
    · intro h
      have hfirst : Agree R (f s a) (g t a) := by
        simpa only [take, foldlM_cons, foldlM_nil, bind_pure] using h 1
      refine ⟨(hstep a l s t hI hR).mp hfirst, fun t' ht' => ?_⟩
      rw [ht'] at hfirst
      obtain ⟨s', hs', hR'⟩ := hfirst.ok
      refine (ih (hkeep a l t t' hI ht') hR').mp fun k => ?_
      have hk := h (k + 1)
      rw [take_succ_cons, foldlM_cons, foldlM_cons, hs', ht'] at hk
      exact hk
    · intro ⟨hC, hrest⟩ k
      cases k with
      | zero => exact hR
      | succ k =>
        refine agree_cons ((hstep a l s t hI hR).mpr hC) fun s' t' _ ht' hR' => ?_
        exact (ih (hkeep a l t t' hI ht') hR').mpr (hrest t' ht') k

end Lib.Lockstep
