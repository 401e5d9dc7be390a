import GraphiteSql.Lib.Fallible

/-! Readers that consume the front of a list, and when they recover what a writer put there. -/

namespace Lib

open List

variable {good good' : Prop} {ε β α γ ι κ : Type}
variable {x : EStateM ε (List β) α} {enc : List β} {a : α} {σ : Type}

/-- The reader `x` recovers `a` from the encoding `enc`, whatever follows it, if `good`; otherwise
it fails or reads something else.
-/
structure Recovers (x : EStateM ε (List β) α) (enc : List β) (a : α) (good : Prop) : Prop where
  sound : good → ∀ rest, x (enc ++ rest) = .ok a rest
  only : ¬good → ∀ rest a' rest', x (enc ++ rest) = .ok a' rest' → a' ≠ a

theorem Recovers.of_sound (h : ∀ rest, x (enc ++ rest) = .ok a rest) : Recovers x enc a True :=
  ⟨fun _ => h, fun hno => absurd trivial hno⟩

theorem Recovers.pure (a : α) : Recovers (pure a : EStateM ε (List β) α) [] a True :=
  .of_sound fun _ => rfl

theorem Recovers.congr (h : Recovers x enc a good) (hiff : good ↔ good') : Recovers x enc a good' :=
  ⟨fun hgood => h.sound (hiff.mpr hgood), fun hbad => h.only fun hgood => hbad (hiff.mp hgood)⟩

/-- One reader after the other. What the second one makes of a wrong first result must differ
from what was encoded.
-/
theorem Recovers.bind {f : α → EStateM ε (List β) γ} {enc' : List β}
    {c : γ} (hx : Recovers x enc a good) (hf : Recovers (f a) enc' c good')
    (hsep : ∀ a' s c' s', a' ≠ a → f a' s = .ok c' s' → c' ≠ c)
    : Recovers (x >>= f) (enc ++ enc') c (good ∧ good') where
  sound hgood rest := by
    rw [append_assoc, estate_bind_ok (hx.sound hgood.1 _)]
    exact hf.sound hgood.2 rest
  only hbad rest c' rest' h := by
    rw [append_assoc] at h
    obtain ⟨a', mid, ha', hc'⟩ := estate_bind_eq_ok.mp h
    by_cases hgood : good
    · rw [hx.sound hgood] at ha'
      cases ha'
      exact hf.only (fun hgood' => hbad ⟨hgood, hgood'⟩) _ _ _ hc'
    · exact hsep a' mid c' rest' (hx.only hgood _ _ _ ha') hc'

theorem Recovers.after {f : α → EStateM ε (List β) γ}
    {enc' : List β} {c : γ} (hx : ∀ rest, x (enc ++ rest) = .ok a rest)
    (hf : Recovers (f a) enc' c good) : Recovers (x >>= f) (enc ++ enc') c good where
  sound hgood rest := by
    rw [append_assoc, estate_bind_ok (hx _)]
    exact hf.sound hgood rest
  only hbad rest c' rest' h := by
    rw [append_assoc, estate_bind_ok (hx _)] at h
    exact hf.only hbad rest c' rest' h

/-- Packing up what was read, by a function that keeps values apart. -/
theorem Recovers.map (hx : Recovers x enc a good) {g : α → γ} (hg : ∀ a', g a' = g a → a' = a)
    : Recovers (do return g (← x)) enc (g a) good := by
  have h := hx.bind (f := fun a => Pure.pure (g a)) (.pure (g a)) (fun a' s c' s' hne hok => by
    cases hok
    exact fun heq => hne (hg a' heq))
  rw [append_nil] at h
  exact h.congr (and_iff_left trivial)

theorem Recovers.mapM {f : κ → EStateM ε (List β) α} {l : List ι} {key : ι → κ} {enc : ι → List β}
    {val : ι → α} {good : ι → Prop} (h : ∀ i ∈ l, Recovers (f (key i)) (enc i) (val i) (good i))
    : Recovers ((l.map key).mapM f) (l.flatMap enc) (l.map val) (∀ i ∈ l, good i) := by
  induction l with
  | nil => exact (Recovers.pure []).congr (by simp)
  | cons head tail ih =>
    have htail := ih fun i hi => h i (mem_cons_of_mem _ hi)
    have hrest := htail.map (g := fun vs => val head :: vs) fun vs hvs => tail_eq_of_cons_eq hvs
    rw [map_cons, mapM_cons]
    refine ((h head mem_cons_self).bind hrest fun a' s c' s' hne hok => ?_).congr ?_
    · obtain ⟨vs, mid, -, hvs⟩ := estate_bind_eq_ok.mp hok
      cases hvs
      exact fun heq => hne (head_eq_of_cons_eq heq)
    · rw [forall_mem_cons]

/-- A list of readers returns as many values. -/
theorem estate_mapM_length {f : κ → EStateM ε σ α} {l : List κ} {s s' : σ}
    {out : List α} (h : l.mapM f s = .ok out s') : out.length = l.length := by
  induction l generalizing s out with
  | nil =>
    cases h
    rfl
  | cons head tail ih =>
    rw [mapM_cons] at h
    obtain ⟨a, mid, -, h⟩ := estate_bind_eq_ok.mp h
    obtain ⟨rest, mid', hrest, h⟩ := estate_bind_eq_ok.mp h
    cases h
    rw [length_cons, length_cons, ih hrest]

/-- The reader gets from `s` to `rest` if `good` holds, and fails otherwise. -/
structure Decides {σ : Type} (x : EStateM ε σ α) (s rest : σ) (good : Prop) : Prop where
  passes : good → ∃ a, x s = .ok a rest
  fails : ¬good → ∀ a rest', x s ≠ .ok a rest'

theorem Decides.bind {x : EStateM ε σ α} {f : α → EStateM ε σ γ} {s mid rest : σ}
    (hx : Decides x s mid good) (hf : ∀ a, Decides (f a) mid rest good')
    : Decides (x >>= f) s rest (good ∧ good') where
  passes hgood := by
    obtain ⟨a, ha⟩ := hx.passes hgood.1
    obtain ⟨c, hc⟩ := (hf a).passes hgood.2
    exact ⟨c, by rw [estate_bind_ok ha, hc]⟩
  fails hbad c rest' hok := by
    obtain ⟨a, mid', ha, hc⟩ := estate_bind_eq_ok.mp hok
    by_cases hgood : good
    · obtain ⟨a', ha'⟩ := hx.passes hgood
      rw [ha'] at ha
      cases ha
      exact (hf a).fails (fun hgood' => hbad ⟨hgood, hgood'⟩) c rest' hc
    · exact hx.fails hgood a mid' ha

theorem Decides.map {x : EStateM ε σ α} {s rest : σ} (hx : Decides x s rest good) (g : α → γ)
    : Decides (do return g (← x)) s rest good where
  passes hgood := by
    obtain ⟨a, ha⟩ := hx.passes hgood
    exact ⟨g a, estate_bind_ok ha⟩
  fails hbad c rest' hok := by
    obtain ⟨a, mid, ha, -⟩ := estate_bind_eq_ok.mp hok
    exact hx.fails hbad a mid ha

end Lib
