import Mathlib.Tactic.Common

/-! Runs of a deterministic machine, and properties of every step of a run. -/

namespace Lib

variable {σ ι : Type} (step : σ → ι → σ)

def exec (s : σ) (script : List ι) : σ :=
  script.foldl step s

@[simp]
theorem exec_nil (s : σ) : exec step s [] = s := rfl

@[simp]
theorem exec_cons (s : σ) (c : ι) (rest : List ι)
    : exec step s (c :: rest) = exec step (step s c) rest := rfl

theorem exec_append (s : σ) (script script' : List ι)
    : exec step s (script ++ script') = exec step (exec step s script) script' :=
  List.foldl_append

def Meets (good : σ → ι → Prop) (s : σ) : List ι → Prop
  | [] => True
  | c :: rest => good s c ∧ Meets good (step s c) rest

instance decidableMeets {good : σ → ι → Prop} [∀ s c, Decidable (good s c)] (s : σ)
    : (script : List ι) → Decidable (Meets step good s script)
  | [] => .isTrue trivial
  | c :: rest => @instDecidableAnd _ _ inferInstance (decidableMeets (step s c) rest)

theorem exec_invariant (inv : σ → Prop) {cond : σ → ι → Prop}
    (hstep : ∀ s c, inv s → cond s c → inv (step s c)) {s : σ} (hs : inv s) {script : List ι}
    (hcond : Meets step cond s script) : inv (exec step s script) := by
  induction script generalizing s with
  | nil => exact hs
  | cons c rest ih => exact ih (hstep s c hs hcond.1) hcond.2

theorem exec_always (inv : σ → Prop) (hstep : ∀ s c, inv s → inv (step s c)) {s : σ} (hs : inv s)
    (script : List ι) : inv (exec step s script) := by
  induction script generalizing s with
  | nil => exact hs
  | cons c rest ih => exact ih (hstep s c hs)

/-- An invariant that every step keeps under `cond` gives `good` along the whole script. -/
theorem Meets.of_invariant (inv : σ → Prop) {cond good : σ → ι → Prop}
    (hstep : ∀ s c, inv s → cond s c → good s c ∧ inv (step s c)) {s : σ} (hs : inv s)
    {script : List ι} (hcond : Meets step cond s script) : Meets step good s script := by
  induction script generalizing s with
  | nil => trivial
  | cons c rest ih =>
    obtain ⟨hhead, hrest⟩ := hcond
    obtain ⟨hgood, hinv⟩ := hstep s c hs hhead
    exact ⟨hgood, ih hinv hrest⟩

end Lib
