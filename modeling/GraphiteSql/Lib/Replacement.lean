import Mathlib.Data.List.Basic
import Mathlib.Logic.Function.Basic

/-! Replacing items of a collection one by one, where a new item removes the items it conflicts
with. An item is known by its place: what a place held at the start is replaced at most by its own
new item, and a place whose item was removed stays empty.
-/

namespace Lib.Replacement

open Option List

variable {ι α : Type}

def Free (conflict : α → α → Bool) (slots : ι → Option α) : Prop :=
  ∀ ⦃i j a b⦄, i ≠ j → slots i = some a → slots j = some b → conflict a b = false

variable [DecidableEq ι]

/-- Put a new item in place `i` and remove what it conflicts with; an empty place is left alone. -/
def visit (conflict : α → α → Bool) (slots : ι → Option α) (i : ι) (new : α) : ι → Option α :=
  if (slots i).isNone then slots
  else fun j => if j = i then some new else (slots j).filter fun old => !conflict new old

def visitAll (conflict : α → α → Bool) (slots : ι → Option α) (visits : List (ι × α))
    : ι → Option α :=
  visits.foldl (fun slots v => visit conflict slots v.1 v.2) slots

section Visit

variable {conflict : α → α → Bool} {slots : ι → Option α} {i : ι} {old new : α}

theorem visit_of_some (h : slots i = some old) (j : ι)
    : visit conflict slots i new j
      = if j = i then some new else (slots j).filter fun old => !conflict new old := by
  unfold visit
  rw [h, if_neg (by simp)]

theorem visit_of_none (h : slots i = none)
    : visit conflict slots i new = slots := by
  unfold visit
  rw [h]
  rfl

/-- What a place holds after a visit. -/
theorem visit_eq_some {j : ι} {a : α} (h : visit conflict slots i new j = some a)
    : slots j = some a ∧ (j ≠ i → slots i ≠ none → conflict new a = false) ∨ j = i ∧ a = new := by
  cases hi : slots i with
  | none =>
    rw [visit_of_none hi] at h
    exact .inl ⟨h, fun _ hne => absurd rfl hne⟩
  | some old =>
    rw [visit_of_some hi] at h
    split_ifs at h with hj
    · exact .inr ⟨hj, (Option.some.inj h).symm⟩
    · obtain ⟨hslot, hfree⟩ := filter_eq_some_iff.mp h
      exact .inl ⟨hslot, fun _ _ => by simpa using hfree⟩

theorem visit_gone {j : ι} (h : slots j = none)
    : visit conflict slots i new j = none := by
  cases hi : slots i with
  | none => rw [visit_of_none hi, h]
  | some old =>
    have hne : j ≠ i := fun heq => by
      rw [heq, hi] at h
      cases h
    rw [visit_of_some hi, if_neg hne, h]
    rfl

theorem visit_free (hsymm : ∀ a b, conflict a b = conflict b a) (h : Free conflict slots)
    : Free conflict (visit conflict slots i new) := by
  cases hi : slots i with
  | none =>
    rw [visit_of_none hi]
    exact h
  | some old =>
    have hplace : slots i ≠ none := by simp [hi]
    intro j k a b hne ha hb
    cases visit_eq_some ha with
    | inl hold =>
      cases visit_eq_some hb with
      | inl hold' => exact h hne hold.1 hold'.1
      | inr hnew =>
        obtain ⟨rfl, rfl⟩ := hnew
        rw [hsymm]
        exact hold.2 hne hplace
    | inr hnew =>
      obtain ⟨rfl, rfl⟩ := hnew
      cases visit_eq_some hb with
      | inl hold' => exact hold'.2 (Ne.symm hne) hplace
      | inr hnew' => exact absurd hnew'.1.symm hne

end Visit

section VisitAll

variable {conflict : α → α → Bool} {slots : ι → Option α} {visits : List (ι × α)}

@[simp] theorem visitAll_cons (i : ι) (new : α) (rest : List (ι × α))
    : visitAll conflict slots ((i, new) :: rest)
        = visitAll conflict (visit conflict slots i new) rest := rfl

theorem visitAll_free (hsymm : ∀ a b, conflict a b = conflict b a) (h : Free conflict slots)
    : Free conflict (visitAll conflict slots visits) := by
  induction visits generalizing slots with
  | nil => exact h
  | cons v rest ih => exact ih (visit_free hsymm h)

theorem visitAll_gone {i : ι} (h : slots i = none)
    : visitAll conflict slots visits i = none := by
  induction visits generalizing slots with
  | nil => exact h
  | cons v rest ih => exact ih (visit_gone h)

theorem visitAll_eq_some {i : ι} {a : α} (h : visitAll conflict slots visits i = some a)
    : slots i = some a ∨ (i, a) ∈ visits := by
  induction visits generalizing slots with
  | nil => exact .inl h
  | cons v rest ih =>
    cases ih h with
    | inr hrest => exact .inr (mem_cons_of_mem _ hrest)
    | inl hslot =>
      cases visit_eq_some hslot with
      | inl hold => exact .inl hold.1
      | inr hnew =>
        obtain ⟨rfl, rfl⟩ := hnew
        exact .inr mem_cons_self

end VisitAll

/-- Two runs that agree up to the names of the places and a view of the items keep agreeing. -/
theorem visitAll_transport {κ β : Type} [DecidableEq κ] {conflict : α → α → Bool}
    {conflict' : β → β → Bool} (place : κ → ι) (valid : κ → Prop) (view : α → β) (good : α → Prop)
    (hinj : ∀ j k, valid j → valid k → place j = place k → j = k)
    (hconflict : ∀ a b, good a → good b → conflict' (view a) (view b) = conflict a b)
    {slots : ι → Option α} {slots' : κ → Option β} {visits : List (κ × α)}
    (hgood : ∀ i a, slots i = some a → good a) (hvisits : ∀ v ∈ visits, valid v.1 ∧ good v.2)
    (h : ∀ k, valid k → slots' k = (slots (place k)).map view) {k : κ} (hk : valid k)
    : visitAll conflict' slots' (visits.map fun v => (v.1, view v.2)) k
      = (visitAll conflict slots (visits.map fun v => (place v.1, v.2)) (place k)).map view := by
  induction visits generalizing slots slots' with
  | nil => exact h k hk
  | cons v rest ih =>
    obtain ⟨⟨hvalid, hv⟩, hrest⟩ := forall_mem_cons.mp hvisits
    refine @ih (visit conflict slots (place v.1) v.2) (visit conflict' slots' v.1 (view v.2))
      (fun i a ha => ?_) hrest fun j hj => ?_
    · cases visit_eq_some ha with
      | inl hold => exact hgood i a hold.1
      | inr hnew => exact hnew.2 ▸ hv
    have hat := h v.1 hvalid
    cases hi : slots (place v.1) with
    | none =>
      rw [hi] at hat
      rw [visit_of_none hi, visit_of_none hat, h j hj]
    | some old =>
      rw [hi] at hat
      rw [visit_of_some hi, visit_of_some hat, h j hj]
      by_cases hjv : j = v.1
      · rw [if_pos hjv, if_pos (congrArg place hjv)]
        rfl
      rw [if_neg hjv, if_neg fun heq => hjv (hinj j v.1 hj hvalid heq)]
      cases hslot : slots (place j) with
      | none => rfl
      | some a =>
        rw [map_some, filter_some, filter_some,
          hconflict v.2 a hv (hgood _ a hslot)]
        split_ifs <;> rfl

end Lib.Replacement
