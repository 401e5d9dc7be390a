import Mathlib.Data.List.Nodup
import Mathlib.Data.List.Perm.Basic
import Mathlib.Data.List.Flatten

/-! Hash tables with chained buckets: a list of chains, with every item in the chain its key is
hashed to. Prepending to a chain adds one item to the table, and rehashing only permutes it.
-/

namespace Lib.Buckets

open List

variable {α β K : Type} {buckets : List (List α)}

theorem getD_modify (buckets : List (List α)) (i j : Nat) (f : List α → List α)
    (hnil : f [] = [] ∨ i < buckets.length)
    : (buckets.modify i f).getD j []
      = if i = j then f (buckets.getD j []) else buckets.getD j [] := by
  simp only [getD_eq_getElem?_getD, getElem?_modify]
  cases hj : buckets[j]? with
  | none =>
    split_ifs with heq
    · subst heq
      cases hnil with
      | inl h => simp [h]
      | inr h => simp [getElem?_eq_getElem h] at hj
    · rfl
  | some chain => split_ifs <;> rfl

theorem mem_flatten_of_chain {i : Nat} {c : α}
    (hc : c ∈ buckets.getD i [])
    : c ∈ buckets.flatten := by
  rw [getD_eq_getElem?_getD] at hc
  cases hi : buckets[i]? with
  | none => simp [hi] at hc
  | some chain =>
    rw [hi] at hc
    exact mem_flatten.mpr ⟨chain, mem_of_getElem? hi, hc⟩

def InSlot (key : α → K) (slot : K → Nat) (buckets : List (List α)) : Prop :=
  ∀ i, ∀ c ∈ buckets.getD i [], slot (key c) = i

section Slots

variable {key : α → K} {slot : K → Nat}

theorem inSlot_replicate (n : Nat)
    : InSlot key slot (replicate n []) := by
  intro i c hc
  rw [getD_eq_getElem?_getD, getElem?_replicate] at hc
  split_ifs at hc <;> simp at hc

section

variable (h : InSlot key slot buckets)

include h

theorem InSlot.modify {i : Nat}
    (hi : i < buckets.length) {f : List α → List α}
    (hf : ∀ c ∈ f (buckets.getD i []), c ∈ buckets.getD i [] ∨ slot (key c) = i)
    : InSlot key slot (buckets.modify i f) := by
  intro j c hc
  rw [getD_modify _ _ _ _ (.inr hi)] at hc
  split_ifs at hc with heq
  · subst heq
    cases hf c hc with
    | inl hmem => exact h i c hmem
    | inr hslot => exact hslot
  · exact h j c hc

theorem InSlot.mem_chain {c : α}
    : c ∈ buckets.flatten ↔ c ∈ buckets.getD (slot (key c)) [] := by
  constructor
  · intro hc
    obtain ⟨chain, hchain, hmem⟩ := mem_flatten.mp hc
    obtain ⟨i, hi, rfl⟩ := mem_iff_getElem.mp hchain
    have hget : buckets.getD i [] = buckets[i] := by
      simp [getD_eq_getElem?_getD, hi]
    rw [h i c (hget ▸ hmem), hget]
    exact hmem
  · exact mem_flatten_of_chain

theorem InSlot.any_chain {k : K}
    {p : α → Bool} (hp : ∀ c, p c = true ↔ key c = k)
    : (buckets.getD (slot k) []).any p = true ↔ k ∈ buckets.flatten.map key := by
  simp only [any_eq_true, mem_map, hp]
  constructor
  · intro ⟨c, hc, hkey⟩
    exact ⟨c, h.mem_chain.mpr (by rwa [hkey]), hkey⟩
  · intro ⟨c, hc, hkey⟩
    exact ⟨c, by simpa [hkey] using h.mem_chain.mp hc, hkey⟩

end

end Slots

/-- Changing one chain changes that stretch of the items. -/
theorem flatten_modify (buckets : List (List α)) {i : Nat} (hi : i < buckets.length)
    (f : List α → List α)
    : ∃ before after, buckets.flatten = before ++ buckets.getD i [] ++ after
      ∧ (buckets.modify i f).flatten = before ++ f (buckets.getD i []) ++ after := by
  induction buckets generalizing i with
  | nil => cases hi
  | cons chain rest ih =>
    cases i with
    | zero => exact ⟨[], rest.flatten, by simp, by simp⟩
    | succ i =>
      obtain ⟨before, after, hold, hnew⟩ := ih (Nat.lt_of_succ_lt_succ hi)
      refine ⟨chain ++ before, after, ?_, ?_⟩
      · simp only [flatten_cons, hold, getD_cons_succ, append_assoc]
      · simp only [modify_succ_cons, flatten_cons, hnew, getD_cons_succ,
          append_assoc]

theorem flatten_modify_cons (buckets : List (List α)) {i : Nat} (hi : i < buckets.length) (c : α)
    : (buckets.modify i (c :: ·)).flatten.Perm (c :: buckets.flatten) := by
  obtain ⟨before, after, hold, hnew⟩ := flatten_modify buckets hi (c :: ·)
  rw [hold, hnew]
  simp only [append_assoc, cons_append]
  exact perm_middle

theorem map_flatten_modify (buckets : List (List α)) {i : Nat} (hi : i < buckets.length)
    {f : List α → List α} {g : α → β}
    (hf : (f (buckets.getD i [])).map g = (buckets.getD i []).map g)
    : (buckets.modify i f).flatten.map g = buckets.flatten.map g := by
  obtain ⟨before, after, hold, hnew⟩ := flatten_modify buckets hi f
  rw [hold, hnew]
  simp only [map_append, hf]

def placeAll (key : α → K) (slot : K → Nat) (items : List α) (buckets : List (List α))
    : List (List α) :=
  items.foldl (fun buckets c => buckets.modify (slot (key c)) (c :: ·)) buckets

section Rehash

variable {key : α → K} {slot : K → Nat}

@[simp] theorem length_placeAll (items : List α) (buckets : List (List α))
    : (placeAll key slot items buckets).length = buckets.length := by
  induction items generalizing buckets with
  | nil => rfl
  | cons c rest ih => simpa [placeAll] using ih (buckets.modify (slot (key c)) (c :: ·))

theorem placeAll_spec (items : List α)
    (hslot : ∀ k, slot k < buckets.length) (h : InSlot key slot buckets)
    : InSlot key slot (placeAll key slot items buckets)
      ∧ (placeAll key slot items buckets).flatten.Perm (items ++ buckets.flatten) := by
  induction items generalizing buckets with
  | nil => exact ⟨h, .refl _⟩
  | cons c rest ih =>
    have hplaced : InSlot key slot (buckets.modify (slot (key c)) (c :: ·)) :=
      h.modify (hslot _) fun d hd => (mem_cons.mp hd).elim (fun heq => .inr (heq ▸ rfl)) .inl
    obtain ⟨hin, hperm⟩ := ih (by simpa using hslot) hplaced
    refine ⟨hin, hperm.trans ?_⟩
    exact ((flatten_modify_cons buckets (hslot _) c).append_left rest).trans perm_middle

end Rehash

end Lib.Buckets
