import Mathlib.Tactic.Common

/-! Comparison functions that are total preorders on part of a type, because they compare keys. -/

namespace Lib

variable {α κ : Type}

/-- On the items that satisfy `ok`, the comparison `cmp` is a total preorder: `a` is at most `b`
when `cmp a b` is `lt` or `eq`.
-/
structure TotalPreorderOn (ok : α → Prop) (cmp : α → α → Ordering) : Prop where
  refl : ∀ a, ok a → cmp a a = .eq
  swap : ∀ a b, ok a → ok b → cmp b a = (cmp a b).swap
  antisymm : ∀ a b, ok a → ok b → (cmp a b).isLE → (cmp b a).isLE → cmp a b = .eq
  total : ∀ a b, ok a → ok b → (cmp a b).isLE ∨ (cmp b a).isLE
  trans : ∀ a b c, ok a → ok b → ok c → (cmp a b).isLE → (cmp b c).isLE → (cmp a c).isLE

theorem TotalPreorderOn.of_key {ok : α → Prop} {cmp : α → α → Ordering} (key : α → κ)
    (cmpKey : κ → κ → Ordering) [Std.TransCmp cmpKey]
    (h : ∀ a b, ok a → ok b → cmp a b = cmpKey (key a) (key b)) : TotalPreorderOn ok cmp where
  refl a ha := by
    rw [h a a ha ha]
    exact Std.ReflCmp.compare_self
  swap a b ha hb := by
    rw [h b a hb ha, h a b ha hb]
    exact Std.OrientedCmp.eq_swap
  antisymm a b ha hb hab hba := by
    rw [h a b ha hb] at hab ⊢
    rw [h b a hb ha] at hba
    exact Std.OrientedCmp.isLE_antisymm hab hba
  total a b ha hb := by
    have hswap : cmpKey (key b) (key a) = (cmpKey (key a) (key b)).swap := Std.OrientedCmp.eq_swap
    rw [h a b ha hb, h b a hb ha, hswap]
    cases cmpKey (key a) (key b) <;> simp
  trans a b c ha hb hc hab hbc := by
    rw [h a b ha hb] at hab
    rw [h b c hb hc] at hbc
    rw [h a c ha hc]
    exact Std.TransCmp.isLE_trans hab hbc

end Lib
