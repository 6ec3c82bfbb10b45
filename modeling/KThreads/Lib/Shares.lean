import Mathlib

/-!
# Shares of a resource

A number is kept for each element of a finite type, and their sum is what has been set
aside. These are the rules for a step that changes the share of one element.
-/

namespace KThreads.Shares

variable {ι : Type*} [Fintype ι]

theorem sum_change [DecidableEq ι] {f g : ι → ℕ} {x : ι} (h : ∀ y, y ≠ x → g y = f y) :
    ∑ y, g y + f x = ∑ y, f y + g x := by
  rw [← Finset.add_sum_erase _ f (Finset.mem_univ x), ← Finset.add_sum_erase _ g (Finset.mem_univ x)]
  have hrest : ∑ y ∈ Finset.univ.erase x, g y = ∑ y ∈ Finset.univ.erase x, f y :=
    Finset.sum_congr rfl fun y hy => h y (Finset.ne_of_mem_erase hy)
  omega

theorem sum_ite_le {p : ι → Prop} [DecidablePred p] {f : ι → ℕ} {n : ℕ} (h : ∀ y, p y → f y ≤ n) :
    (∑ y, if p y then f y else 0) ≤ (Finset.univ.filter p).card * n := by
  rw [← Finset.sum_filter]
  exact Finset.sum_le_card_nsmul _ _ n fun y hy => h y (Finset.mem_filter.mp hy).2

end KThreads.Shares
