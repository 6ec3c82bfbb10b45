import Mathlib

/-!
# Counting under a change of one element

The number of elements of a finite type with a property, after the property has
changed at a single element. These are the rules for counters that are kept
alongside a table.
-/

namespace KThreads.Count

variable {ι : Type*} [Fintype ι] {p q : ι → Prop} [DecidablePred p] [DecidablePred q]

section

variable [DecidableEq ι]

theorem card_filter_gain {x : ι} (hp : ¬p x) (hq : q x) (hrest : ∀ y, y ≠ x → (q y ↔ p y)) :
    (Finset.univ.filter q).card = (Finset.univ.filter p).card + 1 := by
  have hinsert : Finset.univ.filter q = insert x (Finset.univ.filter p) := by
    ext y
    by_cases hy : y = x
    · simp [hy, hq]
    · simp [hy, hrest y hy]
  rw [hinsert, Finset.card_insert_of_notMem (by simp [hp])]

theorem card_filter_loss {x : ι} (hp : p x) (hq : ¬q x) (hrest : ∀ y, y ≠ x → (q y ↔ p y)) :
    (Finset.univ.filter q).card = (Finset.univ.filter p).card - 1 := by
  have h := card_filter_gain hq hp fun y hy => (hrest y hy).symm
  omega

end

theorem card_filter_single {x : ι} (hx : p x) (hrest : ∀ y, p y → y = x) :
    (Finset.univ.filter p).card = 1 := by
  rw [Finset.card_eq_one]
  refine ⟨x, ?_⟩
  ext y
  simp only [Finset.mem_filter, Finset.mem_univ, true_and, Finset.mem_singleton]
  exact ⟨hrest y, fun hy => hy ▸ hx⟩

theorem card_filter_none (h : ∀ y, ¬p y) : (Finset.univ.filter p).card = 0 := by
  rw [Finset.card_eq_zero, Finset.filter_eq_empty_iff]
  exact fun y _ => h y

end KThreads.Count
