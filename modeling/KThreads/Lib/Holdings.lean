import Mathlib

/-!
# What the positions of a table hold

A table has `n` positions, each empty or with a value. The values that it holds form a
multiset; a value that is put into an empty position, or taken out of one, is added to it or
removed from it.
-/

namespace KThreads

/-- The values at the positions below `n`. -/
def held {β : Type*} (n : ℕ) (f : ℕ → Option β) : Multiset β := ↑((List.range n).filterMap f)

namespace Holdings

variable {β : Type*} {n i j : ℕ} {f g : ℕ → Option β} {b : β}

theorem held_succ : held (n + 1) f = held n f + ↑(f n).toList := by
  simp only [held, List.range_succ, List.filterMap_append, ← Multiset.coe_add]
  cases h : f n with
  | none => simp [h]
  | some b => simp [h]

theorem mem_held : b ∈ held n f ↔ ∃ i < n, f i = some b := by
  simp [held, List.mem_filterMap]

theorem held_congr (h : ∀ i < n, g i = f i) : held n g = held n f := by
  unfold held
  rw [List.filterMap_congr fun i hi => h i (List.mem_range.mp hi)]

theorem card_held_le : (held n f).card ≤ n := by
  have h := List.length_filterMap_le f (List.range n)
  rwa [List.length_range] at h

theorem card_held_eq (h : ∀ i < n, (f i).isSome) : (held n f).card = n := by
  induction n with
  | zero => rfl
  | succ n ih =>
    obtain ⟨b, hb⟩ := Option.isSome_iff_exists.mp (h n n.lt_succ_self)
    rw [held_succ, Multiset.card_add, ih fun i hi => h i (hi.trans n.lt_succ_self), hb]
    rfl

theorem held_none (h : ∀ i < n, f i = none) : held n f = 0 :=
  Multiset.eq_zero_of_forall_notMem fun b hb => by
    obtain ⟨i, hi, hb⟩ := mem_held.mp hb
    simp [h i hi] at hb

theorem held_put (hi : i < n) (hother : ∀ j, j ≠ i → g j = f j) (hf : f i = none)
    (hg : g i = some b) : held n g = b ::ₘ held n f := by
  induction n with
  | zero => exact absurd hi (Nat.not_lt_zero i)
  | succ n ih =>
    rw [held_succ, held_succ]
    by_cases hin : i = n
    · subst hin
      have hlow : held i g = held i f := held_congr fun j hj => hother j hj.ne
      simp [hlow, hf, hg, ← Multiset.singleton_add, Multiset.add_comm]
    · rw [ih (by omega), hother n (Ne.symm hin), Multiset.cons_add]

theorem eq_of_nodup (hnd : (held n f).Nodup) (hi : i < n) (hj : j < n) (hfi : f i = some b)
    (hfj : f j = some b) : i = j := by
  by_contra hne
  -- without the position `i` the table still holds the value, at `j`
  have hput : held n f = b ::ₘ held n (Function.update f i none) :=
    held_put hi (fun k hk => (Function.update_of_ne hk _ _).symm) (Function.update_self ..) hfi
  have hmem : b ∈ held n (Function.update f i none) :=
    mem_held.mpr ⟨j, hj, by rw [Function.update_of_ne (Ne.symm hne), hfj]⟩
  rw [hput] at hnd
  exact (Multiset.nodup_cons.mp hnd).1 hmem

end Holdings

end KThreads
