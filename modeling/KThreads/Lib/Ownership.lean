import Mathlib

/-!
# Blocks that are referred to once

Positions refer to blocks, and a map says which blocks are in use. No block has two positions
that refer to it, and a block that has one is in use; the map covers no more when each block
in use has a position. An allocation and a release change both.
-/

namespace KThreads

open Function (update update_of_ne update_self)

variable {π β : Type*}

/-- The blocks with a reference have the property `D` and are in use, and no two positions
refer to the same block. -/
structure Owned (ref : π → Option β) (used : β → Bool) (D : β → Prop) : Prop where
  inj : ∀ p q b, ref p = some b → ref q = some b → p = q
  data : ∀ p b, ref p = some b → D b
  used : ∀ p b, ref p = some b → used b = true

/-- The blocks with the property `D` that are in use have a reference. -/
def Covered (ref : π → Option β) (used : β → Bool) (D : β → Prop) : Prop :=
  ∀ b, D b → used b = true → ∃ p, ref p = some b

variable {ref ref' : π → Option β} {used used' : β → Bool} {D : β → Prop} {p : π} {b : β}

theorem update_ref [DecidableEq π] {q : π} {c : β} :
    update ref p (some b) q = some c ↔ (q = p ∧ c = b) ∨ (q ≠ p ∧ ref q = some c) := by
  by_cases hq : q = p
  · simp [hq, eq_comm]
  · simp [hq]

namespace Owned

theorem existsUnique (h : Owned ref used D) (hcov : Covered ref used D) (hb : D b) :
    used b = true ↔ ∃! p, ref p = some b := by
  constructor
  · intro hused
    obtain ⟨p, hp⟩ := hcov b hb hused
    exact ⟨p, hp, fun q hq => h.inj q p b hq hp⟩
  · rintro ⟨p, hp, -⟩
    exact h.used p b hp

theorem fresh (h : Owned ref used D) (hb : used b = false) : ref p ≠ some b := by
  intro hp
  simp [h.used p b hp] at hb

theorem mono (h : Owned ref used D) (hsub : ∀ p b, ref' p = some b → ref p = some b) :
    Owned ref' used D where
  inj p q b hp hq := h.inj p q b (hsub p b hp) (hsub q b hq)
  data p b hp := h.data p b (hsub p b hp)
  used p b hp := h.used p b (hsub p b hp)

theorem assign [DecidableEq π] [DecidableEq β] (h : Owned ref used D)
    (hb : used b = false) (hD : D b) :
    Owned (update ref p (some b)) (update used b true) D := by
  constructor
  · intro q r c hq hr
    rcases update_ref.mp hq with ⟨rfl, rfl⟩ | ⟨-, hq'⟩
    · rcases update_ref.mp hr with ⟨rfl, -⟩ | ⟨-, hr'⟩
      · rfl
      · exact absurd hr' (h.fresh hb)
    · rcases update_ref.mp hr with ⟨-, rfl⟩ | ⟨-, hr'⟩
      · exact absurd hq' (h.fresh hb)
      · exact h.inj q r c hq' hr'
  · intro q c hq
    rcases update_ref.mp hq with ⟨-, rfl⟩ | ⟨-, hq⟩
    · exact hD
    · exact h.data q c hq
  · intro q c hq
    by_cases hcb : c = b
    · rw [hcb, update_self]
    · rw [update_of_ne hcb]
      rcases update_ref.mp hq with ⟨-, rfl⟩ | ⟨-, hq⟩
      · exact absurd rfl hcb
      · exact h.used q c hq

theorem release {S : π → Prop} (h : Owned ref used D) (hin : ∀ p, S p → ref' p = none)
    (hout : ∀ p, ¬S p → ref' p = ref p)
    (hused : ∀ b, used b = true → (∀ p, S p → ref p ≠ some b) → used' b = true) :
    Owned ref' used' D := by
  have hold : ∀ p b, ref' p = some b → ¬S p ∧ ref p = some b := by
    intro p b hp
    have hS : ¬S p := fun hS => by simp [hin p hS] at hp
    exact ⟨hS, hout p hS ▸ hp⟩
  constructor
  · exact fun p q b hp hq => h.inj p q b (hold p b hp).2 (hold q b hq).2
  · exact fun p b hp => h.data p b (hold p b hp).2
  · intro p b hp
    obtain ⟨hS, hp⟩ := hold p b hp
    exact hused b (h.used p b hp) fun q hq hqb => hS (h.inj q p b hqb hp ▸ hq)

end Owned

namespace Covered

theorem assign [DecidableEq π] [DecidableEq β] (h : Covered ref used D) (hp : ref p = none) :
    Covered (update ref p (some b)) (update used b true) D := by
  intro c hc hused
  by_cases hcb : c = b
  · exact ⟨p, by rw [hcb, update_self]⟩
  · rw [update_of_ne hcb] at hused
    obtain ⟨q, hq⟩ := h c hc hused
    refine ⟨q, update_ref.mpr (.inr ⟨?_, hq⟩)⟩
    rintro rfl
    simp [hp] at hq

theorem release {S : π → Prop} (h : Covered ref used D) (hout : ∀ p, ¬S p → ref' p = ref p)
    (hused : ∀ b, used' b = true → used b = true ∧ ∀ p, S p → ref p ≠ some b) :
    Covered ref' used' D := by
  intro b hb hb'
  obtain ⟨hold, hnone⟩ := hused b hb'
  obtain ⟨p, hp⟩ := h b hb hold
  have hS : ¬S p := fun hS => hnone p hS hp
  exact ⟨p, by rw [hout p hS, hp]⟩

end Covered

end KThreads
