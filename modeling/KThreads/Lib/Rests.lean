import Mathlib

/-!
# Words at the front of a text

A matcher that works from the left takes a word of a language off the front of a text and goes
on with the rest. The rests that a language leaves are computed along the operations of
languages; for a Kleene star they are those of no round or of one round and the star again.
-/

namespace KThreads.Rests

open Computability

variable {α : Type*} {L M : Language α} {text v : List α} {p : α → Prop} {c : α}

/-- What is left of a text after a word of the language. -/
def rests (L : Language α) (text : List α) : Set (List α) := {v | ∃ w ∈ L, w ++ v = text}

/-- The words of one symbol with a property. -/
def symbols (p : α → Prop) : Language α := {w | ∃ c, p c ∧ w = [c]}

theorem mem_rests : v ∈ rests L text ↔ ∃ w ∈ L, w ++ v = text := Iff.rfl

theorem mem_rests_one : v ∈ rests (1 : Language α) text ↔ v = text := by
  simp [mem_rests, Language.mem_one]

theorem mem_rests_mul : v ∈ rests (L * M) text ↔ ∃ u ∈ rests L text, v ∈ rests M u := by
  constructor
  · rintro ⟨w, hw, rfl⟩
    obtain ⟨a, ha, b, hb, rfl⟩ := Language.mem_mul.mp hw
    exact ⟨b ++ v, ⟨a, ha, (List.append_assoc a b v).symm⟩, b, hb, rfl⟩
  · rintro ⟨u, ⟨a, ha, rfl⟩, b, hb, rfl⟩
    exact ⟨a ++ b, Language.append_mem_mul ha hb, List.append_assoc a b v⟩

theorem mem_rests_add : v ∈ rests (L + M) text ↔ v ∈ rests L text ∨ v ∈ rests M text := by
  simp only [mem_rests, Language.mem_add, or_and_right, exists_or]

theorem mem_rests_kstar :
    v ∈ rests (L∗) text ↔ v = text ∨ ∃ u ∈ rests L text, v ∈ rests (L∗) u := by
  rw [← Language.one_add_self_mul_kstar_eq_kstar, mem_rests_add, mem_rests_one, mem_rests_mul,
    Language.one_add_self_mul_kstar_eq_kstar]

theorem not_mem_rests_symbols_nil : v ∉ rests (symbols p) [] := by
  rintro ⟨w, ⟨c, -, rfl⟩, h⟩
  exact List.cons_ne_nil c v h

theorem mem_rests_symbols_cons : v ∈ rests (symbols p) (c :: text) ↔ p c ∧ v = text := by
  constructor
  · rintro ⟨w, ⟨d, hd, rfl⟩, h⟩
    obtain ⟨rfl, rfl⟩ := List.cons.inj h
    exact ⟨hd, rfl⟩
  · rintro ⟨hc, rfl⟩
    exact ⟨[c], ⟨c, hc, rfl⟩, rfl⟩

end KThreads.Rests
