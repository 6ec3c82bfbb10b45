import Mathlib

/-!
# A map in a list of slots

A slot is free, or it holds a key and its value. The value of a key is that of the first slot with
the key. As long as no key has two slots, a slot that is filled, in its place or at the end of the
list, or that is freed changes the value of one key.
-/

namespace KThreads.SlotMap

open Function (update update_of_ne update_self)

variable {α β : Type*} [DecidableEq α]

/-- A slot holds a key. -/
def holds (a : α) (o : Option (α × β)) : Bool := o.any fun p => decide (p.1 = a)

/-- The first slot with a key. -/
def index (l : List (Option (α × β))) (a : α) : Option ℕ := l.findIdx? (holds a)

/-- The value of a key. -/
def get (l : List (Option (α × β))) (a : α) : Option β :=
  (l.find? (holds a)).bind fun o => o.map Prod.snd

/-- No key has two slots. -/
def Distinct (l : List (Option (α × β))) : Prop :=
  ∀ (i j : ℕ) (p q : α × β), l[i]? = some (some p) → l[j]? = some (some q) → p.1 = q.1 → i = j

variable {l : List (Option (α × β))} {a c : α} {b : β} {i : ℕ} {o : Option (α × β)}

theorem holds_iff : holds a o = true ↔ ∃ b, o = some (a, b) := by
  rw [holds, Option.any_eq_true]
  constructor
  · rintro ⟨⟨a', b⟩, rfl, ha⟩
    obtain rfl : a' = a := of_decide_eq_true ha
    exact ⟨b, rfl⟩
  · rintro ⟨b, rfl⟩
    exact ⟨_, rfl, decide_eq_true rfl⟩

theorem get_eq_none_iff : get l a = none ↔ ∀ b, some (a, b) ∉ l := by
  rw [get]
  cases hfind : l.find? (holds a) with
  | none =>
    refine ⟨fun _ b hb => ?_, fun _ => rfl⟩
    exact List.find?_eq_none.mp hfind _ hb (holds_iff.mpr ⟨b, rfl⟩)
  | some o =>
    obtain ⟨b, rfl⟩ := holds_iff.mp (List.find?_some hfind)
    refine ⟨nofun, fun hno => absurd (List.mem_of_find?_eq_some hfind) (hno b)⟩

theorem Distinct.get_eq_some_iff (h : Distinct l) : get l a = some b ↔ some (a, b) ∈ l := by
  constructor
  · intro hget
    obtain ⟨o, hfind, hb⟩ := Option.bind_eq_some_iff.mp hget
    obtain ⟨b', rfl⟩ := holds_iff.mp (List.find?_some hfind)
    obtain rfl : b' = b := Option.some.inj hb
    exact List.mem_of_find?_eq_some hfind
  · intro hmem
    cases hget : get l a with
    | none => exact absurd hmem (get_eq_none_iff.mp hget b)
    | some b' =>
      obtain ⟨o, hfind, hb⟩ := Option.bind_eq_some_iff.mp hget
      obtain ⟨b'', rfl⟩ := holds_iff.mp (List.find?_some hfind)
      obtain rfl : b'' = b' := Option.some.inj hb
      obtain ⟨i, hi⟩ := List.mem_iff_getElem?.mp hmem
      obtain ⟨j, hj⟩ := List.mem_iff_getElem?.mp (List.mem_of_find?_eq_some hfind)
      obtain rfl := h i j _ _ hi hj rfl
      rw [hi] at hj
      cases hj
      rfl

theorem getElem?_of_index (h : index l a = some i) : ∃ b, l[i]? = some (some (a, b)) ∧ get l a = some b := by
  obtain ⟨hlt, hholds, hbefore⟩ := List.findIdx?_eq_some_iff_getElem.mp h
  obtain ⟨b, hb⟩ := holds_iff.mp hholds
  refine ⟨b, by rw [List.getElem?_eq_getElem hlt, hb], ?_⟩
  have hfind : l.find? (holds a) = some l[i] := by
    rw [List.find?_eq_some_iff_getElem]
    exact ⟨hholds, i, hlt, rfl, fun j hj => by simpa using hbefore j hj⟩
  rw [get, hfind, hb]
  rfl

theorem index_eq_none_iff : index l a = none ↔ get l a = none := by
  rw [index, List.findIdx?_eq_none_iff, get_eq_none_iff]
  constructor
  · intro h b hb
    have hno := h _ hb
    rw [holds_iff.mpr ⟨b, rfl⟩] at hno
    cases hno
  · intro h o ho
    by_contra hyes
    obtain ⟨b, rfl⟩ := holds_iff.mp (by simpa using hyes)
    exact h b ho

theorem Distinct.get_eq (h : Distinct l) {m : α → Option β}
    (hm : ∀ a b, some (a, b) ∈ l ↔ m a = some b) : get l = m := by
  funext a
  apply Option.ext
  intro b
  rw [h.get_eq_some_iff, hm]

section

variable {l' : List (Option (α × β))} (hput : ∀ j, l'[j]? = if j = i then some o else l[j]?)
include hput

omit [DecidableEq α] in
theorem getElem?_put {j : ℕ} {p : α × β} (h : l'[j]? = some (some p)) :
    (j = i ∧ o = some p) ∨ (j ≠ i ∧ l[j]? = some (some p)) := by
  rw [hput] at h
  split at h
  · next hj => exact .inl ⟨hj, Option.some.inj h⟩
  · next hj => exact .inr ⟨hj, h⟩

theorem Distinct.fill (h : Distinct l) (ho : o = some (a, b)) (hfree : ∀ p, l[i]? ≠ some (some p))
    (habsent : get l a = none) : Distinct l' ∧ get l' = update (get l) a (some b) := by
  subst ho
  have hnew : ∀ (j : ℕ) (q : α × β), l[j]? = some (some q) → q.1 ≠ a := by
    rintro j ⟨a', b'⟩ hj rfl
    exact get_eq_none_iff.mp habsent b' (List.mem_of_getElem? hj)
  have hdistinct : Distinct l' := by
    intro j k p q hj hk hpq
    rcases getElem?_put hput hj with ⟨rfl, hp⟩ | ⟨-, hj'⟩ <;>
      rcases getElem?_put hput hk with ⟨rfl, hq⟩ | ⟨-, hk'⟩
    · rfl
    · cases hp
      exact absurd hpq.symm (hnew k q hk')
    · cases hq
      exact absurd hpq (hnew j p hj')
    · exact h j k p q hj' hk' hpq
  refine ⟨hdistinct, hdistinct.get_eq fun c d => ?_⟩
  constructor
  · intro hmem
    obtain ⟨j, hj⟩ := List.mem_iff_getElem?.mp hmem
    rcases getElem?_put hput hj with ⟨-, hcd⟩ | ⟨-, hj'⟩
    · cases hcd
      exact update_self ..
    · rw [update_of_ne (hnew j _ hj')]
      exact h.get_eq_some_iff.mpr (List.mem_of_getElem? hj')
  · intro hget
    by_cases hc : c = a
    · subst hc
      rw [update_self] at hget
      cases hget
      exact List.mem_of_getElem? ((hput i).trans (if_pos rfl))
    · rw [update_of_ne hc, h.get_eq_some_iff] at hget
      obtain ⟨j, hj⟩ := List.mem_iff_getElem?.mp hget
      have hji : j ≠ i := by
        rintro rfl
        exact hfree _ hj
      exact List.mem_of_getElem? (((hput j).trans (if_neg hji)).trans hj)

theorem Distinct.free (h : Distinct l) (ho : o = none) (hheld : l[i]? = some (some (a, b))) :
    Distinct l' ∧ get l' = update (get l) a none := by
  subst ho
  have hold : ∀ (j : ℕ) (p : α × β), l'[j]? = some (some p) → j ≠ i ∧ l[j]? = some (some p) := by
    intro j p hj
    rcases getElem?_put hput hj with ⟨-, hno⟩ | hj'
    · cases hno
    · exact hj'
  have hdistinct : Distinct l' := fun j k p q hj hk =>
    h j k p q (hold j p hj).2 (hold k q hk).2
  refine ⟨hdistinct, hdistinct.get_eq fun c d => ?_⟩
  constructor
  · intro hmem
    obtain ⟨j, hj⟩ := List.mem_iff_getElem?.mp hmem
    obtain ⟨hji, hj'⟩ := hold j _ hj
    have hc : c ≠ a := by
      rintro rfl
      exact hji (h j i _ _ hj' hheld rfl)
    rw [update_of_ne hc]
    exact h.get_eq_some_iff.mpr (List.mem_of_getElem? hj')
  · intro hget
    by_cases hc : c = a
    · subst hc
      rw [update_self] at hget
      cases hget
    · rw [update_of_ne hc, h.get_eq_some_iff] at hget
      obtain ⟨j, hj⟩ := List.mem_iff_getElem?.mp hget
      have hji : j ≠ i := by
        rintro rfl
        rw [hheld] at hj
        cases hj
        exact hc rfl
      exact List.mem_of_getElem? (((hput j).trans (if_neg hji)).trans hj)

end

end KThreads.SlotMap
