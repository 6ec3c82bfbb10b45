import Mathlib

/-!
# Circular lists

Nodes with a pointer to the next one. A route is what the pointers lead through from one node to
another; a circular list is a route from a node back to it, and it is one from each of its nodes.
A search that follows the pointers finds the first node that it looks for.
-/

namespace KThreads.Circle

variable {α : Type*} {next next' : α → α} {a b c x y : α} {xs ys : List α}

/-- The pointers lead from `a` through the nodes `xs` to `b`. -/
def Route (next : α → α) : α → List α → α → Prop
  | a, [], b => a = b
  | a, x :: xs, b => a = x ∧ Route next (next x) xs b

theorem route_append :
    Route next a (xs ++ ys) c ↔ ∃ b, Route next a xs b ∧ Route next b ys c := by
  induction xs generalizing a with
  | nil => exact ⟨fun h => ⟨a, rfl, h⟩, fun ⟨_, hab, h⟩ => hab ▸ h⟩
  | cons x xs ih =>
    simp only [List.cons_append, Route, ih]
    constructor
    · rintro ⟨hx, b, h₁, h₂⟩
      exact ⟨b, ⟨hx, h₁⟩, h₂⟩
    · rintro ⟨b, ⟨hx, h₁⟩, h₂⟩
      exact ⟨hx, b, h₁, h₂⟩

theorem Route.congr (h : Route next a xs b) (hnext : ∀ x ∈ xs, next' x = next x) :
    Route next' a xs b := by
  induction xs generalizing a with
  | nil => exact h
  | cons x xs ih =>
    refine ⟨h.1, ?_⟩
    rw [hnext x List.mem_cons_self]
    exact ih h.2 fun y hy => hnext y (List.mem_cons_of_mem x hy)

theorem Route.split (h : Route next a (xs ++ x :: ys) b) :
    Route next a xs x ∧ Route next (next x) ys b := by
  obtain ⟨_, h₁, rfl, h₂⟩ := route_append.mp h
  exact ⟨h₁, h₂⟩

theorem Route.join (h₁ : Route next a xs x) (h₂ : Route next (next x) ys b) :
    Route next a (xs ++ x :: ys) b := route_append.mpr ⟨x, h₁, rfl, h₂⟩

theorem Route.rotate (h : Route next a (xs ++ x :: ys) a) : Route next x (x :: (ys ++ xs)) x := by
  obtain ⟨h₁, h₂⟩ := h.split
  exact ⟨rfl, route_append.mpr ⟨a, h₂, h₁⟩⟩

theorem Route.map_next (h : Route next a (x :: xs) b) : (x :: xs).map next = xs ++ [b] := by
  induction xs generalizing a x with
  | nil =>
    have hb : next x = b := h.2
    rw [List.map_singleton, hb, List.nil_append]
  | cons y xs ih =>
    have hy : next x = y := h.2.1
    rw [List.map_cons, ih h.2, hy, List.cons_append]

theorem Route.next_inj (h : Route next a (a :: xs) a) (hnd : (a :: xs).Nodup) (hx : x ∈ a :: xs)
    (hy : y ∈ a :: xs) (heq : next x = next y) : x = y := by
  have hmap : ((a :: xs).map next).Nodup := by
    rw [h.map_next, List.nodup_append_comm]
    exact hnd
  exact List.inj_on_of_nodup_map hmap hx hy heq

/-- Follow the pointers to a node with the property. -/
def search (next : α → α) (stop : α → Bool) : ℕ → α → Option α
  | 0, _ => none
  | n + 1, p => if stop p then some p else search next stop n (next p)

variable {stop : α → Bool} {n : ℕ}

theorem search_route (h : Route next a (xs ++ y :: ys) b) (hxs : ∀ x ∈ xs, stop x = false)
    (hy : stop y = true) (hn : xs.length < n) : search next stop n a = some y := by
  induction xs generalizing a n with
  | nil =>
    obtain ⟨rfl, -⟩ := h
    cases n with
    | zero => exact absurd hn (Nat.not_lt_zero _)
    | succ n => rw [search, if_pos hy]
  | cons x xs ih =>
    obtain ⟨rfl, h⟩ := h
    cases n with
    | zero => exact absurd hn (Nat.not_lt_zero _)
    | succ n =>
      rw [search, hxs a List.mem_cons_self]
      exact ih h (fun x hx => hxs x (List.mem_cons_of_mem a hx)) (Nat.lt_of_succ_lt_succ hn)

theorem search_circle (h : Route next a xs a) (hc : c ∈ xs) (hy : y ∈ xs)
    (hstop : ∀ x ∈ xs, stop x = true ↔ x = y) (hn : xs.length ≤ n) :
    search next stop n c = some y := by
  obtain ⟨l, r, rfl⟩ := List.append_of_mem hc
  have hmem : ∀ x, x ∈ c :: (r ++ l) ↔ x ∈ l ++ c :: r := by
    intro x
    simp only [List.mem_append, List.mem_cons]
    constructor
    · rintro (hx | hx | hx)
      · exact .inr (.inl hx)
      · exact .inr (.inr hx)
      · exact .inl hx
    · rintro (hx | hx | hx)
      · exact .inr (.inr hx)
      · exact .inl hx
      · exact .inr (.inl hx)
  -- The first place of `y` on the way from `c`.
  obtain ⟨pre, post, hsplit, hfirst⟩ := List.eq_append_cons_of_mem ((hmem y).mpr hy)
  have hroute := h.rotate
  have hlen : (c :: (r ++ l)).length = (l ++ c :: r).length := by
    simp only [List.length_cons, List.length_append]
    omega
  rw [hsplit] at hroute hmem hlen
  refine search_route hroute (fun x hx => ?_) ((hstop y hy).mpr rfl) ?_
  · refine Bool.eq_false_iff.mpr fun hyes => ?_
    have hxy := (hstop x ((hmem x).mp (List.mem_append_left _ hx))).mp hyes
    exact hfirst (hxy ▸ hx)
  · rw [List.length_append, List.length_cons] at hlen
    omega

end KThreads.Circle
