import Mathlib

/-!
# Roots that own the blocks of a store

A store has blocks with contents and a list of free blocks. A root owns blocks, which depend on
the contents of these blocks only. A step may change the blocks of its roots, the free ones and
those it has in hand, and it keeps all of them; then it neither changes nor takes the blocks of
any other root.
-/

namespace KThreads

/-- Blocks with contents, some of them free. -/
structure Store (π β : Type*) where
  page : π → β
  free : List π

namespace Store

variable {π β ρ : Type*}

/-- What a root owns is determined by the contents of what it owns. -/
def Local (own : (π → β) → ρ → Multiset π) : Prop :=
  ∀ c c' r, (∀ q ∈ own c r, c' q = c q) → own c' r = own c r

/-- The free blocks, the blocks of the roots `R`, and the blocks `x` in hand. -/
def stock (own : (π → β) → ρ → Multiset π) (s : Store π β) (R : Multiset ρ) (x : Multiset π) :
    Multiset π :=
  ↑s.free + R.bind (own s.page) + x

/-- A step keeps the blocks of its stock and changes no others. -/
structure Keeps (own : (π → β) → ρ → Multiset π) (s : Store π β) (R : Multiset ρ) (x : Multiset π)
    (s' : Store π β) (R' : Multiset ρ) (x' : Multiset π) : Prop where
  stock_eq : s'.stock own R' x' = s.stock own R x
  frame : ∀ q, q ∉ s.stock own R x → s'.page q = s.page q

variable {own : (π → β) → ρ → Multiset π} {s s' s'' : Store π β} {R R' R'' Q : Multiset ρ}
  {x x' x'' y : Multiset π} {p : π} {r : ρ}

theorem Keeps.refl : Keeps own s R x s R x := ⟨rfl, fun _ _ => rfl⟩

theorem Keeps.trans (h : Keeps own s R x s' R' x') (h' : Keeps own s' R' x' s'' R'' x'') :
    Keeps own s R x s'' R'' x'' where
  stock_eq := h'.stock_eq.trans h.stock_eq
  frame q hq := (h'.frame q (h.stock_eq ▸ hq)).trans (h.frame q hq)

theorem stock_add : s.stock own (R + Q) (x + y) = s.stock own R x + (Q.bind (own s.page) + y) := by
  simp only [stock, Multiset.add_bind]
  abel

theorem mem_stock_free (h : p ∈ s.free) : p ∈ s.stock own R x := by
  simp [stock, h]

theorem mem_stock_hand (h : p ∈ x) : p ∈ s.stock own R x := by
  simp [stock, h]

theorem mem_stock_own (hr : r ∈ R) (h : p ∈ own s.page r) : p ∈ s.stock own R x := by
  simp only [stock, Multiset.mem_add, Multiset.mem_bind]
  exact .inl (.inr ⟨r, hr, h⟩)

section

variable (hnd : (s.stock own (R + Q) (x + y)).Nodup)

include hnd

theorem not_mem_stock (hp : p ∈ Q.bind (own s.page) + y) : p ∉ s.stock own R x := by
  rw [stock_add] at hnd
  exact fun hmem => (Multiset.disjoint_left.mp (Multiset.nodup_add.mp hnd).2.2) hmem hp

theorem Keeps.page_own (h : Keeps own s R x s' R' x') (hr : r ∈ Q) (hp : p ∈ own s.page r) :
    s'.page p = s.page p :=
  h.frame p (not_mem_stock hnd (Multiset.mem_add.mpr (.inl (Multiset.mem_bind.mpr ⟨r, hr, hp⟩))))

theorem Keeps.own_eq (hloc : Local own) (h : Keeps own s R x s' R' x') (hr : r ∈ Q) :
    own s'.page r = own s.page r :=
  hloc _ _ r fun _ hq => h.page_own hnd hr hq

theorem Keeps.add (hloc : Local own) (h : Keeps own s R x s' R' x') :
    Keeps own s (R + Q) (x + y) s' (R' + Q) (x' + y) where
  stock_eq := by
    have hother : Q.bind (own s'.page) = Q.bind (own s.page) :=
      Multiset.bind_congr fun r hr => h.own_eq hnd hloc hr
    rw [stock_add, stock_add, h.stock_eq, hother]
  frame q hq := h.frame q fun hmem => hq (by rw [stock_add]; exact Multiset.mem_add.mpr (.inl hmem))

end

end Store

end KThreads
