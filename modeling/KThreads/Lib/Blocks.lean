import Mathlib

/-!
# Blocks of units

Memory is given out in blocks of units of a fixed width. Two blocks that lie side by side are one
block, and a block is cut into two, without a change to the units. When the units of all blocks
together are apart, so are the blocks.
-/

namespace KThreads.Blocks

variable {w a b s t x : ℕ} {M N : Multiset ℕ}

/-- The beginnings of the `s` units from `a` on. -/
def units (w a s : ℕ) : Multiset ℕ := (Multiset.range s).map fun j => a + w * j

theorem mem_units : x ∈ units w a s ↔ ∃ j < s, a + w * j = x := by
  simp [units]

theorem units_zero : units w a 0 = 0 := rfl

theorem units_add : units w a (s + t) = units w a s + units w (a + w * s) t := by
  induction t with
  | zero => simp [units_zero]
  | succ t ih =>
    have hstep : ∀ a n, units w a (n + 1) = (a + w * n) ::ₘ units w a n := by
      intro a n
      rw [units, Multiset.range_succ, Multiset.map_cons, units]
    rw [← Nat.add_assoc, hstep, ih, hstep, Multiset.add_cons, Nat.mul_add, Nat.add_assoc]

/-- The units of all blocks. -/
def total (w : ℕ) (bs : List (ℕ × ℕ)) : Multiset ℕ := (bs.map fun b => units w b.1 b.2).sum

@[simp] theorem total_nil : total w [] = 0 := rfl

@[simp] theorem total_cons {p : ℕ × ℕ} {bs : List (ℕ × ℕ)} :
    total w (p :: bs) = units w p.1 p.2 + total w bs := List.sum_cons

@[simp] theorem total_append {bs cs : List (ℕ × ℕ)} :
    total w (bs ++ cs) = total w bs + total w cs := by
  rw [total, List.map_append, List.sum_append]
  rfl

theorem mem_total {bs : List (ℕ × ℕ)} : x ∈ total w bs ↔ ∃ p ∈ bs, x ∈ units w p.1 p.2 := by
  induction bs with
  | nil => simp
  | cons p bs ih => simp [ih]

/-- No unit occurs twice, and no two units overlap. -/
structure Apart (w : ℕ) (M : Multiset ℕ) : Prop where
  nodup : M.Nodup
  apart : ∀ x ∈ M, ∀ y ∈ M, x < y → x + w ≤ y

theorem Apart.mono (h : Apart w M) (hle : N ≤ M) : Apart w N where
  nodup := Multiset.nodup_of_le hle h.nodup
  apart x hx y hy := h.apart x (Multiset.mem_of_le hle hx) y (Multiset.mem_of_le hle hy)

theorem Apart.no_common {y z : ℕ} (h : Apart w (M + N)) (hy : y ∈ M) (hz : z ∈ N) (hyx : y ≤ x ∧ x < y + w)
    (hzx : z ≤ x ∧ x < z + w) : False := by
  have hy' := Multiset.mem_add.mpr (.inl hy : y ∈ M ∨ y ∈ N)
  have hz' := Multiset.mem_add.mpr (.inr hz : z ∈ M ∨ z ∈ N)
  rcases Nat.lt_trichotomy y z with hlt | heq | hlt
  · have := h.apart y hy' z hz' hlt
    omega
  · exact Multiset.disjoint_left.mp (Multiset.nodup_add.mp h.nodup).2.2 hy (heq ▸ hz)
  · have := h.apart z hz' y hy' hlt
    omega

theorem exists_unit (hw : 0 < w) (hx : a ≤ x) (hx' : x < a + w * s) : ∃ y ∈ units w a s, y ≤ x ∧ x < y + w := by
  have hdiv : (x - a) / w < s := by
    rw [Nat.div_lt_iff_lt_mul hw, Nat.mul_comm]
    omega
  have hlow := Nat.mul_div_le (x - a) w
  have hhigh := Nat.lt_mul_div_succ (x - a) hw
  rw [Nat.mul_add, Nat.mul_one] at hhigh
  exact ⟨a + w * ((x - a) / w), mem_units.mpr ⟨_, hdiv, rfl⟩, by omega, by omega⟩

theorem Apart.disjoint (h : Apart w (units w a s + units w b t)) (hw : 0 < w) (hs : 0 < s) (ht : 0 < t) :
    a + w * s ≤ b ∨ b + w * t ≤ a := by
  -- By symmetry it is enough that the block which begins first ends before the other begins.
  have key : ∀ {a b s t : ℕ}, Apart w (units w a s + units w b t) → 0 < t → a ≤ b → a + w * s ≤ b := by
    intro a b s t h ht hab
    by_contra hlt
    have hbmem : b ∈ units w b t := mem_units.mpr ⟨0, ht, by simp⟩
    obtain ⟨y, hy, hyb⟩ := exists_unit hw hab (not_le.mp hlt)
    exact h.no_common hy hbmem hyb ⟨le_rfl, by omega⟩
  rcases Nat.le_total a b with hab | hba
  · exact .inl (key h ht hab)
  · rw [add_comm] at h
    exact .inr (key h hs hba)

theorem le_total_of_mem {p : ℕ × ℕ} {bs : List (ℕ × ℕ)} (hp : p ∈ bs) : units w p.1 p.2 ≤ total w bs := by
  obtain ⟨lo, hi, rfl⟩ := List.append_of_mem hp
  rw [total_append, total_cons]
  exact (Multiset.le_add_right _ _).trans (Multiset.le_add_left _ _)

theorem Apart.pairwise {bs : List (ℕ × ℕ)} (h : Apart w (total w bs)) (hw : 0 < w) (hpos : ∀ p ∈ bs, 0 < p.2) :
    bs.Pairwise fun p q => p.1 + w * p.2 ≤ q.1 ∨ q.1 + w * q.2 ≤ p.1 := by
  induction bs with
  | nil => exact .nil
  | cons p bs ih =>
    rw [total_cons] at h
    refine List.pairwise_cons.mpr ⟨fun q hq => ?_, ih (h.mono (Multiset.le_add_left _ _)) fun q hq =>
      hpos q (List.mem_cons_of_mem p hq)⟩
    exact (h.mono (add_le_add le_rfl (le_total_of_mem hq))).disjoint hw (hpos p List.mem_cons_self)
      (hpos q (List.mem_cons_of_mem p hq))

theorem apart_total {bs : List (ℕ × ℕ)} (h : bs.Pairwise fun p q => p.1 + w * p.2 ≤ q.1) (hw : 0 < w) :
    Apart w (total w bs) := by
  have hunits : ∀ p : ℕ × ℕ, Apart w (units w p.1 p.2) := by
    intro p
    refine ⟨Multiset.Nodup.map (fun i j hij => ?_) (Multiset.nodup_range p.2), ?_⟩
    · exact Nat.eq_of_mul_eq_mul_left hw (Nat.add_left_cancel hij)
    · intro x hx y hy hlt
      obtain ⟨i, -, rfl⟩ := mem_units.mp hx
      obtain ⟨j, -, rfl⟩ := mem_units.mp hy
      have hij : i < j := Nat.lt_of_mul_lt_mul_left (Nat.lt_of_add_lt_add_left hlt)
      have := Nat.mul_le_mul_left w hij
      rw [Nat.mul_succ] at this
      omega
  induction bs with
  | nil => exact ⟨Multiset.nodup_zero, by simp⟩
  | cons p bs ih =>
    obtain ⟨hp, hbs⟩ := List.pairwise_cons.mp h
    have hbelow : ∀ x ∈ units w p.1 p.2, ∀ y ∈ total w bs, x + w ≤ y := by
      intro x hx y hy
      obtain ⟨i, hi, rfl⟩ := mem_units.mp hx
      obtain ⟨q, hq, hy⟩ := mem_total.mp hy
      obtain ⟨j, -, rfl⟩ := mem_units.mp hy
      have := Nat.mul_le_mul_left w hi
      rw [Nat.mul_succ] at this
      have := hp q hq
      omega
    rw [total_cons]
    refine ⟨Multiset.nodup_add.mpr ⟨(hunits p).nodup, (ih hbs).nodup, ?_⟩, ?_⟩
    · refine Multiset.disjoint_left.mpr fun {x} hx hx' => ?_
      have := hbelow x hx x hx'
      omega
    · intro x hx y hy hlt
      rcases Multiset.mem_add.mp hx with hx | hx <;> rcases Multiset.mem_add.mp hy with hy | hy
      · exact (hunits p).apart x hx y hy hlt
      · exact hbelow x hx y hy
      · have := hbelow y hy x hx
        omega
      · exact (ih hbs).apart x hx y hy hlt

end KThreads.Blocks
