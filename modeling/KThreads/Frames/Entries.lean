import KThreads.Frames.Calls
import KThreads.Lib.Holdings

/-!
# What a directory maps and owns

A directory in memory is seen through the page tables of its entries and through the present
entries of these tables. It owns its own page, its page tables, and the pages that it maps below
`KERNBASE`. A store to an entry and the creation of a page table are described on this view.
-/

namespace KThreads.Frames

open Function (update update_of_ne update_self)
open Words Holdings

section

variable {p perm w n : ℕ}

theorem present_iff : Present w ↔ w % 2 = 1 := by
  simp only [Present, Nat.and_one_is_mod]
  omega

@[simp]
theorem not_present_zero : ¬Present 0 := by decide

/-- The entry for the page `p` with the flags `perm`, as `mappages` builds it. -/
def pteOf (p perm : ℕ) : ℕ := p * PGSIZE + (perm ||| PTE_P)

theorem or_PTE_P_lt (hperm : perm < PGSIZE) : perm ||| PTE_P < PGSIZE :=
  Nat.or_lt_two_pow (n := 12) hperm (by decide)

theorem pteOf_eq (hperm : perm < PGSIZE) : p * PGSIZE ||| perm ||| PTE_P = pteOf p perm := by
  rw [Nat.or_assoc, pteOf, Nat.mul_comm]
  exact (Nat.two_pow_add_eq_or_of_lt (i := 12) (or_PTE_P_lt hperm) p).symm

theorem pteOf_div (hperm : perm < PGSIZE) : pteOf p perm / PGSIZE = p := by
  have := or_PTE_P_lt hperm
  simp only [pteOf, PGSIZE] at *
  omega

theorem pteOf_mod (hperm : perm < PGSIZE) : pteOf p perm % PGSIZE = perm ||| PTE_P := by
  have := or_PTE_P_lt hperm
  simp only [pteOf, PGSIZE] at *
  omega

theorem and_PTE_U : w &&& PTE_U = w % PGSIZE &&& PTE_U := by
  have hlt : w &&& PTE_U < 2 ^ 12 := Nat.and_lt_two_pow w (by decide)
  have hmod : (w &&& PTE_U) % 2 ^ 12 = w % 2 ^ 12 &&& PTE_U % 2 ^ 12 := Nat.and_mod_two_pow
  rwa [Nat.mod_eq_of_lt hlt] at hmod

theorem present_pteOf : Present (pteOf p perm) := by
  have hbit : (perm ||| PTE_P) % 2 = 1 := by simp
  rw [present_iff]
  simp only [pteOf, PGSIZE] at *
  omega

theorem pteOf_lt (hperm : perm < PGSIZE) (hp : p < 2 ^ 20) : pteOf p perm < 2 ^ 32 := by
  have := or_PTE_P_lt hperm
  simp only [pteOf, PGSIZE] at *
  omega

theorem pde_eq : p * PGSIZE ||| PTE_P ||| PTE_W ||| PTE_U = pteOf p (PTE_W ||| PTE_U) := by
  rw [← pteOf_eq (by decide), Nat.or_assoc, Nat.or_assoc, Nat.or_assoc]
  congr 1

theorem PTE_ADDR_div : PTE_ADDR w / PGSIZE = w / PGSIZE := by
  simp only [PTE_ADDR, PGSIZE]
  omega

theorem PDX_eq (hn : n < 2 ^ 20) : PDX (n * PGSIZE) = n / 1024 := by
  simp only [PDX, PGSIZE]
  omega

theorem PTX_eq : PTX (n * PGSIZE) = n % 1024 := by
  simp only [PTX, PGSIZE]
  omega

end

section

variable (c : ℕ → ℕ → UInt8) (r : ℕ)

/-- The number of the pages below `KERNBASE`. -/
def USERPAGES : ℕ := 524288

/-- The page table of the entry `i` of the directory `r`. -/
def table (i : ℕ) : Option ℕ :=
  if i < NPDENTRIES ∧ Present (word (c r) i) then some (word (c r) i / PGSIZE) else none

/-- The present entry for the page number `n`. -/
def mapping (n : ℕ) : Option ℕ :=
  (table c r (n / 1024)).bind fun t =>
    if Present (word (c t) (n % 1024)) then some (word (c t) (n % 1024)) else none

/-- The page that is mapped at the user page `n`. -/
def frame (n : ℕ) : Option ℕ := if n < USERPAGES then (mapping c r n).map (· / PGSIZE) else none

/-- The page of the directory and its page tables. -/
def skeleton : Multiset ℕ := r ::ₘ held NPDENTRIES (table c r)

/-- The pages that are mapped below `KERNBASE`. -/
def users : Multiset ℕ := held USERPAGES (frame c r)

/-- The pages that a directory owns. -/
def owned : Multiset ℕ := skeleton c r + users c r

variable {c r} {c' : ℕ → ℕ → UInt8} {i n t p w : ℕ}

theorem table_eq_some :
    table c r i = some t ↔
      i < NPDENTRIES ∧ Present (word (c r) i) ∧ word (c r) i / PGSIZE = t := by
  simp [table, and_assoc]

theorem mapping_eq_some :
    mapping c r n = some w ↔
      ∃ t, table c r (n / 1024) = some t ∧ word (c t) (n % 1024) = w ∧ Present w := by
  simp only [mapping, Option.bind_eq_some_iff, Option.ite_none_right_eq_some, Option.some.injEq]
  constructor
  · rintro ⟨t, ht, hw, rfl⟩
    exact ⟨t, ht, rfl, hw⟩
  · rintro ⟨t, ht, rfl, hw⟩
    exact ⟨t, ht, hw, rfl⟩

theorem frame_eq_some :
    frame c r n = some p ↔ n < USERPAGES ∧ ∃ w, mapping c r n = some w ∧ w / PGSIZE = p := by
  simp [frame]

theorem present_of_mapping (h : mapping c r n = some w) : Present w := by
  obtain ⟨_, _, _, hw⟩ := mapping_eq_some.mp h
  exact hw

theorem mapping_lt (h : mapping c r n = some w) : w < 2 ^ 32 := by
  obtain ⟨t, _, rfl, _⟩ := mapping_eq_some.mp h
  exact word_lt

theorem lt_of_table (h : table c r i = some t) : i < NPDENTRIES := (table_eq_some.mp h).1

theorem mem_skeleton : p ∈ skeleton c r ↔ p = r ∨ ∃ i, table c r i = some p := by
  simp only [skeleton, Multiset.mem_cons, mem_held]
  constructor
  · rintro (h | ⟨i, _, h⟩)
    · exact .inl h
    · exact .inr ⟨i, h⟩
  · rintro (h | ⟨i, h⟩)
    · exact .inl h
    · exact .inr ⟨i, lt_of_table h, h⟩

theorem mem_users : p ∈ users c r ↔ ∃ n, frame c r n = some p := by
  simp only [users, mem_held]
  constructor
  · rintro ⟨n, _, h⟩
    exact ⟨n, h⟩
  · rintro ⟨n, h⟩
    exact ⟨n, (frame_eq_some.mp h).1, h⟩

theorem table_inj (hnd : (skeleton c r).Nodup) {j : ℕ} (hi : table c r i = some t)
    (hj : table c r j = some t) : i = j :=
  eq_of_nodup (Multiset.nodup_cons.mp hnd).2 (lt_of_table hi) (lt_of_table hj) hi hj

theorem table_ne_self (hnd : (skeleton c r).Nodup) (hi : table c r i = some t) : t ≠ r := by
  rintro rfl
  exact (Multiset.nodup_cons.mp hnd).1 (mem_held.mpr ⟨i, lt_of_table hi, hi⟩)

theorem frame_inj (hnd : (users c r).Nodup) {k : ℕ} (hn : frame c r n = some p)
    (hk : frame c r k = some p) : n = k :=
  eq_of_nodup hnd (frame_eq_some.mp hn).1 (frame_eq_some.mp hk).1 hn hk

theorem table_congr (h : c' r = c r) : table c' r = table c r := by
  funext i
  simp [table, h]

theorem mapping_congr (h : ∀ q ∈ skeleton c r, c' q = c q) : mapping c' r = mapping c r := by
  funext n
  have htable : table c' r = table c r := table_congr (h r (mem_skeleton.mpr (.inl rfl)))
  simp only [mapping, htable]
  refine Option.bind_congr fun t ht => ?_
  rw [h t (mem_skeleton.mpr (.inr ⟨_, ht⟩))]

theorem frame_of_mapping (h : mapping c' r = mapping c r) : frame c' r = frame c r := by
  funext n
  simp [frame, h]

theorem skeleton_local : Store.Local skeleton := by
  intro c c' r h
  have htable : table c' r = table c r := table_congr (h r (mem_skeleton.mpr (.inl rfl)))
  simp [skeleton, htable]

theorem owned_local : Store.Local owned := by
  intro c c' r h
  have hskel : ∀ q ∈ skeleton c r, c' q = c q := fun q hq => h q (Multiset.mem_add.mpr (.inl hq))
  rw [owned, owned, skeleton_local c c' r hskel, users, users,
    frame_of_mapping (mapping_congr hskel)]

section

theorem mapping_setWord (hnd : (skeleton c r).Nodup) (ht : table c r (n / 1024) = some t)
    (hw : w < 2 ^ 32) :
    mapping (update c t (setWord (c t) (n % 1024) w)) r =
      update (mapping c r) n (if Present w then some w else none) := by
  have htable : table (update c t (setWord (c t) (n % 1024) w)) r = table c r :=
    table_congr (update_of_ne (table_ne_self hnd ht).symm _ _)
  funext k
  simp only [mapping, htable]
  by_cases hk : k = n
  · subst hk
    simp [ht, word_setWord hw]
  · rw [update_of_ne hk]
    refine Option.bind_congr fun t' ht' => ?_
    by_cases htt : t' = t
    · subst htt
      -- another entry of the same page table
      have hdiv : k / 1024 = n / 1024 := table_inj hnd ht' ht
      have hmod : k % 1024 ≠ n % 1024 := by omega
      rw [update_self, word_setWord_of_ne hmod]
    · rw [update_of_ne htt]

variable (hnd : (skeleton c r).Nodup) (hp : p ∉ skeleton c r) (hnone : table c r i = none)
  (hi : i < NPDENTRIES) (hlt : p < 2 ^ 20) (hc : ∀ q, q ≠ r → q ≠ p → c' q = c q)
  (hr : c' r = setWord (c r) i (pteOf p (PTE_W ||| PTE_U))) (hzero : c' p = fun _ => 0)

include hi hlt hr in
theorem table_install : table c' r = update (table c r) i (some p) := by
  have hperm : PTE_W ||| PTE_U < PGSIZE := by decide
  funext j
  by_cases hj : j = i
  · subst hj
    rw [update_self, table_eq_some, hr, word_setWord (pteOf_lt hperm hlt)]
    exact ⟨hi, present_pteOf, pteOf_div hperm⟩
  · rw [update_of_ne hj]
    simp [table, hr, word_setWord_of_ne hj]

include hnd hp hnone hi hlt hc hr hzero in
theorem mapping_install : mapping c' r = mapping c r := by
  funext k
  simp only [mapping, table_install hi hlt hr]
  by_cases hk : k / 1024 = i
  · simp [hk, hnone, hzero, word_zero]
  · rw [update_of_ne hk]
    refine Option.bind_congr fun t ht => ?_
    have htp : t ≠ p := fun h => hp (mem_skeleton.mpr (.inr ⟨_, h ▸ ht⟩))
    rw [hc t (table_ne_self hnd ht) htp]

end

end

end KThreads.Frames
