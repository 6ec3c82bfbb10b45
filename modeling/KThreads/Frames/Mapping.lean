import KThreads.Frames.Entries

/-!
# Mapping pages

What `kalloc`, `kfree`, `walkpgdir` and `mappages` do to a directory that owns its pages. The
page tables come from the free list, and a page that is mapped below `KERNBASE` passes from the
hand of the caller to the directory.
-/

namespace KThreads.Frames

open Function (update update_eq_self update_of_ne update_self)
open Words Holdings Store

/-- The pages that `kfree` accepts. -/
def Link.Ram (K : Link) (p : ℕ) : Prop := ¬(KERNBASE + p * PGSIZE < K.kend ∨ p * PGSIZE ≥ PHYSTOP)

/-- The pages of the free list, of the directories `R` and in hand are different pages of the
memory that `kalloc` manages. -/
structure Valid (K : Link) (m : Memory) (R x : Multiset ℕ) : Prop where
  nodup : (m.stock owned R x).Nodup
  ram : ∀ p ∈ m.stock owned R x, K.Ram p

variable {K : Link} {m m' : Memory} {R R' x x' y : Multiset ℕ} {r n p t w b k perm : ℕ}

theorem Link.Ram.lt (h : K.Ram p) : p < 57344 := by
  simp only [Link.Ram, PGSIZE, PHYSTOP] at h
  omega

theorem Link.Ram.pos (h : K.Ram p) : 0 < p := by
  have h₁ := K.data_gt
  have h₂ := K.data_le
  simp only [Link.Ram, PGSIZE, PHYSTOP, KERNLINK, KERNBASE, EXTMEM] at *
  omega

theorem stock_one : m.stock owned {r} x = m.stock skeleton {r} 0 + (users m.page r + x) := by
  simp only [stock, Multiset.singleton_bind, owned]
  abel

theorem keeps_owned (h : Keeps skeleton m {r} 0 m' {r} 0)
    (husers : users m'.page r + x' = users m.page r + x) : Keeps owned m {r} x m' {r} x' := by
  constructor
  · rw [stock_one, stock_one, h.stock_eq, husers]
  · intro q hq
    rw [stock_one] at hq
    exact h.frame q fun hmem => hq (Multiset.mem_add.mpr (.inl hmem))

namespace Valid

theorem keeps (V : Valid K m R x) (h : Keeps owned m R x m' R' x') : Valid K m' R' x' where
  nodup := h.stock_eq ▸ V.nodup
  ram p hp := V.ram p (h.stock_eq ▸ hp)

theorem mono (V : Valid K m (R + R') (x + x')) : Valid K m R x where
  nodup := by
    have h := V.nodup
    rw [stock_add] at h
    exact (Multiset.nodup_add.mp h).1
  ram p hp := V.ram p (by rw [stock_add]; exact Multiset.mem_add.mpr (.inl hp))

section

variable (V : Valid K m {r} x)

include V

theorem nodup_skeleton : (m.stock skeleton {r} 0).Nodup := by
  have h := V.nodup
  rw [stock_one] at h
  exact (Multiset.nodup_add.mp h).1

theorem skeleton_nodup : (skeleton m.page r).Nodup := by
  have h := V.nodup_skeleton
  simp only [stock, Multiset.singleton_bind, add_zero] at h
  exact (Multiset.nodup_add.mp h).2.1

theorem users_nodup : (users m.page r).Nodup := by
  have h := V.nodup
  rw [stock_one] at h
  exact (Multiset.nodup_add.mp (Multiset.nodup_add.mp h).2.1).1

theorem not_mem_skeleton (hp : p ∈ users m.page r + x) : p ∉ m.stock skeleton {r} 0 := by
  have h := V.nodup
  rw [stock_one] at h
  exact fun hmem => Multiset.disjoint_left.mp (Multiset.nodup_add.mp h).2.2 hmem hp

theorem page_of_frame (h : Keeps skeleton m {r} 0 m' {r} 0) (hp : frame m.page r n = some p) :
    m'.page p = m.page p :=
  h.frame p (V.not_mem_skeleton (Multiset.mem_add.mpr (.inl (mem_users.mpr ⟨n, hp⟩))))

end

end Valid

theorem kalloc_none (h : m.free = []) : kalloc m = none := by
  simp [kalloc, h]

theorem kalloc_some {free : List ℕ} (h : m.free = p :: free) :
    kalloc m = some (p, { m with free }) := by
  simp [kalloc, h]

theorem keeps_kalloc {own : (ℕ → ℕ → UInt8) → ℕ → Multiset ℕ} {free : List ℕ}
    (h : m.free = p :: free) : Keeps own m R x { m with free } R (p ::ₘ x) where
  stock_eq := by
    simp only [stock, h, ← Multiset.cons_coe, ← Multiset.singleton_add]
    abel
  frame _ _ := rfl

theorem Valid.keeps_write (V : Valid K m R (p ::ₘ x)) (hfree : m'.free = m.free)
    (hpage : ∀ q, q ≠ p → m'.page q = m.page q) :
    Keeps owned m R (p ::ₘ x) m' R (p ::ₘ x) := by
  have hnot : ∀ r ∈ R, p ∉ owned m.page r := by
    intro r hr hp
    have hnd := V.nodup
    simp only [stock, ← Multiset.singleton_add] at hnd
    have hdis := (Multiset.nodup_add.mp hnd).2.2
    exact Multiset.disjoint_left.mp hdis
      (Multiset.mem_add.mpr (.inr (Multiset.mem_bind.mpr ⟨r, hr, hp⟩))) (by simp)
  have hown : R.bind (owned m'.page) = R.bind (owned m.page) :=
    Multiset.bind_congr fun r hr => owned_local _ _ r fun q hq =>
      hpage q fun hqp => hnot r hr (hqp ▸ hq)
  constructor
  · simp only [stock, hfree, hown]
  · intro q hq
    exact hpage q fun hqp => hq (mem_stock_hand (by simp [hqp]))

theorem Valid.exists_kfree (V : Valid K m R (p ::ₘ x)) :
    ∃ m', kfree K m p = .ok m' ∧ Keeps owned m R (p ::ₘ x) m' R x ∧
      ∀ q, q ≠ p → m'.page q = m.page q := by
  have hram : K.Ram p := V.ram p (mem_stock_hand (by simp))
  refine ⟨{ memset m p 1 with free := p :: m.free }, if_neg hram, ?_,
    fun q hq => update_of_ne hq _ _⟩
  have hwrite : Keeps owned m R (p ::ₘ x) (memset m p 1) R (p ::ₘ x) :=
    V.keeps_write rfl fun q hq => update_of_ne hq _ _
  refine hwrite.trans ⟨?_, fun _ _ => rfl⟩
  simp only [stock, memset, ← Multiset.cons_coe, ← Multiset.singleton_add]
  abel

theorem walkpgdir_eq (hn : n < 2 ^ 20) :
    (walkpgdir m r (n * PGSIZE) false).1 =
      (table m.page r (n / 1024)).map fun t => (t, n % 1024) := by
  have hlt : n / 1024 < NPDENTRIES := by
    simp only [NPDENTRIES]
    omega
  simp only [walkpgdir, PDX_eq hn, PTX_eq, load, table, hlt, true_and, PTE_ADDR_div]
  by_cases h : Present (word (m.page r) (n / 1024)) <;> simp [h]

theorem Valid.walk (V : Valid K m {r} x) (hn : n < 2 ^ 20) :
    (table m.page r (n / 1024) = none ∧ m.free = [] ∧
      walkpgdir m r (n * PGSIZE) true = (none, m)) ∨
    ∃ t m', walkpgdir m r (n * PGSIZE) true = (some (t, n % 1024), m') ∧
      Keeps skeleton m {r} 0 m' {r} 0 ∧
      table m'.page r = update (table m.page r) (n / 1024) (some t) ∧
      mapping m'.page r = mapping m.page r := by
  have hlt : n / 1024 < NPDENTRIES := by
    simp only [NPDENTRIES]
    omega
  cases ht : table m.page r (n / 1024) with
  | some t =>
    obtain ⟨-, hpres, hdiv⟩ := table_eq_some.mp ht
    refine .inr ⟨t, m, ?_, .refl, by rw [← ht, update_eq_self], rfl⟩
    simp only [walkpgdir, PDX_eq hn, PTX_eq, load, hpres, if_true, PTE_ADDR_div, hdiv]
  | none =>
    have hpres : ¬Present (load m r (n / 1024)) := by
      intro h
      simp [table, hlt, show Present (word (m.page r) (n / 1024)) from h] at ht
    cases hfree : m.free with
    | nil =>
      refine .inl ⟨rfl, rfl, ?_⟩
      simp [walkpgdir, PDX_eq hn, hpres, kalloc_none hfree]
    | cons p free =>
      have hp : p ∉ skeleton m.page r := by
        have hnd := V.nodup_skeleton
        simp only [stock, hfree, Multiset.singleton_bind, add_zero] at hnd
        exact Multiset.disjoint_left.mp (Multiset.nodup_add.mp hnd).2.2 (by simp)
      have hpr : r ≠ p := fun h => hp (mem_skeleton.mpr (.inl h.symm))
      have hlow : p < 2 ^ 20 := (V.ram p (mem_stock_free (by simp [hfree]))).lt.trans (by decide)
      obtain ⟨m', hm'⟩ : ∃ m', m' = store (memset { m with free } p 0) r (n / 1024)
        (pteOf p (PTE_W ||| PTE_U)) := ⟨_, rfl⟩
      have hc : ∀ q, q ≠ r → q ≠ p → m'.page q = m.page q := by
        intro q hqr hqp
        simp [hm', store, memset, hqr, hqp]
      have hr : m'.page r = setWord (m.page r) (n / 1024) (pteOf p (PTE_W ||| PTE_U)) := by
        simp [hm', store, memset, hpr]
      have hzero : m'.page p = fun _ => 0 := by simp [hm', store, memset, hpr.symm]
      have htable := table_install hlt hlow hr
      have hskel : skeleton m'.page r = p ::ₘ skeleton m.page r := by
        have hput : held NPDENTRIES (table m'.page r) = p ::ₘ held NPDENTRIES (table m.page r) :=
          held_put hlt (fun j hj => by rw [htable, update_of_ne hj]) ht (by rw [htable, update_self])
        rw [skeleton, skeleton, hput, Multiset.cons_swap]
      refine .inr ⟨p, m', ?_, ⟨?_, ?_⟩, htable,
        mapping_install V.skeleton_nodup hp ht hlt hlow hc hr hzero⟩
      · simp [walkpgdir, PDX_eq hn, PTX_eq, hpres, kalloc_some hfree, hm', pde_eq]
      · have hfree' : m'.free = free := by rw [hm']; rfl
        simp only [stock, hfree, hfree', Multiset.singleton_bind, hskel, ← Multiset.cons_coe,
          Multiset.cons_add, Multiset.add_cons]
      · intro q hq
        refine hc q ?_ ?_
        · rintro rfl
          exact hq (mem_stock_own (Multiset.mem_singleton_self q) (mem_skeleton.mpr (.inl rfl)))
        · rintro rfl
          exact hq (mem_stock_free (by simp [hfree]))

/-- A page is mapped: the entry of the page `n` becomes `w`. -/
structure Maps (m m' : Memory) (r n w : ℕ) : Prop where
  keeps : Keeps skeleton m {r} 0 m' {r} 0
  table_eq : ∀ i, i ≠ n / 1024 → table m'.page r i = table m.page r i
  mapping_eq : mapping m'.page r = update (mapping m.page r) n (some w)

theorem Valid.keeps_store (V : Valid K m {r} x) (ht : table m.page r (n / 1024) = some t)
    (hw : w < 2 ^ 32) :
    Keeps skeleton m {r} 0 (store m t (n % 1024) w) {r} 0 ∧
      table (store m t (n % 1024) w).page r = table m.page r ∧
      mapping (store m t (n % 1024) w).page r =
        update (mapping m.page r) n (if Present w then some w else none) := by
  have hnd := V.skeleton_nodup
  have hself : (store m t (n % 1024) w).page r = m.page r :=
    update_of_ne (table_ne_self hnd ht).symm _ _
  have htable : table (store m t (n % 1024) w).page r = table m.page r := table_congr hself
  refine ⟨⟨?_, ?_⟩, htable, mapping_setWord hnd ht hw⟩
  · simp only [stock, Multiset.singleton_bind, skeleton, htable]
    rfl
  · intro q hq
    refine update_of_ne ?_ _ _
    rintro rfl
    exact hq (mem_stock_own (Multiset.mem_singleton_self r) (mem_skeleton.mpr (.inr ⟨_, ht⟩)))

theorem Valid.map_page (V : Valid K m {r} x) (hn : n < 2 ^ 20) (hp : p < 2 ^ 20)
    (hperm : perm < PGSIZE) :
    ((mapping m.page r n).isSome ∧
      mapPage m r (n * PGSIZE) (p * PGSIZE) perm = .error (.vm .remap)) ∨
    (mapping m.page r n = none ∧ m.free = [] ∧
      mapPage m r (n * PGSIZE) (p * PGSIZE) perm = .ok (false, m)) ∨
    (mapping m.page r n = none ∧ ∃ m',
      mapPage m r (n * PGSIZE) (p * PGSIZE) perm = .ok (true, m') ∧
      Maps m m' r n (pteOf p perm)) := by
  rcases V.walk hn with ⟨hnone, hfree, hwalk⟩ | ⟨t, m₁, hwalk, hk, htable, hmap⟩
  · refine .inr (.inl ⟨by simp [mapping, hnone], hfree, ?_⟩)
    simp [mapPage, hwalk]
  · have ht : table m₁.page r (n / 1024) = some t := by rw [htable, update_self]
    have hload : mapping m.page r n =
        if Present (load m₁ t (n % 1024)) then some (load m₁ t (n % 1024)) else none := by
      rw [← hmap, mapping, ht]
      rfl
    by_cases hpres : Present (load m₁ t (n % 1024))
    · exact .inl ⟨by simp [hload, hpres], by simp [mapPage, hwalk, hpres]⟩
    · have V₁ : Valid K m₁ {r} x :=
        V.keeps (keeps_owned hk (by rw [users, users, frame_of_mapping hmap]))
      obtain ⟨hk', htable', hmap'⟩ := V₁.keeps_store ht (pteOf_lt hperm hp)
      refine .inr (.inr ⟨by simp [hload, hpres], store m₁ t (n % 1024) (pteOf p perm), ?_,
        hk.trans hk', fun i hi => ?_, ?_⟩)
      · simp [mapPage, hwalk, hpres, pteOf_eq hperm]
      · rw [htable', htable, update_of_ne hi]
      · rw [hmap', hmap, if_pos present_pteOf]

/-- Every page table has a present entry. -/
def Tight (c : ℕ → ℕ → UInt8) (r : ℕ) : Prop :=
  ∀ i, (table c r i).isSome → ∃ n, n / 1024 = i ∧ (mapping c r n).isSome

theorem Maps.tight (h : Maps m m' r n w) (ht : Tight m.page r) : Tight m'.page r := by
  intro i hi
  by_cases hin : i = n / 1024
  · exact ⟨n, hin.symm, by simp [h.mapping_eq]⟩
  · rw [h.table_eq i hin] at hi
    obtain ⟨k, rfl, hk⟩ := ht i hi
    refine ⟨k, rfl, ?_⟩
    rwa [h.mapping_eq, update_of_ne fun hkn => hin (by rw [hkn])]

theorem users_eq (h : ∀ j < USERPAGES, mapping m'.page r j = mapping m.page r j) :
    users m'.page r = users m.page r :=
  held_congr fun j hj => by simp only [frame, hj, if_true, h j hj]

theorem Maps.users_eq (h : Maps m m' r n w) (hn : n < USERPAGES)
    (hnone : mapping m.page r n = none) :
    users m'.page r = w / PGSIZE ::ₘ users m.page r := by
  refine held_put hn ?_ ?_ ?_
  · intro j hj
    simp only [frame, h.mapping_eq, update_of_ne hj]
  · simp [frame, hnone]
  · simp [frame, hn, h.mapping_eq]

theorem Maps.keeps_user (h : Maps m m' r n (pteOf p perm)) (hn : n < USERPAGES)
    (hnone : mapping m.page r n = none) (hperm : perm < PGSIZE) :
    Keeps owned m {r} (p ::ₘ x) m' {r} x := by
  refine keeps_owned h.keeps ?_
  rw [h.users_eq hn hnone, pteOf_div hperm, Multiset.cons_add, Multiset.add_cons]

theorem Maps.mapping_user (h : Maps m m' r n w) (hn : USERPAGES ≤ n) {j : ℕ} (hj : j < USERPAGES) :
    mapping m'.page r j = mapping m.page r j := by
  rw [h.mapping_eq, update_of_ne (by omega)]

section

variable {a pa last fuel : ℕ}

theorem mapLoop_full (h : mapPage m r a pa perm = .ok (false, m')) :
    mapLoop r last perm (fuel + 1) m a pa = .ok (false, m') := by
  simp [mapLoop, h, bind, Except.bind]

theorem mapLoop_last (h : mapPage m r a pa perm = .ok (true, m')) (hlast : a = last) :
    mapLoop r last perm (fuel + 1) m a pa = .ok (true, m') := by
  subst hlast
  simp [mapLoop, h, bind, Except.bind]

theorem mapLoop_next (h : mapPage m r a pa perm = .ok (true, m')) (hlast : a ≠ last) :
    mapLoop r last perm (fuel + 1) m a pa =
      mapLoop r last perm fuel m' ((a + PGSIZE) % 2 ^ 32) ((pa + PGSIZE) % 2 ^ 32) := by
  simp [mapLoop, h, hlast, bind, Except.bind]

theorem next_page (hn : n + 1 < 2 ^ 20) : (n * PGSIZE + PGSIZE) % 2 ^ 32 = (n + 1) * PGSIZE := by
  simp only [PGSIZE]
  omega

theorem Valid.map_loop (V : Valid K m {r} x) (hn : USERPAGES ≤ n) (hk : n + k < 2 ^ 20)
    (hb : b + k < 2 ^ 20) (hperm : perm < PGSIZE) (hfuel : k < fuel)
    (hnone : ∀ j, n ≤ j → j ≤ n + k → mapping m.page r j = none) :
    (∃ m', mapLoop r ((n + k) * PGSIZE) perm fuel m (n * PGSIZE) (b * PGSIZE) = .ok (false, m') ∧
      Keeps skeleton m {r} 0 m' {r} 0 ∧ m'.free = [] ∧
      ∀ j < USERPAGES, mapping m'.page r j = mapping m.page r j) ∨
    ∃ m', mapLoop r ((n + k) * PGSIZE) perm fuel m (n * PGSIZE) (b * PGSIZE) = .ok (true, m') ∧
      Keeps skeleton m {r} 0 m' {r} 0 ∧ (Tight m.page r → Tight m'.page r) ∧
      mapping m'.page r = fun j =>
        if n ≤ j ∧ j ≤ n + k then some (pteOf (b + (j - n)) perm) else mapping m.page r j := by
  obtain ⟨fuel, rfl⟩ : ∃ f, fuel = f + 1 := ⟨fuel - 1, by omega⟩
  -- one more page in each round, the first of which is mapped here
  induction k generalizing m n b fuel with
  | zero =>
    simp only [Nat.add_zero] at hk hb hnone ⊢
    rcases V.map_page hk hb hperm with ⟨hsome, -⟩ | ⟨-, hfree, heq⟩ | ⟨-, m', heq, hmaps⟩
    · simp [hnone n le_rfl le_rfl] at hsome
    · exact .inl ⟨m, mapLoop_full heq, .refl, hfree, fun _ _ => rfl⟩
    · refine .inr ⟨m', mapLoop_last heq rfl, hmaps.keeps, hmaps.tight, ?_⟩
      rw [hmaps.mapping_eq]
      funext j
      by_cases hj : j = n
      · simp [hj]
      · rw [update_of_ne hj, if_neg (by omega)]
  | succ k ih =>
    rcases V.map_page (n := n) (p := b) (by omega) (by omega) hperm with
      ⟨hsome, -⟩ | ⟨-, hfree, heq⟩ | ⟨-, m₁, heq, hmaps⟩
    · simp [hnone n le_rfl (by omega)] at hsome
    · exact .inl ⟨m, mapLoop_full heq, .refl, hfree, fun _ _ => rfl⟩
    · have huser := fun j (hj : j < USERPAGES) => hmaps.mapping_user hn hj
      have hkeep : Keeps owned m {r} x m₁ {r} x := keeps_owned hmaps.keeps (by rw [users_eq huser])
      have hrest : ∀ j, n + 1 ≤ j → j ≤ n + 1 + k → mapping m₁.page r j = none := by
        intro j hj hjk
        rw [hmaps.mapping_eq, update_of_ne (by omega)]
        exact hnone j (by omega) (by omega)
      have hne : n * PGSIZE ≠ (n + (k + 1)) * PGSIZE := by
        simp only [PGSIZE]
        omega
      obtain ⟨fuel, rfl⟩ : ∃ f, fuel = f + 1 := ⟨fuel - 1, by omega⟩
      rw [mapLoop_next heq hne, next_page (by omega), next_page (by omega),
        show n + (k + 1) = n + 1 + k by omega]
      rcases ih (b := b + 1) (V.keeps hkeep) (by omega) (by omega) (by omega) hrest fuel (by omega) with
        ⟨m', heq', hkeep', hfree, huser'⟩ | ⟨m', heq', hkeep', htight, hmap'⟩
      · exact .inl ⟨m', heq', hmaps.keeps.trans hkeep', hfree, fun j hj =>
          (huser' j hj).trans (huser j hj)⟩
      · refine .inr ⟨m', heq', hmaps.keeps.trans hkeep', fun ht => htight (hmaps.tight ht), ?_⟩
        rw [hmap', hmaps.mapping_eq]
        funext j
        by_cases hj : j = n
        · rw [hj, if_neg (by omega), update_self, if_pos (by omega), Nat.sub_self, Nat.add_zero]
        · rw [update_of_ne hj]
          by_cases hin : n + 1 ≤ j ∧ j ≤ n + 1 + k
          · rw [if_pos hin, if_pos (by omega), show b + 1 + (j - (n + 1)) = b + (j - n) by omega]
          · rw [if_neg hin, if_neg (by omega)]

theorem mappages_page (hn : n < 2 ^ 20) :
    mappages m r (n * PGSIZE) PGSIZE pa perm =
      mapPage m r (n * PGSIZE) pa perm := by
  have hfirst : PGROUNDDOWN (n * PGSIZE) = n * PGSIZE := by
    simp only [PGROUNDDOWN, PGSIZE]
    omega
  have hlast : PGROUNDDOWN ((n * PGSIZE + PGSIZE + (2 ^ 32 - 1)) % 2 ^ 32) = n * PGSIZE := by
    simp only [PGROUNDDOWN, PGSIZE]
    omega
  rw [mappages, hfirst, hlast]
  cases h : mapPage m r (n * PGSIZE) pa perm with
  | error e => simp [mapLoop, h, bind, Except.bind]
  | ok v =>
    obtain ⟨done, m'⟩ := v
    cases done with
    | false => exact mapLoop_full h
    | true => exact mapLoop_last h rfl

end

end KThreads.Frames
