import KThreads.Frames.Mapping

/-!
# Giving pages back

`deallocuvm` takes the mappings of a range away and frees their pages, also where page tables
are missing. `freevm` frees all that a directory owns.
-/

namespace KThreads.Frames

open Function (update update_of_ne update_self)
open Words Holdings Store

variable {K : Link} {m m' : Memory} {x : Multiset ℕ} {r n p t w oldsz newsz fuel : ℕ}

section

theorem kfree_store (hp : p ≠ t) {i : ℕ} (h : kfree K m p = .ok m') :
    kfree K (store m t i w) p = .ok (store m' t i w) := by
  unfold kfree at h ⊢
  split_ifs at h ⊢
  cases h
  simp only [memset, store, update_of_ne hp.symm, Function.update_comm hp.symm]

theorem Valid.free_page (V : Valid K m {r} x) (hn : n < USERPAGES)
    (ht : table m.page r (n / 1024) = some t) (hmap : mapping m.page r n = some w) :
    ∃ m₁, kfree K m (w / PGSIZE) = .ok m₁ ∧
      Keeps owned m {r} x (store m₁ t (n % 1024) 0) {r} x ∧
      mapping (store m₁ t (n % 1024) 0).page r = update (mapping m.page r) n none ∧
      ∀ j p, j ≠ n → frame m.page r j = some p →
        (store m₁ t (n % 1024) 0).page p = m.page p := by
  obtain ⟨p, hp⟩ : ∃ p, p = w / PGSIZE := ⟨_, rfl⟩
  have hframe : frame m.page r n = some p := frame_eq_some.mpr ⟨hn, w, hmap, hp.symm⟩
  have hpt : p ≠ t := by
    rintro rfl
    exact V.not_mem_skeleton (Multiset.mem_add.mpr (.inl (mem_users.mpr ⟨n, hframe⟩)))
      (mem_stock_own (Multiset.mem_singleton_self r) (mem_skeleton.mpr (.inr ⟨_, ht⟩)))
  -- clear the entry first: the page passes to the hand
  obtain ⟨hk, -, hmap₂⟩ := V.keeps_store ht (w := 0) (by decide)
  rw [if_neg not_present_zero] at hmap₂
  have husers : users m.page r = p ::ₘ users (store m t (n % 1024) 0).page r := by
    refine held_put hn ?_ ?_ hframe
    · intro j hj
      simp only [frame, hmap₂, update_of_ne hj]
    · simp [frame, hmap₂]
  have hk₂ : Keeps owned m {r} x (store m t (n % 1024) 0) {r} (p ::ₘ x) :=
    keeps_owned hk (by rw [husers, Multiset.cons_add, Multiset.add_cons])
  have V₂ := V.keeps hk₂
  obtain ⟨m₃, hfree, hk₃, hpage⟩ := V₂.exists_kfree
  have hram : K.Ram p := V₂.ram p (mem_stock_hand (by simp))
  have hfree₁ : kfree K m p = .ok { memset m p 1 with free := p :: m.free } := if_neg hram
  have heq := kfree_store (t := t) (i := n % 1024) (w := 0) hpt hfree₁
  rw [hfree, Except.ok.injEq] at heq
  subst heq
  have hskel : ∀ q ∈ skeleton (store m t (n % 1024) 0).page r,
      (store { memset m p 1 with free := p :: m.free } t (n % 1024) 0).page q =
        (store m t (n % 1024) 0).page q := by
    intro q hq
    refine hpage q ?_
    rintro rfl
    exact V₂.not_mem_skeleton (p := q) (by simp)
      (mem_stock_own (Multiset.mem_singleton_self r) hq)
  refine ⟨_, hp ▸ hfree₁, hk₂.trans hk₃, (mapping_congr hskel).trans hmap₂, ?_⟩
  intro j q hj hq
  have hqp : q ≠ p := fun h => hj (frame_inj V.users_nodup (h ▸ hq) hframe)
  rw [hpage q hqp]
  exact V.page_of_frame hk hq

/-- The mappings of the pages from `n` to `hi` are taken away, and their pages freed. -/
structure Clears (m m' : Memory) (r n hi : ℕ) (x : Multiset ℕ) : Prop where
  keeps : Keeps owned m {r} x m' {r} x
  mapping_eq : mapping m'.page r = fun j => if n ≤ j ∧ j < hi then none else mapping m.page r j
  page_eq : ∀ j p, frame m'.page r j = some p → m'.page p = m.page p

namespace Clears

variable {hi : ℕ}

theorem mapping_of_not (h : Clears m m' r n hi x) {j : ℕ} (hj : ¬(n ≤ j ∧ j < hi)) :
    mapping m'.page r j = mapping m.page r j := by
  rw [h.mapping_eq]
  exact if_neg hj

theorem frame_sub (h : Clears m m' r n hi x) {j : ℕ} (hj : frame m'.page r j = some p) :
    frame m.page r j = some p := by
  obtain ⟨hlt, w, hw, rfl⟩ := frame_eq_some.mp hj
  rw [h.mapping_eq] at hw
  dsimp only at hw
  split_ifs at hw
  exact frame_eq_some.mpr ⟨hlt, w, hw, rfl⟩

theorem from_earlier {k : ℕ} (h : Clears m m' r k hi x) (hnk : n ≤ k)
    (hnone : ∀ j, n ≤ j → j < k → mapping m.page r j = none) : Clears m m' r n hi x where
  keeps := h.keeps
  page_eq := h.page_eq
  mapping_eq := by
    rw [h.mapping_eq]
    funext j
    by_cases hj : n ≤ j ∧ j < k
    · rw [if_neg (by omega), hnone j hj.1 hj.2, ite_self]
    · by_cases hin : k ≤ j ∧ j < hi
      · rw [if_pos hin, if_pos (by omega)]
      · rw [if_neg hin, if_neg (by omega)]

theorem done (h : hi ≤ n) : Clears m m r n hi x where
  keeps := .refl
  page_eq _ _ _ := rfl
  mapping_eq := by
    funext j
    rw [if_neg (by omega)]

theorem free_first {m₁ : Memory} (h : Clears m₁ m' r (n + 1) hi x) (ha : n < hi)
    (hkeep : Keeps owned m {r} x m₁ {r} x)
    (hmap : mapping m₁.page r = update (mapping m.page r) n none)
    (hpage : ∀ j p, j ≠ n → frame m.page r j = some p → m₁.page p = m.page p) :
    Clears m m' r n hi x where
  keeps := hkeep.trans h.keeps
  mapping_eq := by
    rw [h.mapping_eq, hmap]
    funext j
    by_cases hj : j = n
    · rw [hj, if_neg (by omega), update_self, if_pos ⟨le_rfl, ha⟩]
    · rw [update_of_ne hj]
      by_cases hin : n + 1 ≤ j ∧ j < hi
      · rw [if_pos hin, if_pos (by omega)]
      · rw [if_neg hin, if_neg (by omega)]
  page_eq j p hj := by
    have hmid := h.frame_sub hj
    have hne : j ≠ n := by
      rintro rfl
      simp [frame, hmap] at hmid
    have hold : frame m.page r j = some p := by
      simpa only [frame, hmap, update_of_ne hne] using hmid
    rw [h.page_eq j p hj, hpage j p hne hold]

end Clears

/-- The number of the pages of `sz` bytes. -/
def pagesOf (sz : ℕ) : ℕ := (sz + 4095) / 4096

theorem lt_pagesOf {sz : ℕ} : n < pagesOf sz ↔ n * PGSIZE < sz := by
  simp only [pagesOf, PGSIZE]
  omega

theorem PGROUNDUP_pagesOf {sz : ℕ} (h : sz ≤ KERNBASE) : PGROUNDUP sz = pagesOf sz * PGSIZE := by
  simp only [PGROUNDUP, pagesOf, PGSIZE, KERNBASE] at *
  omega

theorem pagesOf_le {sz : ℕ} (h : sz ≤ KERNBASE) : pagesOf sz ≤ USERPAGES := by
  simp only [pagesOf, USERPAGES, KERNBASE] at *
  omega

theorem Valid.ram_frame (V : Valid K m {r} x) (h : frame m.page r n = some p) : K.Ram p :=
  V.ram p (mem_stock_own (Multiset.mem_singleton_self r)
    (Multiset.mem_add.mpr (.inr (mem_users.mpr ⟨n, h⟩))))

theorem Valid.dealloc_loop (V : Valid K m {r} x) (hold : oldsz ≤ KERNBASE)
    (hfuel : pagesOf oldsz ≤ n + fuel) :
    ∃ m', deallocLoop K r oldsz (fuel + 1) m (n * PGSIZE) = .ok m' ∧
      Clears m m' r n (pagesOf oldsz) x := by
  have hstop : ∀ {k fuel m₁}, ¬k * PGSIZE < oldsz →
      ∃ m', deallocLoop K r oldsz (fuel + 1) m₁ (k * PGSIZE) = .ok m' ∧
        Clears m₁ m' r k (pagesOf oldsz) x := fun hk =>
    ⟨_, by rw [deallocLoop, if_neg hk], .done (not_lt.mp fun h => hk (lt_pagesOf.mp h))⟩
  -- the loop goes on behind the page `n`, or behind the pages of its missing table
  induction fuel generalizing m n with
  | zero => exact hstop fun h => absurd (lt_pagesOf.mpr h) (not_lt.mpr hfuel)
  | succ fuel ih =>
    by_cases ha : n * PGSIZE < oldsz
    swap
    · exact hstop ha
    have hn : n < USERPAGES := (lt_pagesOf.mpr ha).trans_le (pagesOf_le hold)
    have hlow : n + 1 < 2 ^ 20 := by
      simp only [USERPAGES] at hn
      omega
    rw [deallocLoop, if_pos ha, walkpgdir_eq (by omega)]
    cases ht : table m.page r (n / 1024) with
    | none =>
      obtain ⟨m', heq, hclear⟩ := ih V (n := (n / 1024 + 1) * 1024) (by omega)
      refine ⟨m', ?_, hclear.from_earlier (by omega) ?_⟩
      · have hskip : PGADDR (PDX (n * PGSIZE) + 1) 0 0 = (n / 1024 + 1) * 1024 * PGSIZE := by
          rw [PDX_eq (by omega)]
          simp only [PGADDR, PGSIZE, USERPAGES] at *
          omega
        simp only [Option.map_none, hskip]
        exact heq
      · intro j hj hjk
        simp [mapping, show j / 1024 = n / 1024 by omega, ht]
    | some t =>
      have hload : mapping m.page r n =
          if Present (load m t (n % 1024)) then some (load m t (n % 1024)) else none := by
        rw [mapping, ht]
        rfl
      simp only [Option.map_some, PTE_ADDR_div, next_page hlow]
      by_cases hpres : Present (load m t (n % 1024))
      · rw [if_pos hpres] at hload
        obtain ⟨m₁, hfree, hkeep, hmap, hpage⟩ := V.free_page hn ht hload
        obtain ⟨m', heq, hclear⟩ := ih (V.keeps hkeep) (n := n + 1) (by omega)
        refine ⟨m', ?_, hclear.free_first (lt_pagesOf.mpr ha) hkeep hmap hpage⟩
        have hpos : PTE_ADDR (load m t (n % 1024)) ≠ 0 := by
          have hram := V.ram_frame (frame_eq_some.mpr ⟨hn, _, hload, rfl⟩)
          exact (Nat.mul_pos hram.pos (by decide)).ne'
        rw [if_pos hpres, if_neg hpos, hfree]
        exact heq
      · rw [if_neg hpres] at hload
        obtain ⟨m', heq, hclear⟩ := ih V (n := n + 1) (by omega)
        refine ⟨m', by rw [if_neg hpres]; exact heq, hclear.from_earlier (by omega) ?_⟩
        intro j hj hjk
        rw [show j = n by omega, hload]

theorem Valid.dealloc (V : Valid K m {r} x) (hold : oldsz ≤ KERNBASE) :
    ∃ m', deallocuvm K m r oldsz newsz = .ok (if newsz ≥ oldsz then oldsz else newsz, m') ∧
      Clears m m' r (pagesOf newsz) (pagesOf oldsz) x := by
  by_cases hsz : newsz ≥ oldsz
  · refine ⟨m, by rw [deallocuvm, if_pos hsz, if_pos hsz], .done ?_⟩
    simp only [pagesOf]
    omega
  · have hbound : pagesOf oldsz ≤ pagesOf newsz + 1048575 :=
      (pagesOf_le hold).trans ((show USERPAGES ≤ 1048575 by decide).trans (Nat.le_add_left _ _))
    obtain ⟨m', heq, hclear⟩ := V.dealloc_loop hold hbound
    refine ⟨m', ?_, hclear⟩
    rw [deallocuvm, if_neg hsz, if_neg hsz, PGROUNDUP_pagesOf (by omega),
      show 2 ^ 20 = 1048575 + 1 by decide, heq]
    rfl

end

theorem keeps_unroot (h : users m.page r = 0) :
    Keeps owned m {r} x m 0 (skeleton m.page r + x) where
  stock_eq := by
    simp only [stock, Multiset.singleton_bind, Multiset.zero_bind, owned, h]
    abel
  frame _ _ := rfl

theorem Valid.free_tables {is : List ℕ}
    (V : Valid K m 0 (↑(is.filterMap (table m.page r)) + (r ::ₘ x)))
    (his : ∀ i ∈ is, i < NPDENTRIES) :
    ∃ m', freeTables K r is m = .ok m' ∧
      Keeps owned m 0 (↑(is.filterMap (table m.page r)) + (r ::ₘ x)) m' 0 (r ::ₘ x) := by
  induction is generalizing m with
  | nil => exact ⟨m, rfl, by simpa using .refl⟩
  | cons i is ih =>
    cases ht : table m.page r i with
    | none =>
      have hpres : ¬Present (load m r i) := fun h => by
        simp [table, his i (by simp), show Present (word (m.page r) i) from h] at ht
      simp only [List.filterMap_cons_none ht] at V ⊢
      obtain ⟨m', heq, hkeep⟩ := ih V fun j hj => his j (by simp [hj])
      exact ⟨m', by rw [freeTables, if_neg hpres, heq], hkeep⟩
    | some t =>
      obtain ⟨-, hpres, hdiv⟩ := table_eq_some.mp ht
      simp only [List.filterMap_cons_some ht, ← Multiset.cons_coe, Multiset.cons_add] at V ⊢
      obtain ⟨m₁, hfree, hkeep, hpage⟩ := V.exists_kfree
      -- the page of the directory is still in hand, so its entries are read as before
      have hrt : r ≠ t := by
        rintro rfl
        have hnd := V.nodup
        simp only [stock, Multiset.zero_bind] at hnd
        exact (Multiset.nodup_cons.mp (Multiset.nodup_add.mp hnd).2.1).1 (by simp)
      have htable : table m₁.page r = table m.page r := table_congr (hpage r hrt)
      obtain ⟨m', heq, hkeep'⟩ := ih (m := m₁) (htable ▸ V.keeps hkeep) fun j hj => his j (by simp [hj])
      refine ⟨m', ?_, hkeep.trans (htable ▸ hkeep')⟩
      have hdiv' : PTE_ADDR (load m r i) / PGSIZE = t := PTE_ADDR_div.trans hdiv
      rw [freeTables, if_pos (show Present (load m r i) from hpres), hdiv', hfree]
      exact heq

theorem Valid.free (V : Valid K m {r} x) :
    ∃ m', freevm K m r = .ok m' ∧ Keeps owned m {r} x m' 0 x := by
  obtain ⟨m₁, heq₁, hclear⟩ := @Valid.dealloc _ _ _ _ KERNBASE 0 V le_rfl
  have hnone : users m₁.page r = 0 := by
    refine held_none fun n hn => ?_
    have hlow : n * PGSIZE < KERNBASE := by
      simp only [USERPAGES, PGSIZE, KERNBASE] at *
      omega
    have hmap : mapping m₁.page r n = none := by
      rw [hclear.mapping_eq]
      exact if_pos ⟨by simp [pagesOf], lt_pagesOf.mpr hlow⟩
    simp [frame, hmap]
  have hkeep := hclear.keeps.trans (keeps_unroot hnone)
  have htables : skeleton m₁.page r + x =
      ↑((List.range NPDENTRIES).filterMap (table m₁.page r)) + (r ::ₘ x) := by
    simp only [skeleton, held, Multiset.cons_add, Multiset.add_cons]
  rw [htables] at hkeep
  obtain ⟨m₂, heq₂, hkeep₂⟩ := (V.keeps hkeep).free_tables fun i hi => List.mem_range.mp hi
  obtain ⟨m₃, heq₃, hkeep₃, -⟩ := (V.keeps (hkeep.trans hkeep₂)).exists_kfree
  refine ⟨m₃, ?_, (hkeep.trans hkeep₂).trans hkeep₃⟩
  simp only [freevm, heq₁, heq₂, heq₃, bind, Except.bind]

end KThreads.Frames
