import KThreads.Frames.Kernel

/-!
# Growing a directory

`allocuvm` maps new pages, one after the other, and on the first failure takes all of them away
again. `clearpteu` takes the access of the user from one page.
-/

namespace KThreads.Frames

open Function (update update_of_ne update_self)
open Words Holdings Store

variable {K : Link} {m m' m₁ : Memory} {x : Multiset ℕ} {r n p perm hi oldsz newsz fuel : ℕ}

section

variable {free : List ℕ} {c : ℕ → UInt8}

/-- A page from the free list, with its contents. -/
def taken (m : Memory) (p : ℕ) (free : List ℕ) (c : ℕ → UInt8) : Memory :=
  ⟨update m.page p c, free⟩

variable (V : Valid K m {r} x) (hfree : m.free = p :: free)

include V hfree

theorem Valid.keeps_taken : Keeps owned m {r} x (taken m p free c) {r} (p ::ₘ x) := by
  have hkeep : Keeps owned m {r} x { m with free } {r} (p ::ₘ x) := keeps_kalloc hfree
  exact hkeep.trans ((V.keeps hkeep).keeps_write rfl fun q hq => update_of_ne hq _ _)

theorem Valid.page_taken {q : ℕ} (hq : q ∈ skeleton m.page r) :
    (taken m p free c).page q = m.page q := by
  refine update_of_ne ?_ _ _
  rintro rfl
  have hnd := V.nodup_skeleton
  simp only [stock, hfree, Multiset.singleton_bind, add_zero] at hnd
  exact Multiset.disjoint_left.mp (Multiset.nodup_add.mp hnd).2.2 (by simp) hq

theorem Valid.stock_taken :
    m.stock skeleton {r} 0 = p ::ₘ (taken m p free c).stock skeleton {r} 0 := by
  have hskel : skeleton (taken m p free c).page r = skeleton m.page r :=
    skeleton_local _ _ r fun q hq => V.page_taken hfree hq
  simp only [stock, hfree, Multiset.singleton_bind, hskel, ← Multiset.cons_coe, Multiset.cons_add]
  rfl

theorem Valid.mapping_taken : mapping (taken m p free c).page r = mapping m.page r :=
  mapping_congr fun _ hq => V.page_taken hfree hq

theorem Valid.map_taken (hn : n < USERPAGES) (hperm : perm < PGSIZE) :
    ((mapping m.page r n).isSome ∧
      mappages (taken m p free c) r (n * PGSIZE) PGSIZE (p * PGSIZE) perm =
        .error (.vm .remap)) ∨
    (mapping m.page r n = none ∧ free = [] ∧
      mappages (taken m p free c) r (n * PGSIZE) PGSIZE (p * PGSIZE) perm =
        .ok (false, taken m p free c)) ∨
    (mapping m.page r n = none ∧ ∃ m',
      mappages (taken m p free c) r (n * PGSIZE) PGSIZE (p * PGSIZE) perm = .ok (true, m') ∧
      Keeps owned m {r} x m' {r} x ∧
      mapping m'.page r = update (mapping m.page r) n (some (pteOf p perm)) ∧ m'.page p = c ∧
      (∀ q, q ∉ m.stock skeleton {r} 0 → m'.page q = m.page q) ∧
      (m.stock skeleton {r} 0).card = (m'.stock skeleton {r} 0).card + 1) := by
  have hlow : n < 2 ^ 20 := by
    simp only [USERPAGES] at hn
    omega
  have hkeep := V.keeps_taken hfree (c := c)
  have hstock := V.stock_taken hfree (c := c)
  have hmap := V.mapping_taken hfree (c := c)
  have V₁ := V.keeps hkeep
  have hp : p < 2 ^ 20 := (V.ram p (mem_stock_free (by simp [hfree]))).lt.trans (by decide)
  rw [mappages_page hlow]
  rcases V₁.map_page hlow hp hperm with ⟨hsome, heq⟩ | ⟨hnone, hfull, heq⟩ | ⟨hnone, m', heq, hmaps⟩
  · exact .inl ⟨hmap ▸ hsome, heq⟩
  · exact .inr (.inl ⟨hmap ▸ hnone, hfull, heq⟩)
  · refine .inr (.inr ⟨hmap ▸ hnone, m', heq, ?_, ?_, ?_, ?_, ?_⟩)
    · exact hkeep.trans (hmaps.keeps_user hn hnone hperm)
    · rw [hmaps.mapping_eq, hmap]
    · have hnot : p ∉ (taken m p free c).stock skeleton {r} 0 :=
        (Multiset.nodup_cons.mp (hstock ▸ V.nodup_skeleton)).1
      rw [hmaps.keeps.frame p hnot]
      exact update_self ..
    · intro q hq
      rw [hstock, Multiset.mem_cons, not_or] at hq
      rw [hmaps.keeps.frame q hq.2]
      exact update_of_ne hq.1 _ _
    · rw [hstock, Multiset.card_cons, hmaps.keeps.stock_eq]

end

/-- The pages from `n` to `hi`, of which none was mapped, are mapped. -/
structure Grows (m m' : Memory) (r n hi : ℕ) (x : Multiset ℕ) : Prop where
  keeps : Keeps owned m {r} x m' {r} x
  outside : ∀ j, ¬(n ≤ j ∧ j < hi) → mapping m'.page r j = mapping m.page r j
  fresh : ∀ j, n ≤ j → j < hi → mapping m.page r j = none
  inside : ∀ j, n ≤ j → j < hi → ∃ p, mapping m'.page r j = some (pteOf p (PTE_W ||| PTE_U))
  page_eq : ∀ j p, frame m.page r j = some p → m'.page p = m.page p

namespace Grows

theorem refl (h : hi ≤ n) : Grows m m r n hi x where
  keeps := .refl
  outside _ _ := rfl
  fresh _ hj hlt := absurd (hj.trans_lt hlt) (not_lt.mpr h)
  inside _ hj hlt := absurd (hj.trans_lt hlt) (not_lt.mpr h)
  page_eq _ _ _ := rfl

theorem cons (V : Valid K m {r} x) (h : Grows m₁ m' r (n + 1) hi x) (hn : n < hi)
    (hnone : mapping m.page r n = none) (hkeep : Keeps owned m {r} x m₁ {r} x)
    (hmap : mapping m₁.page r = update (mapping m.page r) n (some (pteOf p (PTE_W ||| PTE_U))))
    (hpage : ∀ q, q ∉ m.stock skeleton {r} 0 → m₁.page q = m.page q) :
    Grows m m' r n hi x where
  keeps := hkeep.trans h.keeps
  outside j hj := by
    rw [h.outside j (by omega), hmap, update_of_ne (by omega)]
  fresh j hj hlt := by
    by_cases hjn : j = n
    · rw [hjn, hnone]
    · have hmid := h.fresh j (by omega) hlt
      rwa [hmap, update_of_ne hjn] at hmid
  inside j hj hlt := by
    by_cases hjn : j = n
    · exact ⟨p, by rw [h.outside j (by omega), hmap, hjn, update_self]⟩
    · exact h.inside j (by omega) hlt
  page_eq j q hq := by
    have hne : j ≠ n := by
      rintro rfl
      simp [frame, hnone] at hq
    have hmid : frame m₁.page r j = some q := by
      simpa only [frame, hmap, update_of_ne hne] using hq
    rw [h.page_eq j q hmid]
    exact hpage q (V.not_mem_skeleton (Multiset.mem_add.mpr (.inl (mem_users.mpr ⟨j, hq⟩))))

end Grows

theorem Clears.of_mapped {lo : ℕ} (V : Valid K m {r} x) (h : Clears m₁ m' r lo hi x) (hlo : lo ≤ n)
    (hn : n < hi) (hkeep : Keeps owned m {r} x m₁ {r} x) {o : Option ℕ}
    (hmap : mapping m₁.page r = update (mapping m.page r) n o)
    (hpage : ∀ q, q ∉ m.stock skeleton {r} 0 → m₁.page q = m.page q) :
    Clears m m' r lo hi x where
  keeps := hkeep.trans h.keeps
  mapping_eq := by
    rw [h.mapping_eq, hmap]
    funext j
    by_cases hj : lo ≤ j ∧ j < hi
    · rw [if_pos hj, if_pos hj]
    · rw [if_neg hj, if_neg hj, update_of_ne (by omega)]
  page_eq j p hj := by
    have hmid := h.frame_sub hj
    have hne : j ≠ n := by
      rintro rfl
      have hnone : mapping m'.page r j = none := by
        rw [h.mapping_eq]
        exact if_pos ⟨hlo, hn⟩
      simp [frame, hnone] at hj
    have hold : frame m.page r j = some p := by
      simpa only [frame, hmap, update_of_ne hne] using hmid
    rw [h.page_eq j p hj]
    exact hpage p (V.not_mem_skeleton (Multiset.mem_add.mpr (.inl (mem_users.mpr ⟨j, hold⟩))))

theorem Clears.of_taken {lo : ℕ} {free : List ℕ} {c : ℕ → UInt8} {m₂ : Memory}
    (V : Valid K m {r} x) (hfree : m.free = p :: free)
    (h : Clears (taken m p free c) m₂ r lo hi (p ::ₘ x)) :
    ∃ m', kfree K m₂ p = .ok m' ∧ Clears m m' r lo hi x := by
  have hkeep := (V.keeps_taken hfree (c := c)).trans h.keeps
  have V₂ := V.keeps hkeep
  obtain ⟨m', heq, hkeep', hpage⟩ := V₂.exists_kfree
  have hmap : mapping m'.page r = mapping m₂.page r := by
    refine mapping_congr fun q hq => hpage q ?_
    rintro rfl
    exact V₂.not_mem_skeleton (p := q) (by simp) (mem_stock_own (Multiset.mem_singleton_self r) hq)
  refine ⟨m', heq, hkeep.trans hkeep', ?_, ?_⟩
  · rw [hmap, h.mapping_eq, V.mapping_taken hfree]
  · intro j q hq
    rw [frame_of_mapping hmap] at hq
    have hqp : q ≠ p := by
      rintro rfl
      have hnd := V₂.nodup
      rw [stock_one] at hnd
      exact Multiset.disjoint_left.mp (Multiset.nodup_add.mp (Multiset.nodup_add.mp hnd).2.1).2.2
        (mem_users.mpr ⟨j, hq⟩) (by simp)
    rw [hpage q hqp, h.page_eq j q hq]
    exact update_of_ne hqp _ _

theorem Valid.alloc_loop (V : Valid K m {r} x) (hnew : newsz < KERNBASE) (hold : pagesOf oldsz ≤ n)
    (hfuel : pagesOf newsz ≤ n + fuel) :
    ((∃ j, n ≤ j ∧ j < pagesOf newsz ∧ (mapping m.page r j).isSome) ∧
      allocLoop K r oldsz newsz (fuel + 1) m (n * PGSIZE) = .error (.vm .remap)) ∨
    (∃ m', allocLoop K r oldsz newsz (fuel + 1) m (n * PGSIZE) = .ok (0, m') ∧
      Clears m m' r (pagesOf oldsz) (pagesOf newsz) x ∧
      (m.stock skeleton {r} 0).card ≤ NPDENTRIES + 1 + (pagesOf newsz - n)) ∨
    ∃ m', allocLoop K r oldsz newsz (fuel + 1) m (n * PGSIZE) = .ok (newsz, m') ∧
      Grows m m' r n (pagesOf newsz) x := by
  induction fuel generalizing m n with
  | zero =>
    have ha : ¬n * PGSIZE < newsz := fun h => absurd (lt_pagesOf.mpr h) (not_lt.mpr hfuel)
    exact .inr (.inr ⟨m, by rw [allocLoop, if_neg ha], .refl hfuel⟩)
  | succ fuel ih =>
    by_cases ha : n * PGSIZE < newsz
    swap
    · exact .inr (.inr ⟨m, by rw [allocLoop, if_neg ha],
        .refl (not_lt.mp fun h => ha (lt_pagesOf.mp h))⟩)
    have hnp : n < pagesOf newsz := lt_pagesOf.mpr ha
    have hn : n < USERPAGES := hnp.trans_le (pagesOf_le hnew.le)
    have hlow : n + 1 < 2 ^ 20 := by
      simp only [USERPAGES] at hn
      omega
    rw [allocLoop, if_pos ha]
    cases hfree : m.free with
    | nil =>
      obtain ⟨m', heq, hclear⟩ := V.dealloc hnew.le
      refine .inr (.inl ⟨m', ?_, hclear, (card_stock_full hfree).trans (Nat.le_add_right _ _)⟩)
      simp [kalloc_none hfree, heq, bind, Except.bind]
    | cons p free =>
      have htaken : memset { m with free } p 0 = taken m p free fun _ => 0 := rfl
      simp only [kalloc_some hfree, htaken]
      have hperm : PTE_W ||| PTE_U < PGSIZE := by decide
      rcases V.map_taken hfree hn hperm with
        ⟨hsome, heq⟩ | ⟨hnone, hfull, heq⟩ | ⟨hnone, m₁, heq, hkeep, hmap, -, hpage, hcard⟩
      · refine .inl ⟨⟨n, le_rfl, hnp, hsome⟩, ?_⟩
        rw [heq]
        rfl
      · obtain ⟨m₂, heq₂, hclear⟩ := (V.keeps (V.keeps_taken hfree (c := fun _ => 0))).dealloc hnew.le
        obtain ⟨m', heq', hclear'⟩ := hclear.of_taken V hfree
        refine .inr (.inl ⟨m', by simp [heq, heq₂, heq', bind, Except.bind], hclear', ?_⟩)
        have hle : (Store.stock skeleton (taken m p free fun _ => 0) {r} 0).card ≤ NPDENTRIES + 1 :=
          card_stock_full hfull
        rw [V.stock_taken hfree (c := fun _ => 0), Multiset.card_cons]
        omega
      · simp only [heq, bind, Except.bind, if_true, next_page hlow]
        rcases ih (V.keeps hkeep) (n := n + 1) (by omega) (by omega) with
          ⟨⟨j, hj, hjp, hsome⟩, heq'⟩ | ⟨m', heq', hclear, hcard'⟩ | ⟨m', heq', hgrow⟩
        · rw [hmap, update_of_ne (by omega)] at hsome
          exact .inl ⟨⟨j, by omega, hjp, hsome⟩, heq'⟩
        · exact .inr (.inl ⟨m', heq', hclear.of_mapped V hold hnp hkeep hmap hpage, by omega⟩)
        · exact .inr (.inr ⟨m', heq', hgrow.cons V hnp hnone hkeep hmap hpage⟩)

theorem Valid.alloc (V : Valid K m {r} x) :
    (newsz ≥ KERNBASE ∧ allocuvm K m r oldsz newsz = .ok (0, m)) ∨
    (newsz < KERNBASE ∧ newsz < oldsz ∧ allocuvm K m r oldsz newsz = .ok (oldsz, m)) ∨
    (newsz < KERNBASE ∧ oldsz ≤ newsz ∧
      (((∃ j, pagesOf oldsz ≤ j ∧ j < pagesOf newsz ∧ (mapping m.page r j).isSome) ∧
        allocuvm K m r oldsz newsz = .error (.vm .remap)) ∨
      (∃ m', allocuvm K m r oldsz newsz = .ok (0, m') ∧
        Clears m m' r (pagesOf oldsz) (pagesOf newsz) x ∧
        (m.stock skeleton {r} 0).card ≤ NPDENTRIES + 1 + (pagesOf newsz - pagesOf oldsz)) ∨
      ∃ m', allocuvm K m r oldsz newsz = .ok (newsz, m') ∧
        Grows m m' r (pagesOf oldsz) (pagesOf newsz) x)) := by
  by_cases hnew : newsz ≥ KERNBASE
  · exact .inl ⟨hnew, if_pos hnew⟩
  by_cases hsz : newsz < oldsz
  · exact .inr (.inl ⟨not_le.mp hnew, hsz, by rw [allocuvm, if_neg hnew, if_pos hsz]⟩)
  have hlt : newsz < KERNBASE := not_le.mp hnew
  have hle : oldsz ≤ newsz := not_lt.mp hsz
  have hfuel : pagesOf newsz ≤ pagesOf oldsz + 1048575 :=
    (pagesOf_le hlt.le).trans ((show USERPAGES ≤ 1048575 by decide).trans (Nat.le_add_left _ _))
  refine .inr (.inr ⟨hlt, hle, ?_⟩)
  rw [allocuvm, if_neg hnew, if_neg hsz, PGROUNDUP_pagesOf (hle.trans hlt.le),
    show 2 ^ 20 = 1048575 + 1 by decide]
  exact V.alloc_loop hlt le_rfl hfuel

section

variable {w : ℕ}

/-- `pte & ~PTE_U` -/
def withoutUser (w : ℕ) : ℕ := w &&& (2 ^ 32 - 1 - PTE_U)

theorem withoutUser_div (hw : w < 2 ^ 32) : withoutUser w / PGSIZE = w / PGSIZE := by
  have h := Nat.and_div_two_pow (a := w) (b := 2 ^ 32 - 1 - PTE_U) (n := 12)
  rw [withoutUser, show PGSIZE = 2 ^ 12 by decide, h,
    show (2 ^ 32 - 1 - PTE_U) / 2 ^ 12 = 2 ^ 20 - 1 by decide, Nat.and_two_pow_sub_one_eq_mod]
  omega

theorem present_withoutUser : Present (withoutUser w) ↔ Present w := by
  rw [Present, Present, withoutUser, Nat.and_assoc,
    show (2 ^ 32 - 1 - PTE_U) &&& PTE_P = PTE_P by decide]

theorem withoutUser_and : withoutUser w &&& PTE_U = 0 := by
  rw [withoutUser, Nat.and_assoc, show (2 ^ 32 - 1 - PTE_U) &&& PTE_U = 0 by decide, Nat.and_zero]

theorem withoutUser_lt (hw : w < 2 ^ 32) : withoutUser w < 2 ^ 32 := Nat.and_le_left.trans_lt hw

theorem walkpgdir_page {va : ℕ} {alloc : Bool} :
    walkpgdir m r va alloc = walkpgdir m r (va / PGSIZE * PGSIZE) alloc := by
  have hpdx : PDX va = PDX (va / PGSIZE * PGSIZE) := by
    simp only [PDX, PGSIZE]
    omega
  have hptx : PTX va = PTX (va / PGSIZE * PGSIZE) := by
    simp only [PTX, PGSIZE]
    omega
  simp only [walkpgdir, hpdx, hptx]

theorem Valid.clear (V : Valid K m {r} x) {va : ℕ} (hva : va < 2 ^ 32) :
    (table m.page r (va / PGSIZE / 1024) = none ∧
      clearpteu m r va = .error (.vm .clearpteu)) ∨
    ∃ m', clearpteu m r va = .ok m' ∧ Keeps skeleton m {r} 0 m' {r} 0 ∧
      mapping m'.page r = update (mapping m.page r) (va / PGSIZE)
        ((mapping m.page r (va / PGSIZE)).map withoutUser) := by
  have hn : va / PGSIZE < 2 ^ 20 := by
    simp only [PGSIZE]
    omega
  cases ht : table m.page r (va / PGSIZE / 1024) with
  | none =>
    refine .inl ⟨rfl, ?_⟩
    rw [clearpteu, walkpgdir_page, walkpgdir_eq hn, ht]
    rfl
  | some t =>
    obtain ⟨w, hw⟩ : ∃ w, w = load m t (va / PGSIZE % 1024) := ⟨_, rfl⟩
    have hload : mapping m.page r (va / PGSIZE) = if Present w then some w else none := by
      rw [mapping, ht, hw]
      rfl
    have hlt : w < 2 ^ 32 := hw ▸ word_lt
    obtain ⟨hkeep, -, hmap⟩ := V.keeps_store ht (withoutUser_lt hlt)
    refine .inr ⟨store m t (va / PGSIZE % 1024) (withoutUser w), ?_, hkeep, ?_⟩
    · rw [clearpteu, walkpgdir_page, walkpgdir_eq hn, ht, hw]
      rfl
    · rw [hmap, hload]
      by_cases hpres : Present w
      · simp [hpres, present_withoutUser.mpr hpres]
      · simp [hpres, mt present_withoutUser.mp hpres]

theorem frame_clear (hmap : mapping m'.page r = update (mapping m.page r) n
    ((mapping m.page r n).map withoutUser)) : frame m'.page r = frame m.page r := by
  funext j
  by_cases hj : j = n
  · subst hj
    simp only [frame, hmap, update_self]
    cases hw : mapping m.page r j with
    | none => rfl
    | some w => simp [withoutUser_div (mapping_lt hw)]
  · simp only [frame, hmap, update_of_ne hj]

end

theorem Valid.exists_image {sz : ℕ} (V : Valid K m 0 x) (hsz : sz < KERNBASE)
    (hfree : NPDENTRIES + 1 + pagesOf sz < m.free.length) :
    ∃ d m₁ m₂, setupkvm K m = .ok (some d, m₁) ∧ Keeps owned m 0 x m₁ {d} x ∧
      mapping m₁.page d = kernelMap (kmap K) ∧ allocuvm K m₁ d 0 sz = .ok (sz, m₂) ∧
      Grows m₁ m₂ d 0 (pagesOf sz) x := by
  rcases V.setup with ⟨_, -, -, hshort⟩ | ⟨d, m₁, heq, hkeep, -, hmap⟩
  · omega
  have V₁ := V.keeps hkeep
  have hzero : pagesOf 0 = 0 := by simp [pagesOf]
  refine ⟨d, m₁, ?_⟩
  rcases V₁.alloc with
    ⟨hge, -⟩ | ⟨-, hneg, -⟩ | ⟨-, -, ⟨⟨j, -, hj, hsome⟩, -⟩ | ⟨_, -, -, hcard⟩ | ⟨m₂, heq₂, hgrow⟩⟩
  · exact absurd hge (not_le.mpr hsz)
  · exact absurd hneg (Nat.not_lt_zero sz)
  · rw [hmap, kernelMap_user (kmap_fits K) (hj.trans_le (pagesOf_le hsz.le))] at hsome
    simp at hsome
  · -- the pages that the kernel half has taken are page tables
    have hstock := congrArg Multiset.card hkeep.stock_eq
    have husers : users m₁.page d = 0 := held_none fun n hn => by
      simp [frame, hmap, kernelMap_user (kmap_fits K) hn]
    rw [stock_one, husers] at hstock
    simp only [stock, Multiset.zero_bind, Multiset.card_add, Multiset.coe_card,
      Multiset.card_zero] at hstock hcard
    omega
  · exact ⟨m₂, heq, hkeep, hmap, heq₂, hzero ▸ hgrow⟩

/-- A kernel of a little more than a megabyte. -/
def bootLink : Link where
  data := KERNBASE + 0x110000
  kend := KERNBASE + 0x120000
  data_page := by decide
  data_gt := by decide
  data_le := by decide
  data_lt := by decide

/-- Its memory, with sixteen megabytes of free pages. -/
def bootMemory : Memory := ⟨fun _ _ => 0, (List.range 4096).map (· + 1024)⟩

theorem boot_free : bootMemory.free.length = 4096 := by simp [bootMemory]

theorem boot_valid : Valid bootLink bootMemory 0 0 where
  nodup := by
    simp only [stock, Multiset.zero_bind, add_zero, Multiset.coe_nodup, bootMemory]
    exact List.nodup_range.map fun a b h => by simpa using h
  ram p hp := by
    simp only [stock, Multiset.zero_bind, add_zero, Multiset.mem_coe, bootMemory, List.mem_map,
      List.mem_range] at hp
    obtain ⟨q, hq, rfl⟩ := hp
    simp only [Link.Ram, bootLink, KERNBASE, PHYSTOP, PGSIZE]
    omega

end KThreads.Frames
