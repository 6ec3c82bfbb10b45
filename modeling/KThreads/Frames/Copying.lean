import KThreads.Frames.Growing

/-!
# Copying a directory

`copyuvm` reads the pages of one directory while it builds another. What it builds is a twin of
the first: the same flags, and pages of its own with the same contents.
-/

namespace KThreads.Frames

open Function (update update_of_ne update_self)
open Words Holdings Store

variable {K : Link} {m m' : Memory} {x : Multiset ℕ} {r d n p w sz fuel : ℕ}

/-- Page `j` of the directory `d` is a copy of that of `r`. -/
def Twin (c : ℕ → ℕ → UInt8) (r d j : ℕ) : Prop :=
  ∃ w p, mapping c r j = some w ∧ mapping c d j = some (pteOf p (PTE_FLAGS w)) ∧
    c p = c (w / PGSIZE)

section

variable (V : Valid K m ({d} + {r}) x)

include V

theorem Valid.left : Valid K m {d} x := by
  have h : Valid K m ({d} + {r}) (x + 0) := by rwa [add_zero]
  exact h.mono

theorem Valid.keeps_left {R : Multiset ℕ} (h : Keeps owned m {d} x m' R x) :
    Keeps owned m ({d} + {r}) x m' (R + {r}) x ∧
      ∀ q ∈ owned m.page r, m'.page q = m.page q := by
  have hnd : (m.stock owned ({d} + {r}) (x + 0)).Nodup := by
    rw [add_zero]
    exact V.nodup
  have hadd := h.add hnd owned_local
  rw [add_zero] at hadd
  exact ⟨hadd, fun q hq => h.page_own hnd (Multiset.mem_singleton_self r) hq⟩

end

theorem mapping_of_owned (h : ∀ q ∈ owned m.page r, m'.page q = m.page q) :
    mapping m'.page r = mapping m.page r :=
  mapping_congr fun q hq => h q (Multiset.mem_add.mpr (.inl hq))

theorem mem_owned_of_mapping (hn : n < USERPAGES) (h : mapping m.page r n = some w) :
    w / PGSIZE ∈ owned m.page r :=
  Multiset.mem_add.mpr (.inr (mem_users.mpr ⟨n, frame_eq_some.mpr ⟨hn, w, h, rfl⟩⟩))

theorem PTE_FLAGS_lt : PTE_FLAGS w < PGSIZE := Nat.mod_lt w (by decide)

/-- The pages of `d` below `n` are copies of those of `r`, and above there is the kernel half. -/
structure CopiedTo (K : Link) (c : ℕ → ℕ → UInt8) (r d n : ℕ) : Prop where
  twin : ∀ j < n, Twin c r d j
  rest : ∀ j, n ≤ j → mapping c d j = kernelMap (kmap K) j

theorem CopiedTo.next {m₁ : Memory} (h : CopiedTo K m.page r d n) (V : Valid K m ({d} + {r}) x)
    (hn : n < USERPAGES) (hw : mapping m.page r n = some w)
    (hold : ∀ q ∈ owned m.page r, m₁.page q = m.page q)
    (hmap : mapping m₁.page d = update (mapping m.page d) n (some (pteOf p (PTE_FLAGS w))))
    (hnew : m₁.page p = m.page (w / PGSIZE))
    (hpage : ∀ q, q ∉ m.stock skeleton {d} 0 → m₁.page q = m.page q) :
    CopiedTo K m₁.page r d (n + 1) where
  twin j hj := by
    have hmapr := mapping_of_owned hold
    by_cases hjn : j = n
    · refine ⟨w, p, by rw [hmapr, hjn, hw], by rw [hmap, hjn, update_self], ?_⟩
      rw [hnew, hold _ (mem_owned_of_mapping hn hw)]
    · obtain ⟨w', p', hw', hp', hsame⟩ := h.twin j (by omega)
      have hju : j < USERPAGES := by omega
      have hframe : frame m.page d j = some p' :=
        frame_eq_some.mpr ⟨hju, _, hp', pteOf_div PTE_FLAGS_lt⟩
      refine ⟨w', p', by rw [hmapr, hw'], by rw [hmap, update_of_ne hjn, hp'], ?_⟩
      rw [hold _ (mem_owned_of_mapping hju hw'), ← hsame]
      exact hpage p' (V.left.not_mem_skeleton
        (Multiset.mem_add.mpr (.inl (mem_users.mpr ⟨j, hframe⟩))))
  rest j hj := by
    rw [hmap, update_of_ne (by omega), h.rest j (by omega)]

theorem Valid.copy_loop (V : Valid K m ({d} + {r}) x) (hsz : sz ≤ KERNBASE)
    (hfuel : pagesOf sz ≤ n + fuel) (hn : n ≤ pagesOf sz) (hcopy : CopiedTo K m.page r d n) :
    ((∃ j < pagesOf sz, mapping m.page r j = none) ∧
      ∃ e, copyLoop K r sz d (fuel + 1) m (n * PGSIZE) = .error e) ∨
    (∃ m', copyLoop K r sz d (fuel + 1) m (n * PGSIZE) = .ok (none, m') ∧
      Keeps owned m ({d} + {r}) x m' {r} x ∧ ∀ q ∈ owned m.page r, m'.page q = m.page q) ∨
    ∃ m', copyLoop K r sz d (fuel + 1) m (n * PGSIZE) = .ok (some d, m') ∧
      Keeps owned m ({d} + {r}) x m' ({d} + {r}) x ∧
      (∀ q ∈ owned m.page r, m'.page q = m.page q) ∧ CopiedTo K m'.page r d (pagesOf sz) := by
  induction fuel generalizing m n with
  | zero =>
    obtain rfl : n = pagesOf sz := le_antisymm hn hfuel
    have ha : ¬pagesOf sz * PGSIZE < sz := fun h => absurd (lt_pagesOf.mpr h) (lt_irrefl _)
    exact .inr (.inr ⟨m, by rw [copyLoop, if_neg ha], .refl, fun _ _ => rfl, hcopy⟩)
  | succ fuel ih =>
    by_cases ha : n * PGSIZE < sz
    swap
    · obtain rfl : n = pagesOf sz := le_antisymm hn (not_lt.mp fun h => ha (lt_pagesOf.mp h))
      exact .inr (.inr ⟨m, by rw [copyLoop, if_neg ha], .refl, fun _ _ => rfl, hcopy⟩)
    have hnp : n < pagesOf sz := lt_pagesOf.mpr ha
    have hnu : n < USERPAGES := hnp.trans_le (pagesOf_le hsz)
    have hlow : n + 1 < 2 ^ 20 := by
      simp only [USERPAGES] at hnu
      omega
    rw [copyLoop, if_pos ha, walkpgdir_eq (by omega)]
    by_cases hw : mapping m.page r n = none
    · refine .inl ⟨⟨n, hnp, hw⟩, ?_⟩
      cases ht : table m.page r (n / 1024) with
      | none => exact ⟨_, rfl⟩
      | some t =>
        have hpres : ¬Present (load m t (n % 1024)) := fun h => by
          simp [mapping, ht, show Present (word (m.page t) (n % 1024)) from h] at hw
        exact ⟨.vm .copyuvmPage, by simp only [Option.map_some, hpres, not_false_eq_true, if_true]⟩
    obtain ⟨w, hw⟩ := Option.ne_none_iff_exists'.mp hw
    obtain ⟨t, ht, hload, hpres⟩ := mapping_eq_some.mp hw
    have hload' : load m t (n % 1024) = w := hload
    rw [ht]
    simp only [Option.map_some, hload', not_not.mpr hpres, if_false, PTE_ADDR_div]
    cases hfree : m.free with
    | nil =>
      obtain ⟨m₁, heq, hkeep⟩ := V.left.free
      obtain ⟨hkeep', hpage⟩ := V.keeps_left hkeep
      refine .inr (.inl ⟨m₁, ?_, by simpa using hkeep', hpage⟩)
      simp [kalloc_none hfree, heq, bind, Except.bind]
    | cons p free =>
      obtain ⟨c, hc⟩ : ∃ c, c = m.page (w / PGSIZE) := ⟨_, rfl⟩
      have htaken : ({ m with free, page := update m.page p (m.page (w / PGSIZE)) } : Memory) =
          taken m p free c := by rw [hc]; rfl
      simp only [kalloc_some hfree, htaken]
      rcases V.left.map_taken hfree hnu (c := c) PTE_FLAGS_lt with
        ⟨hsome, -⟩ | ⟨hnone, hfull, heq⟩ | ⟨hnone, m₁, heq, hkeep, hmap, hnew, hpage, -⟩
      · rw [hcopy.rest n le_rfl, kernelMap_user (kmap_fits K) hnu] at hsome
        simp at hsome
      · -- the page in hand is freed before the directory
        have hhand := V.left.keeps_taken hfree (c := c)
        obtain ⟨m₁, heq₁, hkeep₁, -⟩ := (V.left.keeps hhand).exists_kfree
        obtain ⟨m₂, heq₂, hkeep₂⟩ := (V.left.keeps (hhand.trans hkeep₁)).free
        obtain ⟨hkeep', hpage⟩ := V.keeps_left ((hhand.trans hkeep₁).trans hkeep₂)
        refine .inr (.inl ⟨m₂, ?_, by simpa using hkeep', hpage⟩)
        rw [heq]
        simp only [bind, Except.bind, heq₁, heq₂, Bool.false_eq_true, if_false]
      · obtain ⟨hkeep', hold⟩ := V.keeps_left hkeep
        have hown : owned m₁.page r = owned m.page r := owned_local _ _ r hold
        rw [heq]
        simp only [bind, Except.bind, if_true, next_page hlow, ← mapping_of_owned hold]
        rcases ih (V.keeps hkeep') (n := n + 1) (by omega) hnp
          (hcopy.next V hnu hw hold hmap (hnew.trans hc) hpage) with
          hpanic | ⟨m', heq', hkeep₂, hpage₂⟩ | ⟨m', heq', hkeep₂, hpage₂, hcopy'⟩
        · exact .inl hpanic
        · exact .inr (.inl ⟨m', heq', hkeep'.trans hkeep₂, fun q hq =>
            (hpage₂ q (by rwa [hown])).trans (hold q hq)⟩)
        · exact .inr (.inr ⟨m', heq', hkeep'.trans hkeep₂, fun q hq =>
            (hpage₂ q (by rwa [hown])).trans (hold q hq), hcopy'⟩)

theorem Valid.copy (V : Valid K m {r} x) (hsz : sz ≤ KERNBASE) :
    ((∃ j < pagesOf sz, mapping m.page r j = none) ∧ ∃ e, copyuvm K m r sz = .error e) ∨
    (∃ m', copyuvm K m r sz = .ok (none, m') ∧ Keeps owned m {r} x m' {r} x ∧
      ∀ q ∈ owned m.page r, m'.page q = m.page q) ∨
    ∃ d m', copyuvm K m r sz = .ok (some d, m') ∧ Keeps owned m {r} x m' ({d} + {r}) x ∧
      (∀ q ∈ owned m.page r, m'.page q = m.page q) ∧ CopiedTo K m'.page r d (pagesOf sz) := by
  have V₁ : Valid K m (0 + {r}) (x + 0) := by simpa using V
  have V₀ : Valid K m 0 x := V₁.mono
  have hnd : (m.stock owned (0 + {r}) (x + 0)).Nodup := by simpa using V.nodup
  rcases V₀.setup with ⟨m₁, heq, hkeep, -⟩ | ⟨d, m₁, heq, hkeep, -, hmap⟩
  · refine .inr (.inl ⟨m₁, by simp [copyuvm, heq, bind, Except.bind], ?_, fun q hq =>
      hkeep.page_own hnd (Multiset.mem_singleton_self r) hq⟩)
    simpa using hkeep.add hnd owned_local
  · have hold := fun q hq => hkeep.page_own hnd (Multiset.mem_singleton_self r) (p := q) hq
    have hkeep' : Keeps owned m {r} x m₁ ({d} + {r}) x := by simpa using hkeep.add hnd owned_local
    have hown : owned m₁.page r = owned m.page r := owned_local _ _ r hold
    have hcopy : copyuvm K m r sz = copyLoop K r sz d (1048575 + 1) m₁ (0 * PGSIZE) := by
      simp [copyuvm, heq, bind, Except.bind]
    have hstart : CopiedTo K m₁.page r d 0 :=
      ⟨fun j hj => absurd hj (Nat.not_lt_zero j), fun j _ => by rw [hmap]⟩
    rw [hcopy, ← mapping_of_owned hold]
    have hfuel : pagesOf sz ≤ 0 + 1048575 := (pagesOf_le hsz).trans (by decide)
    rcases (V.keeps hkeep').copy_loop hsz hfuel (Nat.zero_le _) hstart with
      hpanic | ⟨m', heq', hkeep₂, hpage⟩ | ⟨m', heq', hkeep₂, hpage, hcopy'⟩
    · exact .inl hpanic
    · exact .inr (.inl ⟨m', heq', hkeep'.trans hkeep₂, fun q hq =>
        (hpage q (by rwa [hown])).trans (hold q hq)⟩)
    · exact .inr (.inr ⟨d, m', heq', hkeep'.trans hkeep₂, fun q hq =>
        (hpage q (by rwa [hown])).trans (hold q hq), hcopy'⟩)

theorem Valid.size_le (V : Valid K m {r} x) (hall : ∀ j < pagesOf sz, (mapping m.page r j).isSome) :
    sz ≤ KERNBASE := by
  by_contra hgt
  have hsome : ∀ j < USERPAGES, (frame m.page r j).isSome := by
    intro j hj
    have hjs : j < pagesOf sz := by
      simp only [pagesOf, USERPAGES, KERNBASE] at *
      omega
    simpa [frame, hj] using hall j hjs
  have hcard : (users m.page r).card = USERPAGES := card_held_eq hsome
  have hsub : (users m.page r).toFinset ⊆ Finset.range 57344 := by
    intro p hp
    obtain ⟨j, hj⟩ := mem_users.mp (Multiset.mem_toFinset.mp hp)
    exact Finset.mem_range.mpr (V.ram_frame hj).lt
  have hle := Finset.card_le_card hsub
  rw [Multiset.toFinset_card_of_nodup V.users_nodup, hcard, Finset.card_range] at hle
  exact absurd hle (by decide)

end KThreads.Frames
