import KThreads.Frames.UserBytes

/-!
# The image of a forked process

`copyuvm` either gives every page back and returns 0, or it returns a directory with the same
contents and flags below `sz` as the one it copies, with the kernel mappings of `setupkvm` and
nothing else, and with pages of its own: parent and child never see each other's writes.
-/

namespace KThreads.Frames

open Store Holdings

/-- The directory `d` is a copy of the directory `r` up to `sz`. -/
structure CopyOf (K : Link) (m m' : Memory) (r d sz : ℕ) : Prop where
  /-- The directory that was copied is as before. -/
  source : ∀ p ∈ owned m.page r, m'.page p = m.page p
  contents : ∀ va < sz, peek m'.page d va = peek m.page r va
  flags : ∀ va < sz, (mapping m'.page d (va / PGSIZE)).map PTE_FLAGS =
    (mapping m.page r (va / PGSIZE)).map PTE_FLAGS
  /-- Nothing else is mapped below `KERNBASE`. -/
  rest : ∀ n, sz ≤ n * PGSIZE → n * PGSIZE < KERNBASE → mapping m'.page d n = none
  /-- The kernel mappings are those that `setupkvm` makes, wherever it succeeds. -/
  kernel : ∀ m₀ d₀ m₀', Valid K m₀ 0 0 → setupkvm K m₀ = .ok (some d₀, m₀') →
    ∀ n, KERNBASE ≤ n * PGSIZE → mapping m'.page d n = mapping m₀'.page d₀ n
  /-- The pages of the copy are different from each other. -/
  distinct : ∀ i j p, frame m'.page d i = some p → frame m'.page d j = some p → i = j
  /-- They are no pages of the directory that was copied. -/
  separate : ∀ i p, frame m'.page d i = some p → p ∉ owned m'.page r
  /-- Of all later writes through the two directories, each sees its own. -/
  isolated : ∀ ws : List Write, (∀ w ∈ ws, (w.dir = r ∨ w.dir = d) ∧ w.va < KERNBASE) →
    ∀ q, q = r ∨ q = d → ∀ va < KERNBASE,
      peek (writes m' ws).page q va = peek (writes m' (ws.filter fun w => w.dir = q)).page q va

variable {K : Link} {m m' : Memory} {x : Multiset ℕ} {r d n w sz : ℕ}

theorem PTE_FLAGS_or (h : Present w) : PTE_FLAGS w ||| PTE_P = PTE_FLAGS w := by
  have hodd : PTE_FLAGS w % 2 = 1 := by
    rw [present_iff] at h
    simp only [PTE_FLAGS, PGSIZE]
    omega
  refine Nat.eq_of_testBit_eq fun i => ?_
  rw [Nat.testBit_or]
  cases i with
  | zero => simp [Nat.testBit_zero, hodd]
  | succ i => simp [Nat.testBit_succ, show PTE_P / 2 = 0 by decide]

theorem Twin.same {j : ℕ} (h : Twin m'.page r d j) :
    (mapping m'.page d j).map PTE_FLAGS = (mapping m'.page r j).map PTE_FLAGS ∧
      (mapping m'.page d j).map (fun w => m'.page (w / PGSIZE)) =
        (mapping m'.page r j).map fun w => m'.page (w / PGSIZE) := by
  obtain ⟨w, p, hw, hp, hsame⟩ := h
  rw [hw, hp]
  simp only [Option.map_some, Option.some.injEq]
  refine ⟨?_, ?_⟩
  · rw [PTE_FLAGS, pteOf_mod PTE_FLAGS_lt, PTE_FLAGS_or (present_of_mapping hw)]
  · rw [pteOf_div PTE_FLAGS_lt, hsame]

theorem Valid.mapping_setup (V : Valid K m 0 x) (h : setupkvm K m = .ok (some d, m')) :
    mapping m'.page d = kernelMap (kmap K) := by
  rcases V.setup with ⟨m₁, heq, -, -⟩ | ⟨d₁, m₁, heq, -, -, hmap⟩
  · rw [h] at heq
    simp at heq
  · rw [h, Except.ok.injEq, Prod.mk.injEq, Option.some.injEq] at heq
    obtain ⟨rfl, rfl⟩ := heq
    exact hmap

/-- `copyuvm` returns 0 and loses no page, or it returns a copy. -/
theorem copyuvm_copies (V : Valid K m {r} x)
    (hall : ∀ va < sz, (mapping m.page r (va / PGSIZE)).isSome) :
    (∃ m', copyuvm K m r sz = .ok (none, m') ∧ m'.free.Perm m.free ∧
      ∀ p ∈ owned m.page r, m'.page p = m.page p) ∨
    ∃ d m', copyuvm K m r sz = .ok (some d, m') ∧ CopyOf K m m' r d sz := by
  have hpages : ∀ j < pagesOf sz, (mapping m.page r j).isSome := by
    intro j hj
    have h := hall (j * PGSIZE) (lt_pagesOf.mp hj)
    rwa [Nat.mul_div_cancel j (by decide)] at h
  have hsz := V.size_le hpages
  rcases V.copy hsz with ⟨⟨j, hj, hnone⟩, -⟩ | ⟨m', heq, hkeep, hold⟩ | ⟨d, m', heq, hkeep, hold, hcopy⟩
  · have hsome := hpages j hj
    simp [hnone] at hsome
  · refine .inl ⟨m', heq, ?_, hold⟩
    have hstock := hkeep.stock_eq
    simp only [stock, Multiset.singleton_bind, owned_local _ _ r hold] at hstock
    exact Multiset.coe_eq_coe.mp (add_right_cancel (add_right_cancel hstock))
  · have V' := V.keeps hkeep
    have hmapr := mapping_of_owned hold
    have hpage : ∀ va < sz, va / PGSIZE < pagesOf sz := fun va hva =>
      lt_pagesOf.mpr ((Nat.div_mul_le_self va PGSIZE).trans_lt hva)
    refine .inr ⟨d, m', heq, hold, ?_, ?_, ?_, ?_, ?_, ?_, ?_⟩
    · intro va hva
      have hsame := (hcopy.twin _ (hpage va hva)).same.2
      have hread : ∀ q, peek m'.page q va =
          ((mapping m'.page q (va / PGSIZE)).map fun w => m'.page (w / PGSIZE)).map
            fun c => c (va % PGSIZE) := fun q => by simp [peek, Function.comp_def]
      rw [hread d, hsame, ← hread r]
      exact peek_congr hold (hva.trans_le hsz)
    · intro va hva
      rw [(hcopy.twin _ (hpage va hva)).same.1, hmapr]
    · intro n hn hlt
      have hnu : n < USERPAGES := by
        simp only [PGSIZE, KERNBASE, USERPAGES] at *
        omega
      rw [hcopy.rest n (not_lt.mp fun h => absurd (lt_pagesOf.mp h) (not_lt.mpr hn)),
        kernelMap_user (kmap_fits K) hnu]
    · intro m₀ d₀ m₀' V₀ hsetup n hn
      have hnu : USERPAGES ≤ n := by
        simp only [PGSIZE, KERNBASE, USERPAGES] at *
        omega
      rw [hcopy.rest n ((pagesOf_le hsz).trans hnu), V₀.mapping_setup hsetup]
    · intro i j p hi hj
      exact frame_inj V'.left.users_nodup hi hj
    · intro i p hi hp
      have hnd : (m'.stock owned ({d} + {r}) (x + 0)).Nodup := by
        rw [add_zero]
        exact V'.nodup
      refine not_mem_stock hnd (p := p) (by simpa using hp) ?_
      exact mem_stock_own (Multiset.mem_singleton_self d)
        (Multiset.mem_add.mpr (.inr (mem_users.mpr ⟨i, hi⟩)))
    · intro ws hws q hq va hva
      refine V'.peek_writes (by simpa [or_comm] using hq) (fun w hw => ?_) hva
      have hw' := hws w hw
      exact ⟨by simpa [or_comm] using hw'.1, hw'.2⟩

/-- A process with two pages is copied. -/
theorem copyuvm_copies_two :
    ∃ m r, (∀ va < 2 * PGSIZE, (mapping m.page r (va / PGSIZE)).isSome) ∧
      ((∃ m', copyuvm bootLink m r (2 * PGSIZE) = .ok (none, m') ∧ m'.free.Perm m.free ∧
        ∀ p ∈ owned m.page r, m'.page p = m.page p) ∨
      ∃ d m', copyuvm bootLink m r (2 * PGSIZE) = .ok (some d, m') ∧
        CopyOf bootLink m m' r d (2 * PGSIZE)) := by
  have hsz : 2 * PGSIZE < KERNBASE := by decide
  obtain ⟨r, m₁, m, -, hkeep, -, -, hgrow⟩ := boot_valid.exists_image hsz
    (by rw [boot_free]; decide)
  have hall : ∀ va < 2 * PGSIZE, (mapping m.page r (va / PGSIZE)).isSome := by
    intro va hva
    obtain ⟨p, hp⟩ := hgrow.inside (va / PGSIZE) (Nat.zero_le _)
      (lt_pagesOf.mpr ((Nat.div_mul_le_self va PGSIZE).trans_lt hva))
    simp [hp]
  exact ⟨m, r, hall, copyuvm_copies (boot_valid.keeps (hkeep.trans hgrow.keeps)) hall⟩

end KThreads.Frames
