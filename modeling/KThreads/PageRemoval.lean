import KThreads.Frames.Growing

/-!
# Taking pages away, one by one

The loop of `deallocuvm` jumps over the addresses of a missing page table. It has the effect of
the loop that visits every page: each page of the range that is present is freed once and its
entry is cleared, and every other entry stays as it is.
-/

namespace KThreads.Frames

open Function (update_of_ne update_self)
open Words Holdings Store

/-- Free the page at the page number `n` and clear its entry, if it is present. -/
def dropPage (K : Link) (r : ℕ) (m : Memory) (n : ℕ) : Except Stop Memory :=
  match (walkpgdir m r (n * PGSIZE) false).1 with
  | none => .ok m
  | some (pgtab, i) =>
      let pte := load m pgtab i
      if Present pte then
        if PTE_ADDR pte = 0 then .error .kfree
        else (kfree K m (PTE_ADDR pte / PGSIZE)).map fun m => store m pgtab i 0
      else .ok m

/-- Visit the pages one after the other. -/
def dropEach (K : Link) (r : ℕ) : List ℕ → Memory → Except Stop Memory
  | [], m => .ok m
  | n :: ns, m => (dropPage K r m n).bind (dropEach K r ns)

/-- The pages of `[PGROUNDUP(newsz), oldsz)`. -/
def pagesFrom (newsz oldsz : ℕ) : List ℕ :=
  List.range' (pagesOf newsz) (pagesOf oldsz - pagesOf newsz)

/-- The entry for the page number `n`, where there is a page table for it. -/
def entry (m : Memory) (r n : ℕ) : Option ℕ :=
  (table m.page r (n / 1024)).map fun t => load m t (n % 1024)

variable {K : Link} {m m' : Memory} {x : Multiset ℕ} {r n k hi oldsz newsz fuel j : ℕ} {ns : List ℕ}

theorem mem_pagesFrom (hsz : newsz ≤ oldsz) (hold : oldsz ≤ KERNBASE) :
    n ∈ pagesFrom newsz oldsz ↔ PGROUNDUP newsz ≤ n * PGSIZE ∧ n * PGSIZE < oldsz := by
  have hle : pagesOf newsz ≤ pagesOf oldsz := by
    simp only [pagesOf]
    omega
  rw [pagesFrom, List.mem_range'_1, ← lt_pagesOf, PGROUNDUP_pagesOf (by omega),
    Nat.mul_le_mul_right_iff (by decide)]
  omega

theorem dropPage_missing (hn : n < 2 ^ 20) (ht : table m.page r (n / 1024) = none) :
    dropPage K r m n = .ok m := by
  rw [dropPage, walkpgdir_eq hn, ht]
  rfl

theorem dropEach_missing (hhi : hi ≤ 2 ^ 20) (hnk : n ≤ k)
    (ht : ∀ j, n ≤ j → j < k → table m.page r (j / 1024) = none) :
    dropEach K r (List.range' n (hi - n)) m = dropEach K r (List.range' k (hi - k)) m := by
  induction hd : k - n generalizing n with
  | zero =>
    obtain rfl : n = k := by omega
    rfl
  | succ d ih =>
    rw [← ih (n := n + 1) (by omega) (fun j hj => ht j (by omega)) (by omega)]
    by_cases hlt : n < hi
    · obtain ⟨c, hc⟩ : ∃ c, hi - n = c + 1 := ⟨hi - n - 1, by omega⟩
      have hc' : hi - (n + 1) = c := by omega
      rw [hc, hc', List.range'_succ, dropEach,
        dropPage_missing (by omega) (ht n le_rfl (by omega))]
      rfl
    · rw [show hi - n = 0 by omega, show hi - (n + 1) = 0 by omega]
      rfl

theorem deallocLoop_eq (hold : oldsz ≤ KERNBASE) (hfuel : pagesOf oldsz ≤ n + fuel) :
    deallocLoop K r oldsz (fuel + 1) m (n * PGSIZE) =
      dropEach K r (List.range' n (pagesOf oldsz - n)) m := by
  have hstop : ∀ {k fuel m₁}, ¬k * PGSIZE < oldsz → deallocLoop K r oldsz (fuel + 1) m₁ (k * PGSIZE) =
      dropEach K r (List.range' k (pagesOf oldsz - k)) m₁ := by
    intro k fuel m₁ hk
    have hle : pagesOf oldsz - k = 0 := by
      rw [← lt_pagesOf] at hk
      omega
    rw [deallocLoop, if_neg hk, hle]
    rfl
  induction fuel generalizing m n with
  | zero => exact hstop fun h => absurd (lt_pagesOf.mpr h) (not_lt.mpr hfuel)
  | succ fuel ih =>
    by_cases ha : n * PGSIZE < oldsz
    swap
    · exact hstop ha
    have hlt := lt_pagesOf.mpr ha
    have hn : n < USERPAGES := hlt.trans_le (pagesOf_le hold)
    have hhi : pagesOf oldsz ≤ 2 ^ 20 := (pagesOf_le hold).trans (by decide)
    have hlow : n + 1 < 2 ^ 20 := by
      simp only [USERPAGES] at hn
      omega
    rw [deallocLoop, if_pos ha]
    cases ht : table m.page r (n / 1024) with
    | none =>
      -- The jump goes to the first page of the next page table.
      have hskip : PGADDR (PDX (n * PGSIZE) + 1) 0 0 = (n / 1024 + 1) * 1024 * PGSIZE := by
        rw [PDX_eq (by omega)]
        simp only [PGADDR, PGSIZE, USERPAGES] at *
        omega
      rw [walkpgdir_eq (by omega), ht, Option.map_none]
      dsimp only
      rw [hskip, ih (by omega)]
      refine (dropEach_missing hhi (by omega) fun j hj hjk => ?_).symm
      rw [show j / 1024 = n / 1024 by omega, ht]
    | some t =>
      obtain ⟨c, hc⟩ : ∃ c, pagesOf oldsz - n = c + 1 := ⟨pagesOf oldsz - n - 1, by omega⟩
      have hc' : pagesOf oldsz - (n + 1) = c := by omega
      have hih : ∀ m₁, deallocLoop K r oldsz (fuel + 1) m₁ ((n + 1) * PGSIZE) =
          dropEach K r (List.range' (n + 1) c) m₁ := by
        intro m₁
        rw [ih (by omega), hc']
      rw [hc, List.range'_succ, dropEach, dropPage, walkpgdir_eq (by omega), ht, Option.map_some]
      dsimp only
      rw [next_page hlow]
      by_cases hpres : Present (load m t (n % 1024))
      · rw [if_pos hpres, if_pos hpres]
        by_cases hzero : PTE_ADDR (load m t (n % 1024)) = 0
        · rw [if_pos hzero, if_pos hzero]
          rfl
        · rw [if_neg hzero, if_neg hzero]
          cases kfree K m (PTE_ADDR (load m t (n % 1024)) / PGSIZE) with
          | error e => rfl
          | ok m₁ => exact hih _
      · rw [if_neg hpres, if_neg hpres, hih]
        rfl

theorem dropEach_ne_diverges : dropEach K r ns m ≠ .error .diverges := by
  induction ns generalizing m with
  | nil => nofun
  | cons n ns ih =>
    have hpage : dropPage K r m n ≠ .error .diverges := by
      unfold dropPage kfree
      split
      · nofun
      · dsimp only
        split_ifs <;> nofun
    rw [dropEach]
    cases hdrop : dropPage K r m n with
    | error e =>
      rw [hdrop] at hpage
      exact hpage
    | ok m₁ => exact ih

theorem deallocuvm_eq (hsz : newsz ≤ oldsz) (hold : oldsz ≤ KERNBASE) :
    deallocuvm K m r oldsz newsz = (dropEach K r (pagesFrom newsz oldsz) m).map fun m => (newsz, m) := by
  by_cases heq : newsz = oldsz
  · subst heq
    rw [deallocuvm, if_pos le_rfl, pagesFrom, Nat.sub_self]
    rfl
  · have hfuel : pagesOf oldsz ≤ pagesOf newsz + 1048575 :=
      (pagesOf_le hold).trans ((show USERPAGES ≤ 1048575 by decide).trans (Nat.le_add_left _ _))
    rw [deallocuvm, if_neg (by omega), PGROUNDUP_pagesOf (by omega),
      show 2 ^ 20 = 1048575 + 1 by decide, deallocLoop_eq hold hfuel, pagesFrom]
    cases dropEach K r (List.range' (pagesOf newsz) (pagesOf oldsz - pagesOf newsz)) m <;> rfl

/-- An entry after the visit of its page. -/
def cleared (w : ℕ) : ℕ := if Present w then 0 else w

theorem mapping_entry : mapping m.page r n =
    (entry m r n).bind fun w => if Present w then some w else none := by
  rw [mapping, entry]
  cases table m.page r (n / 1024) <;> rfl

theorem frame_of_entry (h : entry m' r n = entry m r n) : frame m'.page r n = frame m.page r n := by
  rw [frame, frame, mapping_entry, mapping_entry, h]

theorem page_store_of_ne {t i w q : ℕ} (hq : q ≠ t) : (store m t i w).page q = m.page q :=
  update_of_ne hq _ _

theorem entry_store {t : ℕ} (hnd : (skeleton m.page r).Nodup)
    (ht : table m.page r (n / 1024) = some t) (hskel : ∀ q ∈ skeleton m.page r, m'.page q = m.page q) :
    table (store m' t (n % 1024) 0).page r = table m.page r ∧
      ∀ j, entry (store m' t (n % 1024) 0) r j = if j = n then some 0 else entry m r j := by
  have htable : table (store m' t (n % 1024) 0).page r = table m.page r := by
    refine table_congr ?_
    rw [page_store_of_ne (table_ne_self hnd ht).symm]
    exact hskel r (mem_skeleton.mpr (.inl rfl))
  refine ⟨htable, fun j => ?_⟩
  rw [entry, entry, htable]
  by_cases hj : j = n
  · subst hj
    have hword : load (store m' t (j % 1024) 0) t (j % 1024) = 0 := by
      simp only [load, store, update_self]
      exact word_setWord (by decide)
    rw [if_pos rfl, ht, Option.map_some, hword]
  rw [if_neg hj]
  refine Option.map_congr fun t' htj => ?_
  have hpage : m'.page t' = m.page t' := hskel t' (mem_skeleton.mpr (.inr ⟨_, htj⟩))
  by_cases htt : t' = t
  · subst htt
    have hsame : j / 1024 = n / 1024 := table_inj hnd htj ht
    simp only [load, store, update_self, hpage]
    exact word_setWord_of_ne (by omega)
  · rw [load, page_store_of_ne htt, hpage, load]

theorem Valid.drop_present (V : Valid K m {r} x) (hn : n < USERPAGES) {w : ℕ}
    (hentry : entry m r n = some w) (hpres : Present w) :
    ∃ m', dropPage K r m n = .ok m' ∧ Keeps owned m {r} x m' {r} x ∧
      table m'.page r = table m.page r ∧
      (∀ j, entry m' r j = if j = n then some 0 else entry m r j) ∧
      m'.free = w / PGSIZE :: m.free := by
  obtain ⟨t, ht, rfl⟩ : ∃ t, table m.page r (n / 1024) = some t ∧ load m t (n % 1024) = w := by
    simpa [entry] using hentry
  have hmap : mapping m.page r n = some (load m t (n % 1024)) := by
    rw [mapping_entry, hentry, Option.bind_some, if_pos hpres]
  have hframe : frame m.page r n = some (load m t (n % 1024) / PGSIZE) :=
    frame_eq_some.mpr ⟨hn, _, hmap, rfl⟩
  obtain ⟨m₁, hfree, hkeep, -, -⟩ := V.free_page hn ht hmap
  have hpos : PTE_ADDR (load m t (n % 1024)) ≠ 0 :=
    (Nat.mul_pos (V.ram_frame hframe).pos (by decide)).ne'
  have hm₁ : m₁ = { memset m (load m t (n % 1024) / PGSIZE) 1 with
      free := load m t (n % 1024) / PGSIZE :: m.free } := by
    unfold kfree at hfree
    split_ifs at hfree
    cases hfree
    rfl
  -- The page that is freed is none of the directory and its page tables.
  have hskel : ∀ q ∈ skeleton m.page r, m₁.page q = m.page q := by
    intro q hq
    have hne : q ≠ load m t (n % 1024) / PGSIZE := by
      rintro rfl
      exact V.not_mem_skeleton (Multiset.mem_add.mpr (.inl (mem_users.mpr ⟨n, hframe⟩)))
        (mem_stock_own (Multiset.mem_singleton_self r) hq)
    rw [hm₁]
    exact update_of_ne hne _ _
  obtain ⟨htable, hentries⟩ := entry_store V.skeleton_nodup ht hskel
  refine ⟨store m₁ t (n % 1024) 0, ?_, hkeep, htable, hentries, ?_⟩
  · rw [dropPage, walkpgdir_eq (hn.trans (by decide)), ht, Option.map_some]
    dsimp only
    rw [if_pos hpres, if_neg hpos, PTE_ADDR_div, hfree]
    rfl
  · rw [hm₁]
    rfl

theorem dropPage_absent (hn : n < USERPAGES) (habsent : ∀ w ∈ entry m r n, ¬Present w) :
    dropPage K r m n = .ok m := by
  have hlow : n < 2 ^ 20 := hn.trans (by decide)
  cases ht : table m.page r (n / 1024) with
  | none => exact dropPage_missing hlow ht
  | some t =>
    have hentry : entry m r n = some (load m t (n % 1024)) := by
      rw [entry, ht]
      rfl
    rw [dropPage, walkpgdir_eq hlow, ht, Option.map_some]
    exact if_neg (habsent _ hentry)

theorem Valid.drop_page (V : Valid K m {r} x) (hn : n < USERPAGES) :
    ∃ m', dropPage K r m n = .ok m' ∧ Keeps owned m {r} x m' {r} x ∧
      table m'.page r = table m.page r ∧
      (∀ j, entry m' r j = if j = n then (entry m r j).map cleared else entry m r j) ∧
      m'.free = (frame m.page r n).toList ++ m.free := by
  by_cases hpres : ∃ w, entry m r n = some w ∧ Present w
  · obtain ⟨w, hentry, hpres⟩ := hpres
    obtain ⟨m', hdrop, hkeep, htable, hentries, hfree⟩ := V.drop_present hn hentry hpres
    refine ⟨m', hdrop, hkeep, htable, fun j => ?_, ?_⟩
    · rw [hentries]
      split
      · next hj => rw [hj, hentry, Option.map_some, cleared, if_pos hpres]
      · rfl
    · rw [frame, if_pos hn, mapping_entry, hentry, Option.bind_some, if_pos hpres]
      exact hfree
  · have habsent : ∀ w ∈ entry m r n, ¬Present w := fun w hw hp => hpres ⟨w, hw, hp⟩
    refine ⟨m, dropPage_absent hn habsent, .refl, rfl, fun j => ?_, ?_⟩
    · split
      · next hj =>
        subst hj
        cases hentry : entry m r j with
        | none => rfl
        | some w => rw [Option.map_some, cleared, if_neg (habsent w hentry)]
      · rfl
    · rw [frame, mapping_entry]
      cases hentry : entry m r n with
      | none => simp
      | some w => simp [habsent w hentry]

theorem Valid.drop_each (V : Valid K m {r} x) (hns : ∀ n ∈ ns, n < USERPAGES) (hnd : ns.Nodup) :
    ∃ m', dropEach K r ns m = .ok m' ∧ table m'.page r = table m.page r ∧
      (∀ j, entry m' r j = if j ∈ ns then (entry m r j).map cleared else entry m r j) ∧
      m'.free = (ns.filterMap (frame m.page r)).reverse ++ m.free := by
  induction ns generalizing m with
  | nil => exact ⟨m, rfl, rfl, fun j => by simp, rfl⟩
  | cons n ns ih =>
    obtain ⟨hnot, hnd'⟩ := List.nodup_cons.mp hnd
    obtain ⟨m₁, hdrop, hkeep, htable, hentry, hfree⟩ := V.drop_page (hns n List.mem_cons_self)
    obtain ⟨m', hrest, htable', hentry', hfree'⟩ :=
      ih (V.keeps hkeep) (fun j hj => hns j (List.mem_cons_of_mem _ hj)) hnd'
    refine ⟨m', ?_, htable'.trans htable, fun j => ?_, ?_⟩
    · rw [dropEach, hdrop]
      exact hrest
    · rw [hentry', hentry]
      by_cases hj : j = n
      · subst hj
        rw [if_neg hnot, if_pos rfl, if_pos List.mem_cons_self]
      · rw [if_neg hj]
        simp [hj]
    · have hframes : ns.filterMap (frame m₁.page r) = ns.filterMap (frame m.page r) := by
        refine List.filterMap_congr fun j hj => frame_of_entry ?_
        rw [hentry, if_neg]
        rintro rfl
        exact hnot hj
      rw [hfree', hframes, hfree, List.filterMap_cons]
      cases frame m.page r n <;> simp

/-- **Jumping over missing page tables skips nothing.** For every memory and directory: `deallocuvm`
ends with what the loop over all pages of the range ends with. When the pages of the directory
and the free ones are different, every present page of the range is freed once and its entry
is cleared; no other entry changes. -/
theorem deallocuvm_visits_each (K : Link) (m : Memory) (r : ℕ) (hsz : newsz ≤ oldsz)
    (hold : oldsz ≤ KERNBASE) :
    deallocuvm K m r oldsz newsz =
        (dropEach K r (pagesFrom newsz oldsz) m).map (fun m => (newsz, m)) ∧
      deallocuvm K m r oldsz newsz ≠ .error .diverges ∧
      ∀ x, Valid K m {r} x → ∃ m', deallocuvm K m r oldsz newsz = .ok (newsz, m') ∧
        table m'.page r = table m.page r ∧
        (∀ j, entry m' r j = if PGROUNDUP newsz ≤ j * PGSIZE ∧ j * PGSIZE < oldsz then
          (entry m r j).map cleared else entry m r j) ∧
        m'.free = ((pagesFrom newsz oldsz).filterMap (frame m.page r)).reverse ++ m.free := by
  refine ⟨deallocuvm_eq hsz hold, ?_, fun x V => ?_⟩
  · rw [deallocuvm_eq hsz hold]
    have hends : dropEach K r (pagesFrom newsz oldsz) m ≠ .error .diverges := dropEach_ne_diverges
    cases hdrop : dropEach K r (pagesFrom newsz oldsz) m with
    | error e =>
      rw [hdrop] at hends
      exact fun h => hends (congrArg Except.error (Except.error.inj h))
    | ok m' => nofun
  · have hns : ∀ n ∈ pagesFrom newsz oldsz, n < USERPAGES := by
      intro n hn
      have hlt := lt_pagesOf.mpr ((mem_pagesFrom hsz hold).mp hn).2
      exact hlt.trans_le (pagesOf_le hold)
    obtain ⟨m', hdrop, htable, hentry, hfree⟩ := V.drop_each hns List.nodup_range'
    refine ⟨m', ?_, htable, fun j => ?_, hfree⟩
    · rw [deallocuvm_eq hsz hold, hdrop]
      rfl
    · rw [hentry]
      simp only [mem_pagesFrom hsz hold]

/-- A process of two pages shrinks to none. -/
theorem deallocuvm_visits_each_two :
    ∃ m r, Valid bootLink m {r} 0 ∧ ∃ m', deallocuvm bootLink m r (2 * PGSIZE) 0 = .ok (0, m') ∧
      m'.free = ((pagesFrom 0 (2 * PGSIZE)).filterMap (frame m.page r)).reverse ++ m.free := by
  obtain ⟨r, m₁, m, -, hkeep, -, -, hgrow⟩ := boot_valid.exists_image
    (show 2 * PGSIZE < KERNBASE by decide) (by rw [boot_free]; decide)
  have V := boot_valid.keeps (hkeep.trans hgrow.keeps)
  obtain ⟨m', hdealloc, -, -, hfree⟩ := (deallocuvm_visits_each bootLink m r
    (show 0 ≤ 2 * PGSIZE by decide) (show 2 * PGSIZE ≤ KERNBASE by decide)).2.2 0 V
  exact ⟨m, r, V, m', hdealloc, hfree⟩

end KThreads.Frames
