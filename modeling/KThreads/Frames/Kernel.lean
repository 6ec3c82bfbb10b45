import KThreads.Frames.Freeing

/-!
# The kernel half of a directory

`setupkvm` maps the ranges of `kmap`, which lie above `KERNBASE` and do not overlap, and nothing
else. If a page for a page table is missing it gives back what it has taken.
-/

namespace KThreads.Frames

open Function (update_of_ne update_self)
open Words Holdings Store

namespace Kmap

variable (k : Kmap) {c : ℕ → ℕ → UInt8}

/-- The first page of the range. -/
def first : ℕ := k.virt / PGSIZE

/-- The number of its pages. -/
def pages : ℕ := k.size / PGSIZE

/-- The physical page behind the first one. -/
def start : ℕ := k.physStart / PGSIZE

/-- The page number `n` lies in the range. -/
def Has (n : ℕ) : Prop := k.first ≤ n ∧ n < k.first + k.pages

instance (n : ℕ) : Decidable (k.Has n) := inferInstanceAs (Decidable (_ ∧ _))

/-- A range of whole pages above `KERNBASE`. -/
structure Fits : Prop where
  virt_eq : k.virt = k.first * PGSIZE
  phys_eq : k.physStart = k.start * PGSIZE
  size_eq : k.size = k.pages * PGSIZE
  pages_pos : 0 < k.pages
  kernel : USERPAGES ≤ k.first
  first_le : k.first + k.pages ≤ 2 ^ 20
  start_le : k.start + k.pages ≤ 2 ^ 20
  perm_lt : k.perm < PGSIZE

end Kmap

/-- What the ranges map. -/
def kernelMap (ks : List Kmap) (n : ℕ) : Option ℕ :=
  (ks.find? fun k => k.Has n).map fun k => pteOf (k.start + (n - k.first)) k.perm

variable {K : Link} {m m' : Memory} {R x : Multiset ℕ} {r n p : ℕ}

theorem Kmap.fits_of {k : Kmap} {a b c : ℕ} (hvirt : k.virt = a * PGSIZE)
    (hphys : k.physStart = b * PGSIZE) (hsize : k.size = c * PGSIZE) (hc : 0 < c)
    (ha : USERPAGES ≤ a) (hac : a + c ≤ 2 ^ 20) (hbc : b + c ≤ 2 ^ 20) (hperm : k.perm < PGSIZE) :
    k.Fits ∧ k.first = a ∧ k.pages = c := by
  have hfirst : k.first = a := by rw [Kmap.first, hvirt, Nat.mul_div_cancel _ (by decide)]
  have hpages : k.pages = c := by rw [Kmap.pages, hsize, Nat.mul_div_cancel _ (by decide)]
  have hstart : k.start = b := by rw [Kmap.start, hphys, Nat.mul_div_cancel _ (by decide)]
  refine ⟨⟨?_, ?_, ?_, ?_, ?_, ?_, ?_, hperm⟩, hfirst, hpages⟩
  · rw [hfirst, hvirt]
  · rw [hstart, hphys]
  · rw [hpages, hsize]
  · rwa [hpages]
  · rwa [hfirst]
  · rwa [hfirst, hpages]
  · rwa [hstart, hpages]

section

variable (K)

theorem data_page_eq : ∃ d, K.data = d * PGSIZE ∧ 524544 < d ∧ d < 581632 := by
  have h₁ := K.data_page
  have h₂ := K.data_gt
  have h₃ := K.data_lt
  simp only [KERNLINK, KERNBASE, EXTMEM, PHYSTOP, PGSIZE] at *
  exact ⟨K.data / 4096, by omega, by omega, by omega⟩

theorem kmap_ranges : ∃ d, 524544 < d ∧ d < 581632 ∧
    List.Forall₂ (fun k ac => k.Fits ∧ k.first = ac.1 ∧ k.pages = ac.2) (kmap K)
      [(524288, 256), (524544, d - 524544), (d, 581632 - d), (1040384, 8192)] := by
  obtain ⟨d, hd, hgt, hlt⟩ := data_page_eq K
  refine ⟨d, hgt, hlt, ?_⟩
  refine .cons ?_ (.cons ?_ (.cons ?_ (.cons ?_ .nil)))
  · exact Kmap.fits_of (b := 0) (by decide) (by decide) (by decide) (by decide) (by decide)
      (by decide) (by decide) (by decide)
  · refine Kmap.fits_of (b := 256) (show KERNLINK = 524544 * PGSIZE by decide)
      (show KERNLINK - KERNBASE = 256 * PGSIZE by decide) ?_ (by omega)
      (show USERPAGES ≤ 524544 by decide) (by omega) (by omega) (show 0 < PGSIZE by decide)
    show (K.data - KERNBASE + (2 ^ 32 - (KERNLINK - KERNBASE))) % 2 ^ 32 = _
    rw [hd, show KERNLINK - KERNBASE = 1048576 by decide]
    simp only [KERNBASE, PGSIZE]
    omega
  · refine Kmap.fits_of (b := d - 524288) hd ?_ ?_ (by omega) (by simp only [USERPAGES]; omega)
      (by omega) (by omega) (show PTE_W < PGSIZE by decide)
    · simp only [hd, KERNBASE, PGSIZE]
      omega
    · simp only [Kmap.size, hd, KERNBASE, PHYSTOP, PGSIZE]
      omega
  · exact Kmap.fits_of (b := 1040384) (by decide) (by decide) (by decide) (by decide) (by decide)
      (by decide) (by decide) (by decide)

theorem kmap_fits : ∀ k ∈ kmap K, k.Fits := by
  obtain ⟨d, -, -, h⟩ := kmap_ranges K
  simp only [kmap, List.forall₂_cons] at h
  simp only [kmap, List.mem_cons, List.not_mem_nil, or_false, forall_eq_or_imp, forall_eq]
  exact ⟨h.1.1, h.2.1.1, h.2.2.1.1, h.2.2.2.1.1⟩

theorem kmap_disjoint : (kmap K).Pairwise fun k l => ∀ n, k.Has n → ¬l.Has n := by
  obtain ⟨d, hgt, hlt, h⟩ := kmap_ranges K
  simp only [kmap, List.forall₂_cons] at h
  obtain ⟨⟨-, h₁, h₁'⟩, ⟨-, h₂, h₂'⟩, ⟨-, h₃, h₃'⟩, ⟨-, h₄, h₄'⟩, -⟩ := h
  simp only [kmap, List.pairwise_cons, List.mem_cons, List.not_mem_nil, or_false, forall_eq_or_imp,
    forall_eq, Kmap.Has, h₁, h₁', h₂, h₂', h₃, h₃', h₄, h₄']
  refine ⟨⟨?_, ?_, ?_⟩, ⟨?_, ?_⟩, ?_, ?_⟩ <;> grind

end

theorem kernelMap_append {ks : List Kmap} {k : Kmap}
    (hdis : ∀ l ∈ ks, ∀ n, l.Has n → ¬k.Has n) :
    kernelMap (ks ++ [k]) = fun n =>
      if k.Has n then some (pteOf (k.start + (n - k.first)) k.perm) else kernelMap ks n := by
  funext n
  by_cases hk : k.Has n
  · have hnone : ks.find? (fun l => l.Has n) = none := by
      rw [List.find?_eq_none]
      intro l hl hln
      exact hdis l hl n (by simpa using hln) hk
    simp [kernelMap, List.find?_append, hnone, hk]
  · simp [kernelMap, List.find?_append, hk]

theorem kernelMap_user {ks : List Kmap} (hfits : ∀ k ∈ ks, k.Fits) (hn : n < USERPAGES) :
    kernelMap ks n = none := by
  have hnone : ks.find? (fun k => k.Has n) = none := by
    rw [List.find?_eq_none]
    intro k hk hkn
    have hge := (hfits k hk).kernel
    have hle : k.first ≤ n := (show k.Has n by simpa using hkn).1
    omega
  simp [kernelMap, hnone]

theorem kernelMap_flags {w : ℕ} (h : kernelMap (kmap K) n = some w) : w &&& PTE_U = 0 := by
  obtain ⟨k, hk, rfl⟩ := Option.map_eq_some_iff.mp h
  have hmem := List.mem_of_find?_eq_some hk
  have hperm : ∀ k ∈ kmap K, k.perm = PTE_W ∨ k.perm = 0 := by simp [kmap]
  rw [and_PTE_U, pteOf_mod (kmap_fits K k hmem).perm_lt]
  rcases hperm k hmem with h | h <;> rw [h] <;> decide

theorem Valid.map_range (V : Valid K m {r} x) {k : Kmap} (hk : k.Fits)
    (hnone : ∀ n, k.Has n → mapping m.page r n = none) :
    (∃ m', mappages m r k.virt k.size k.physStart k.perm = .ok (false, m') ∧
      Keeps skeleton m {r} 0 m' {r} 0 ∧ m'.free = [] ∧
      ∀ n < USERPAGES, mapping m'.page r n = mapping m.page r n) ∨
    ∃ m', mappages m r k.virt k.size k.physStart k.perm = .ok (true, m') ∧
      Keeps skeleton m {r} 0 m' {r} 0 ∧ (Tight m.page r → Tight m'.page r) ∧
      mapping m'.page r = fun n =>
        if k.Has n then some (pteOf (k.start + (n - k.first)) k.perm) else mapping m.page r n := by
  obtain ⟨c, hc⟩ : ∃ c, k.pages = c + 1 := ⟨k.pages - 1, by have := hk.pages_pos; omega⟩
  have hfirst := hk.first_le
  have hstart := hk.start_le
  have hdown : PGROUNDDOWN k.virt = k.first * PGSIZE := by
    rw [hk.virt_eq]
    simp only [PGROUNDDOWN, PGSIZE]
    omega
  have hlast : PGROUNDDOWN ((k.virt + k.size + (2 ^ 32 - 1)) % 2 ^ 32) = (k.first + c) * PGSIZE := by
    rw [hk.virt_eq, hk.size_eq]
    simp only [PGROUNDDOWN, PGSIZE]
    omega
  have hhas : ∀ n, k.Has n ↔ k.first ≤ n ∧ n ≤ k.first + c := by
    intro n
    simp only [Kmap.Has, hc]
    omega
  rw [mappages, hdown, hlast, hk.phys_eq]
  simp only [hhas]
  exact V.map_loop hk.kernel (by omega) (by omega) hk.perm_lt (by omega) fun n hn hnc =>
    hnone n ((hhas n).mpr ⟨hn, hnc⟩)

theorem card_skeleton : (skeleton c r).card ≤ NPDENTRIES + 1 := by
  have hle : (held NPDENTRIES (table c r)).card ≤ NPDENTRIES := card_held_le
  simp only [skeleton, Multiset.card_cons]
  omega

theorem card_stock_full (h : m.free = []) : (m.stock skeleton {r} 0).card ≤ NPDENTRIES + 1 := by
  simp only [stock, h, Multiset.singleton_bind, Multiset.coe_nil, zero_add, add_zero]
  exact card_skeleton

theorem Valid.setup_loop {pre ks : List Kmap} (V : Valid K m {r} x)
    (hfits : ∀ k ∈ ks, k.Fits) (hdis : (pre ++ ks).Pairwise fun k l => ∀ n, k.Has n → ¬l.Has n)
    (hmap : mapping m.page r = kernelMap pre) :
    (∃ m', setupLoop K r ks m = .ok (none, m') ∧ Keeps owned m {r} x m' 0 x ∧
      (m.stock skeleton {r} 0).card ≤ NPDENTRIES + 1) ∨
    ∃ m', setupLoop K r ks m = .ok (some r, m') ∧ Keeps owned m {r} x m' {r} x ∧
      (Tight m.page r → Tight m'.page r) ∧ mapping m'.page r = kernelMap (pre ++ ks) := by
  induction ks generalizing m pre with
  | nil => exact .inr ⟨m, rfl, .refl, id, by simpa using hmap⟩
  | cons k ks ih =>
    have hpre : ∀ l ∈ pre, ∀ n, l.Has n → ¬k.Has n := fun l hl =>
      (List.pairwise_append.mp hdis).2.2 l hl k (by simp)
    have hfind : ∀ n, k.Has n → pre.find? (fun l => l.Has n) = none := by
      intro n hn
      rw [List.find?_eq_none]
      intro l hl hln
      exact hpre l hl n (by simpa using hln) hn
    have hnone : ∀ n, k.Has n → mapping m.page r n = none := fun n hn => by
      simp [hmap, kernelMap, hfind n hn]
    have hk := hfits k (by simp)
    rcases V.map_range hk hnone with ⟨m₁, heq, hskel, hfree, huser⟩ | ⟨m₁, heq, hskel, htight, hmap₁⟩
    · have hkeep : Keeps owned m {r} x m₁ {r} x := keeps_owned hskel (by rw [users_eq huser])
      obtain ⟨m₂, heq₂, hkeep₂⟩ := (V.keeps hkeep).free
      refine .inl ⟨m₂, ?_, hkeep.trans hkeep₂, hskel.stock_eq ▸ card_stock_full hfree⟩
      simp [setupLoop, heq, heq₂, bind, Except.bind]
    · have huser : ∀ n < USERPAGES, mapping m₁.page r n = mapping m.page r n := by
        intro n hn
        rw [hmap₁]
        refine if_neg fun hhas => ?_
        have := hk.kernel.trans hhas.1
        omega
      have hkeep : Keeps owned m {r} x m₁ {r} x := keeps_owned hskel (by rw [users_eq huser])
      rw [hmap, ← kernelMap_append hpre] at hmap₁
      have hstep : setupLoop K r (k :: ks) m = setupLoop K r ks m₁ := by
        simp [setupLoop, heq, bind, Except.bind]
      rw [hstep, ← hskel.stock_eq]
      rcases ih (V.keeps hkeep) (fun l hl => hfits l (by simp [hl])) (by simpa using hdis) hmap₁ with
        ⟨m₂, heq₂, hkeep₂, hcard⟩ | ⟨m₂, heq₂, hkeep₂, htight₂, hmap₂⟩
      · exact .inl ⟨m₂, heq₂, hkeep.trans hkeep₂, hcard⟩
      · exact .inr ⟨m₂, heq₂, hkeep.trans hkeep₂, htight₂ ∘ htight, by simpa using hmap₂⟩

theorem table_zero (h : c r = fun _ => 0) : table c r = fun _ => none := by
  funext i
  simp [table, h, word_zero]

theorem mapping_zero (h : c r = fun _ => 0) :
    mapping c r = fun _ => none := by
  funext n
  simp [mapping, table_zero h]

theorem skeleton_zero (h : c r = fun _ => 0) : skeleton c r = {r} := by
  rw [skeleton, table_zero h, held_none fun _ _ => rfl]
  rfl

theorem users_zero (h : mapping c r = fun _ => none) : users c r = 0 :=
  held_none fun n hn => by simp [frame, h]

theorem keeps_root (h : m.page r = fun _ => 0) : Keeps owned m 0 (r ::ₘ x) m {r} x where
  stock_eq := by
    simp only [stock, Multiset.singleton_bind, Multiset.zero_bind, owned, skeleton_zero h,
      users_zero (mapping_zero h), ← Multiset.singleton_add]
    abel
  frame _ _ := rfl

theorem Valid.setup (V : Valid K m 0 x) :
    (∃ m', setupkvm K m = .ok (none, m') ∧ Keeps owned m 0 x m' 0 x ∧
      m.free.length ≤ NPDENTRIES + 1) ∨
    ∃ d m', setupkvm K m = .ok (some d, m') ∧ Keeps owned m 0 x m' {d} x ∧ Tight m'.page d ∧
      mapping m'.page d = kernelMap (kmap K) := by
  cases hfree : m.free with
  | nil =>
    exact .inl ⟨m, by simp [setupkvm, kalloc_none hfree], .refl, by simp⟩
  | cons d free =>
    have hkeep : Keeps owned m 0 x { m with free } 0 (d ::ₘ x) := keeps_kalloc hfree
    have hwrite : Keeps owned { m with free } 0 (d ::ₘ x) (memset { m with free } d 0) 0 (d ::ₘ x) :=
      (V.keeps hkeep).keeps_write rfl fun q hq => update_of_ne hq _ _
    have hzero : (memset { m with free } d 0).page d = fun _ => 0 := update_self ..
    have hroot := (hkeep.trans hwrite).trans (keeps_root hzero)
    have heq : setupkvm K m = setupLoop K d (kmap K) (memset { m with free } d 0) := by
      simp [setupkvm, kalloc_some hfree]
    rw [heq]
    rcases @Valid.setup_loop _ _ _ _ [] _ (V.keeps hroot) (kmap_fits K) (kmap_disjoint K)
      (by rw [mapping_zero hzero]; rfl) with ⟨m', heq', hkeep', hcard⟩ | ⟨m', heq', hkeep', htight, hmap⟩
    · refine .inl ⟨m', heq', hroot.trans hkeep', ?_⟩
      simp only [stock, Multiset.singleton_bind, skeleton_zero hzero] at hcard
      simpa [memset] using hcard
    · exact .inr ⟨d, m', heq', hroot.trans hkeep', htight fun i hi => by simp [table_zero hzero] at hi,
        hmap⟩

end KThreads.Frames
