import KThreads.Frames.Machine

/-!
# Every page is in one place

In every run of calls on page directories, with `kalloc` failing at any of its calls, each page
is once in the free list, or it is a directory, or a page table of one entry of one directory, or
mapped at one user page of one directory. An `allocuvm` that fails leaves what is mapped as it
was, and `freevm` gives back all that a directory owns.
-/

namespace KThreads.Frames

open Store Transition

/-- What a page may be to a directory. -/
inductive Part
  | directory
  /-- The page table of the entry `i`. -/
  | table (i : ℕ)
  /-- Mapped at the user page `n`. -/
  | user (n : ℕ)

/-- Where a page may be. -/
inductive Place
  /-- The position `i` of the free list. -/
  | free (i : ℕ)
  /-- A part of the directory with the number `i`. -/
  | owned (i : ℕ) (part : Part)

def Part.Holds (c : ℕ → ℕ → UInt8) (r : ℕ) : Part → ℕ → Prop
  | directory, p => p = r
  | table i, p => Frames.table c r i = some p
  | user n, p => frame c r n = some p

def Space.Holds (s : Space) : Place → ℕ → Prop
  | .free i, p => s.mem.free[i]? = some p
  | .owned i part, p => ∃ r, s.dirs[i]? = some r ∧ part.Holds s.mem.page r p

/-- `freevm` of one directory after the other. -/
def freeAll (K : Link) : List ℕ → Memory → Except Stop Memory
  | [], m => .ok m
  | r :: rs, m => do
      let m ← freevm K m r
      freeAll K rs m

variable {K : Link} {m m' : Memory} {x : Multiset ℕ} {s : Space} {r p oldsz newsz : ℕ}

theorem Part.exists_holds {c : ℕ → ℕ → UInt8} : p ∈ owned c r ↔ ∃ part : Part, part.Holds c r p := by
  rw [owned, Multiset.mem_add, mem_skeleton, mem_users]
  constructor
  · rintro ((h | ⟨i, h⟩) | ⟨n, h⟩)
    · exact ⟨.directory, h⟩
    · exact ⟨.table i, h⟩
    · exact ⟨.user n, h⟩
  · rintro ⟨_ | i | n, h⟩
    · exact .inl (.inl h)
    · exact .inl (.inr ⟨i, h⟩)
    · exact .inr ⟨n, h⟩

theorem Valid.part_unique (V : Valid K m {r} x) {a b : Part} (ha : a.Holds m.page r p)
    (hb : b.Holds m.page r p) : a = b := by
  have hself : ∀ {i}, Frames.table m.page r i = some p → p ≠ r := fun h =>
    table_ne_self V.skeleton_nodup h
  have huser : ∀ {n}, frame m.page r n = some p → p ∉ skeleton m.page r := fun h hmem =>
    V.not_mem_skeleton (Multiset.mem_add.mpr (.inl (mem_users.mpr ⟨_, h⟩)))
      (mem_stock_own (Multiset.mem_singleton_self r) hmem)
  cases a with
  | directory =>
    cases b with
    | directory => rfl
    | table i => exact absurd ha (hself hb)
    | user n => exact absurd (mem_skeleton.mpr (.inl ha)) (huser hb)
  | table i =>
    cases b with
    | directory => exact absurd hb (hself ha)
    | table j => rw [table_inj V.skeleton_nodup ha hb]
    | user n => exact absurd (mem_skeleton.mpr (.inr ⟨i, ha⟩)) (huser hb)
  | user n =>
    cases b with
    | directory => exact absurd (mem_skeleton.mpr (.inl hb)) (huser ha)
    | table i => exact absurd (mem_skeleton.mpr (.inr ⟨i, hb⟩)) (huser ha)
    | user k => rw [frame_inj V.users_nodup ha hb]

theorem Space.exists_holds : p ∈ s.mem.stock owned ↑s.dirs 0 ↔ ∃ pl, s.Holds pl p := by
  simp only [stock, add_zero, Multiset.mem_add, Multiset.mem_coe, Multiset.mem_bind]
  constructor
  · rintro (h | ⟨r, hr, h⟩)
    · obtain ⟨i, hi⟩ := List.mem_iff_getElem?.mp h
      exact ⟨.free i, hi⟩
    · obtain ⟨i, hi⟩ := List.mem_iff_getElem?.mp hr
      obtain ⟨part, hpart⟩ := Part.exists_holds.mp h
      exact ⟨.owned i part, r, hi, hpart⟩
  · rintro ⟨i | ⟨i, part⟩, h⟩
    · exact .inl (List.mem_iff_getElem?.mpr ⟨i, h⟩)
    · obtain ⟨r, hr, hpart⟩ := h
      exact .inr ⟨r, List.mem_iff_getElem?.mpr ⟨i, hr⟩, Part.exists_holds.mpr ⟨part, hpart⟩⟩

theorem Valid.owner_unique {dirs : List ℕ} (V : Valid K m ↑dirs x) {i j q : ℕ}
    (hi : dirs[i]? = some r) (hj : dirs[j]? = some q) (hp : p ∈ owned m.page r)
    (hq : p ∈ owned m.page q) : i = j := by
  have hbind : ((↑dirs : Multiset ℕ).bind (owned m.page)).Nodup :=
    (Multiset.nodup_add.mp (Multiset.nodup_add.mp V.nodup).1).2.1
  have hpair : dirs.Pairwise fun a b => Disjoint (owned m.page a) (owned m.page b) :=
    Multiset.pairwise_coe_iff_pairwise.mp (Multiset.nodup_bind.mp hbind).2
  have hlt : ∀ {i j r q : ℕ}, dirs[i]? = some r → dirs[j]? = some q → p ∈ owned m.page r →
      p ∈ owned m.page q → ¬i < j := by
    intro i j r q hi hj hp hq hij
    obtain ⟨hil, rfl⟩ := List.getElem?_eq_some_iff.mp hi
    obtain ⟨hjl, rfl⟩ := List.getElem?_eq_some_iff.mp hj
    exact Multiset.disjoint_left.mp (List.pairwise_iff_getElem.mp hpair i j hil hjl hij) hp hq
  exact le_antisymm (not_lt.mp (hlt hj hi hq hp)) (not_lt.mp (hlt hi hj hp hq))

theorem Space.holds_unique (V : Valid K s.mem ↑s.dirs 0) {a b : Place} (ha : s.Holds a p)
    (hb : s.Holds b p) : a = b := by
  have hfree : s.mem.free.Nodup :=
    Multiset.coe_nodup.mp (Multiset.nodup_add.mp (Multiset.nodup_add.mp V.nodup).1).1
  have hdis : ∀ {i j : ℕ} {part}, s.mem.free[i]? = some p → ¬s.Holds (.owned j part) p := by
    rintro i j part hi ⟨r, hr, hpart⟩
    have hd := (Multiset.nodup_add.mp (Multiset.nodup_add.mp V.nodup).1).2.2
    refine Multiset.disjoint_left.mp hd (Multiset.mem_coe.mpr (List.mem_iff_getElem?.mpr ⟨i, hi⟩)) ?_
    exact Multiset.mem_bind.mpr ⟨r, Multiset.mem_coe.mpr (List.mem_iff_getElem?.mpr ⟨j, hr⟩),
      Part.exists_holds.mpr ⟨part, hpart⟩⟩
  cases a with
  | free i =>
    cases b with
    | free j =>
      have hlt := (List.getElem?_eq_some_iff.mp ha).1
      rw [(List.getElem?_inj hlt hfree).mp (ha.trans hb.symm)]
    | owned j part => exact absurd hb (hdis ha)
  | owned i part =>
    cases b with
    | free j => exact absurd ha (hdis hb)
    | owned j part' =>
      obtain ⟨r, hr, hpart⟩ := ha
      obtain ⟨q, hq, hpart'⟩ := hb
      obtain rfl : i = j := V.owner_unique hr hq (Part.exists_holds.mpr ⟨part, hpart⟩)
        (Part.exists_holds.mpr ⟨part', hpart'⟩)
      rw [hr, Option.some.injEq] at hq
      subst hq
      rw [(V.of_mem (List.mem_iff_getElem?.mpr ⟨i, hr⟩)).part_unique hpart hpart']

theorem Valid.alloc_fails (V : Valid K m {r} x)
    (hsz : ∀ n, oldsz ≤ n * PGSIZE → n * PGSIZE < KERNBASE → mapping m.page r n = none)
    (h : allocuvm K m r oldsz newsz = .ok (0, m')) :
    Keeps owned m {r} x m' {r} x ∧
      (∀ n, n * PGSIZE < KERNBASE → mapping m'.page r n = mapping m.page r n) ∧
      ∀ va < KERNBASE, peek m'.page r va = peek m.page r va := by
  -- reads follow from the mappings and from the contents of the mapped pages
  have hread : (∀ n, n * PGSIZE < KERNBASE → mapping m'.page r n = mapping m.page r n) →
      (∀ n p, frame m'.page r n = some p → m'.page p = m.page p) →
      ∀ va < KERNBASE, peek m'.page r va = peek m.page r va := by
    intro hmap hpage va hva
    have hn : va / PGSIZE * PGSIZE < KERNBASE := (Nat.div_mul_le_self va PGSIZE).trans_lt hva
    simp only [peek, ← hmap _ hn]
    cases hw : mapping m'.page r (va / PGSIZE) with
    | none => rfl
    | some w =>
      simp [hpage _ _ (frame_eq_some.mpr ⟨user_va hva, w, hw, rfl⟩)]
  have hnone : ∀ n, pagesOf oldsz ≤ n → n * PGSIZE < KERNBASE → mapping m.page r n = none :=
    fun n hn => hsz n (not_lt.mp fun h => absurd (lt_pagesOf.mpr h) (not_lt.mpr hn))
  rcases V.alloc with
    ⟨-, heq⟩ | ⟨-, hlt, heq⟩ | ⟨-, hle, ⟨-, heq⟩ | ⟨m₁, heq, hclear, -⟩ | ⟨m₁, heq, hgrow⟩⟩
  · rw [h, Except.ok.injEq, Prod.mk.injEq] at heq
    obtain ⟨-, rfl⟩ := heq
    exact ⟨.refl, fun _ _ => rfl, fun _ _ => rfl⟩
  · rw [h, Except.ok.injEq, Prod.mk.injEq] at heq
    omega
  · rw [h] at heq
    cases heq
  · rw [h, Except.ok.injEq, Prod.mk.injEq] at heq
    obtain ⟨-, rfl⟩ := heq
    have hmap : ∀ n, n * PGSIZE < KERNBASE → mapping m'.page r n = mapping m.page r n := by
      intro n hn
      by_cases hin : pagesOf oldsz ≤ n ∧ n < pagesOf newsz
      · rw [hclear.mapping_eq, hnone n hin.1 hn]
        exact if_pos hin
      · exact hclear.mapping_of_not hin
    exact ⟨hclear.keeps, hmap, hread hmap hclear.page_eq⟩
  · rw [h, Except.ok.injEq, Prod.mk.injEq] at heq
    obtain ⟨rfl, rfl⟩ := heq
    -- the size 0 is no failure, and nothing was done
    have hzero : pagesOf 0 = 0 := by simp [pagesOf]
    have hmap : ∀ n, mapping m'.page r n = mapping m.page r n := fun n =>
      hgrow.outside n (by omega)
    refine ⟨hgrow.keeps, fun n _ => hmap n, hread (fun n _ => hmap n) fun n p hp => ?_⟩
    exact hgrow.page_eq n p (by rwa [frame_of_mapping (funext hmap)] at hp)

theorem Valid.free_all {dirs : List ℕ} (V : Valid K m ↑dirs x) :
    ∃ m', freeAll K dirs m = .ok m' ∧ Keeps owned m ↑dirs x m' 0 x := by
  induction dirs generalizing m with
  | nil => exact ⟨m, rfl, .refl⟩
  | cons r rs ih =>
    obtain ⟨m₁, heq, hkeep⟩ := (V.of_mem (List.mem_cons_self ..)).free
    have hmem := V.keeps_mem (List.mem_cons_self ..) hkeep
    rw [List.erase_cons_head, zero_add] at hmem
    obtain ⟨m', heq', hkeep'⟩ := ih (V.keeps hmem)
    refine ⟨m', ?_, hmem.trans hkeep'⟩
    simp [freeAll, heq, heq', bind, Except.bind]

/-- In every state of every run each page is in exactly one place; an `allocuvm` that fails leaves
all user mappings as they were; `freevm` adds what the directory owns to the free list, once; and
when all directories are freed there are as many free pages as at the beginning. -/
theorem pages_conserved (F : FreePages K) (h : Reach (directories F) anyStep s) :
    (∀ p, (p ∈ F.list → ∃! pl, s.Holds pl p) ∧ (p ∉ F.list → ∀ pl, ¬s.Holds pl p)) ∧
    (∀ r ∈ s.dirs, ∀ k oldsz newsz m',
      (∀ n, oldsz ≤ n * PGSIZE → n * PGSIZE < KERNBASE → mapping s.mem.page r n = none) →
      allocuvm K (s.limit k) r oldsz newsz = .ok (0, m') →
      ∀ q ∈ s.dirs, (∀ n, n * PGSIZE < KERNBASE → mapping m'.page q n = mapping s.mem.page q n) ∧
        ∀ va < KERNBASE, peek m'.page q va = peek s.mem.page q va) ∧
    (∀ r ∈ s.dirs, ∃ m', freevm K s.mem r = .ok m' ∧
      (↑m'.free : Multiset ℕ) = ↑s.mem.free + owned s.mem.page r ∧
      (↑s.mem.free + owned s.mem.page r).Nodup) ∧
    ∃ m', freeAll K s.dirs s.mem = .ok m' ∧ m'.free.length = F.list.length := by
  obtain ⟨hstock, V⟩ := F.stock_of_reach h
  refine ⟨fun p => ⟨fun hp => ?_, fun hp pl hpl => ?_⟩, ?_, ?_, ?_⟩
  · rw [← Multiset.mem_coe, ← hstock] at hp
    obtain ⟨pl, hpl⟩ := Space.exists_holds.mp hp
    exact ⟨pl, hpl, fun pl' hpl' => Space.holds_unique V hpl' hpl⟩
  · exact hp (by rw [← Multiset.mem_coe, ← hstock]; exact Space.exists_holds.mpr ⟨pl, hpl⟩)
  · intro r hr k oldsz newsz m' hsz halloc q hq
    have V' := V.limit (k := k)
    obtain ⟨hkeep, hmap, hread⟩ := (V'.of_mem hr).alloc_fails hsz halloc
    by_cases hqr : q = r
    · exact hqr ▸ ⟨hmap, hread⟩
    · have hpage := (V'.keeps_one (Multiset.mem_coe.mpr hr) hkeep).2 q (Multiset.mem_coe.mpr hq) hqr
      exact ⟨fun n _ => congrFun (mapping_of_owned hpage) n, fun va hva => peek_congr hpage hva⟩
  · intro r hr
    obtain ⟨m', heq, hkeep⟩ := (V.of_mem hr).free
    have hs := hkeep.stock_eq
    have hnd := (V.of_mem hr).nodup
    simp only [stock, Multiset.singleton_bind, Multiset.zero_bind, add_zero] at hs hnd
    exact ⟨m', heq, hs, hnd⟩
  · obtain ⟨m', heq, hkeep⟩ := V.free_all
    have hs := hkeep.stock_eq.trans hstock
    simp only [stock, Multiset.zero_bind, add_zero] at hs
    exact ⟨m', heq, (Multiset.coe_eq_coe.mp hs).length_eq⟩

/-- A directory with three pages is freed. -/
theorem pages_conserved_image :
    ∃ s : Space, s.dirs.length = 1 ∧
      ∃ m', freeAll bootLink s.dirs s.mem = .ok m' ∧ m'.free.length = 4096 := by
  have hsz : 3 * PGSIZE < KERNBASE := by decide
  obtain ⟨d, m₁, m₂, hreach, -, -⟩ := boot_valid.reach_image hsz
    (by rw [boot_free]; decide)
  obtain ⟨-, -, -, m', heq, hlen⟩ := pages_conserved boot_valid.freePages hreach
  rw [Valid.list_freePages, boot_free] at hlen
  exact ⟨⟨m₂, [d]⟩, rfl, m', heq, hlen⟩

end KThreads.Frames
