import KThreads.Frames.UserBytes
import KThreads.Lib.Transition

/-!
# Runs of calls on page directories

The state is the memory and the directories in use. A step is one call on them, or a store of a
user program. During a call only some of the free pages may be available, so that `kalloc` fails
at any point.
-/

namespace KThreads.Frames

open Store

inductive Call
  | setupkvm
  | allocuvm (pgdir oldsz newsz : ℕ)
  | deallocuvm (pgdir oldsz newsz : ℕ)
  | clearpteu (pgdir uva : ℕ)
  | copyuvm (pgdir sz : ℕ)
  | freevm (pgdir : ℕ)
  /-- A user program stores a byte. -/
  | store (pgdir va : ℕ) (b : UInt8)

/-- The memory and the directories after a call that returns, for sizes up to `KERNBASE`. -/
def perform (K : Link) (m : Memory) (dirs : List ℕ) : Call → Option (Memory × List ℕ)
  | .setupkvm =>
      match setupkvm K m with
      | .ok (some d, m) => some (m, d :: dirs)
      | .ok (none, m) => some (m, dirs)
      | .error _ => none
  | .allocuvm r oldsz newsz =>
      if r ∈ dirs then (allocuvm K m r oldsz newsz).toOption.map fun v => (v.2, dirs) else none
  | .deallocuvm r oldsz newsz =>
      if r ∈ dirs ∧ oldsz ≤ KERNBASE then
        (deallocuvm K m r oldsz newsz).toOption.map fun v => (v.2, dirs)
      else none
  | .clearpteu r uva =>
      if r ∈ dirs ∧ uva < 2 ^ 32 then (clearpteu m r uva).toOption.map fun m => (m, dirs) else none
  | .copyuvm r sz =>
      if r ∈ dirs ∧ sz ≤ KERNBASE then
        match copyuvm K m r sz with
        | .ok (some d, m) => some (m, d :: dirs)
        | .ok (none, m) => some (m, dirs)
        | .error _ => none
      else none
  | .freevm r =>
      if r ∈ dirs then (freevm K m r).toOption.map fun m => (m, dirs.erase r) else none
  | .store r va b => if r ∈ dirs ∧ va < KERNBASE then some (poke m r va b, dirs) else none

/-- The memory and the directories in use. -/
structure Space where
  mem : Memory
  dirs : List ℕ

/-- The memory with the first `k` pages of the free list. -/
def Space.limit (s : Space) (k : ℕ) : Memory := { s.mem with free := s.mem.free.take k }

/-- A call for which `k` pages are available. -/
def Space.next (K : Link) (s : Space) (l : Call × ℕ) : Option Space :=
  (perform K (s.limit l.2) s.dirs l.1).map fun v =>
    ⟨{ v.1 with free := v.1.free ++ s.mem.free.drop l.2 }, v.2⟩

/-- The free pages after `kinit2`. -/
structure FreePages (K : Link) where
  list : List ℕ
  nodup : list.Nodup
  ram : ∀ p ∈ list, K.Ram p

/-- The runs from a memory without directories. -/
def directories {K : Link} (F : FreePages K) : Transition.System Space (Call × ℕ) where
  init s := s.dirs = [] ∧ s.mem.free = F.list
  step s l s' := s.next K l = some s'

variable {K : Link} {m m' : Memory} {x : Multiset ℕ} {dirs dirs' : List ℕ} {r : ℕ}
  {R : Multiset ℕ}

/-- The user has no access to what is mapped from `KERNBASE` on. -/
def Sealed (c : ℕ → ℕ → UInt8) (r : ℕ) : Prop :=
  ∀ n w, USERPAGES ≤ n → mapping c r n = some w → w &&& PTE_U = 0

/-- What a call that returns has done: changed one directory, taken a new one or not, copied one,
or freed one. -/
inductive Performs (K : Link) (m : Memory) (dirs : List ℕ) (x : Multiset ℕ) :
    Memory → List ℕ → Prop
  | change {m' : Memory} {r : ℕ} : r ∈ dirs → Keeps owned m {r} x m' {r} x →
      (∀ n w, USERPAGES ≤ n → mapping m'.page r n = some w →
        mapping m.page r n = some w ∨ w &&& PTE_U = 0) → Performs K m dirs x m' dirs
  | fail {m' : Memory} : Keeps owned m 0 x m' 0 x → Performs K m dirs x m' dirs
  | new {m' : Memory} {d : ℕ} : Keeps owned m 0 x m' {d} x →
      (∀ n, USERPAGES ≤ n → mapping m'.page d n = kernelMap (kmap K) n) →
      Performs K m dirs x m' (d :: dirs)
  | copy {m' : Memory} {r d : ℕ} : r ∈ dirs → Keeps owned m {r} x m' ({d} + {r}) x →
      (∀ p ∈ owned m.page r, m'.page p = m.page p) →
      (∀ n, USERPAGES ≤ n → mapping m'.page d n = kernelMap (kmap K) n) →
      Performs K m dirs x m' (d :: dirs)
  | free {m' : Memory} {r : ℕ} : r ∈ dirs → Keeps owned m {r} x m' 0 x →
      Performs K m dirs x m' (dirs.erase r)

theorem kernel_of_eq (h : ∀ n, USERPAGES ≤ n → mapping m'.page r n = mapping m.page r n) (n w : ℕ)
    (hn : USERPAGES ≤ n) (hw : mapping m'.page r n = some w) :
    mapping m.page r n = some w ∨ w &&& PTE_U = 0 :=
  .inl (h n hn ▸ hw)

section

variable (V : Valid K m ↑dirs x)

theorem singleton_erase (hr : r ∈ dirs) : ({r} + ↑(dirs.erase r) : Multiset ℕ) = ↑dirs := by
  rw [Multiset.singleton_add, Multiset.cons_coe, Multiset.coe_eq_coe]
  exact (List.perm_cons_erase hr).symm

include V

theorem Valid.keeps_mem (hr : r ∈ dirs) (h : Keeps owned m {r} x m' R x) :
    Keeps owned m ↑dirs x m' (R + ↑(dirs.erase r)) x := by
  have hnd : (m.stock owned ({r} + ↑(dirs.erase r)) (x + 0)).Nodup := by
    rw [singleton_erase hr, add_zero]
    exact V.nodup
  have hadd := h.add hnd owned_local
  rwa [singleton_erase hr, add_zero] at hadd

theorem Valid.keeps_same (hr : r ∈ dirs) (h : Keeps owned m {r} x m' {r} x) :
    Keeps owned m ↑dirs x m' ↑dirs x := by
  have hmem := V.keeps_mem hr h
  rwa [singleton_erase hr] at hmem

theorem Valid.keeps_new (h : Keeps owned m 0 x m' R x) :
    Keeps owned m ↑dirs x m' (R + ↑dirs) x := by
  have hnd : (m.stock owned (0 + ↑dirs) (x + 0)).Nodup := by
    rw [zero_add, add_zero]
    exact V.nodup
  have hadd := h.add hnd owned_local
  rwa [zero_add, add_zero] at hadd

theorem Valid.no_dirs : Valid K m 0 x := by
  have h : Valid K m (0 + ↑dirs) (x + 0) := by simpa using V
  exact h.mono

theorem Valid.of_mem (hr : r ∈ dirs) : Valid K m {r} x := V.one (Multiset.mem_coe.mpr hr)

theorem Valid.performs {c : Call} (h : perform K m dirs c = some (m', dirs')) :
    Performs K m dirs x m' dirs' := by
  cases c with
  | setupkvm =>
    rcases V.no_dirs.setup with ⟨m₁, heq, hkeep, -⟩ | ⟨d, m₁, heq, hkeep, -, hmap⟩
    · simp only [perform, heq, Option.some.injEq, Prod.mk.injEq] at h
      obtain ⟨rfl, rfl⟩ := h
      exact .fail hkeep
    · simp only [perform, heq, Option.some.injEq, Prod.mk.injEq] at h
      obtain ⟨rfl, rfl⟩ := h
      exact .new hkeep fun n _ => congrFun hmap n
  | allocuvm r oldsz newsz =>
    by_cases hr : r ∈ dirs
    swap
    · simp [perform, hr] at h
    simp only [perform, hr, if_true] at h
    rcases @Valid.alloc _ _ _ _ oldsz newsz (V.of_mem hr) with
      ⟨-, heq⟩ | ⟨-, -, heq⟩ | ⟨hlt, -, ⟨-, heq⟩ | ⟨m₁, heq, hclear, -⟩ | ⟨m₁, heq, hgrow⟩⟩ <;>
      simp only [heq, Except.toOption, Option.map_some, Option.map_none, Option.some.injEq,
        Prod.mk.injEq, reduceCtorEq] at h
    · obtain ⟨rfl, rfl⟩ := h
      exact .change hr .refl (kernel_of_eq fun _ _ => rfl)
    · obtain ⟨rfl, rfl⟩ := h
      exact .change hr .refl (kernel_of_eq fun _ _ => rfl)
    · obtain ⟨rfl, rfl⟩ := h
      refine .change hr hclear.keeps (kernel_of_eq fun n hn => hclear.mapping_of_not ?_)
      have := pagesOf_le hlt.le
      omega
    · obtain ⟨rfl, rfl⟩ := h
      refine .change hr hgrow.keeps (kernel_of_eq fun n hn => hgrow.outside n ?_)
      have := pagesOf_le hlt.le
      omega
  | deallocuvm r oldsz newsz =>
    by_cases hr : r ∈ dirs ∧ oldsz ≤ KERNBASE
    swap
    · simp [perform, hr] at h
    obtain ⟨m₁, heq, hclear⟩ := @Valid.dealloc _ _ _ _ _ newsz (V.of_mem hr.1) hr.2
    simp only [perform, hr, and_self, if_true, heq, Except.toOption, Option.map_some,
      Option.some.injEq, Prod.mk.injEq] at h
    obtain ⟨rfl, rfl⟩ := h
    refine .change hr.1 hclear.keeps (kernel_of_eq fun n hn => hclear.mapping_of_not ?_)
    have := pagesOf_le hr.2
    omega
  | clearpteu r uva =>
    by_cases hr : r ∈ dirs ∧ uva < 2 ^ 32
    swap
    · rw [perform, if_neg hr] at h
      cases h
    rcases (V.of_mem hr.1).clear hr.2 with ⟨-, heq⟩ | ⟨m₁, heq, hkeep, hmap⟩
    · simp [perform, hr, heq, Except.toOption] at h
    · simp only [perform, hr, and_self, if_true, heq, Except.toOption, Option.map_some,
        Option.some.injEq, Prod.mk.injEq] at h
      obtain ⟨rfl, rfl⟩ := h
      refine .change hr.1 (keeps_owned hkeep (by rw [users, users, frame_clear hmap])) ?_
      intro n w hn hw
      rw [hmap] at hw
      by_cases hnu : n = uva / PGSIZE
      · rw [hnu, Function.update_self] at hw
        obtain ⟨w', -, rfl⟩ := Option.map_eq_some_iff.mp hw
        exact .inr withoutUser_and
      · exact .inl (by rwa [Function.update_of_ne hnu] at hw)
  | copyuvm r sz =>
    by_cases hr : r ∈ dirs ∧ sz ≤ KERNBASE
    swap
    · simp [perform, hr] at h
    rcases (V.of_mem hr.1).copy hr.2 with
      ⟨-, e, heq⟩ | ⟨m₁, heq, hkeep, hold⟩ | ⟨d, m₁, heq, hkeep, hold, hcopy⟩ <;>
      simp only [perform, hr, and_self, if_true, heq, Option.some.injEq, Prod.mk.injEq,
        reduceCtorEq] at h
    · obtain ⟨rfl, rfl⟩ := h
      exact .change hr.1 hkeep (kernel_of_eq fun n _ => congrFun (mapping_of_owned hold) n)
    · obtain ⟨rfl, rfl⟩ := h
      exact .copy hr.1 hkeep hold fun n hn => hcopy.rest n ((pagesOf_le hr.2).trans hn)
  | freevm r =>
    by_cases hr : r ∈ dirs
    swap
    · simp [perform, hr] at h
    obtain ⟨m₁, heq, hkeep⟩ := (V.of_mem hr).free
    simp only [perform, hr, if_true, heq, Except.toOption, Option.map_some, Option.some.injEq,
      Prod.mk.injEq] at h
    obtain ⟨rfl, rfl⟩ := h
    exact .free hr hkeep
  | store r va b =>
    by_cases hr : r ∈ dirs ∧ va < KERNBASE
    swap
    · simp [perform, hr] at h
    simp only [perform, hr, and_self, if_true, Option.some.injEq, Prod.mk.injEq] at h
    obtain ⟨rfl, rfl⟩ := h
    exact .change hr.1 ((V.of_mem hr.1).keeps_poke hr.2)
      (kernel_of_eq fun n _ => congrFun ((V.of_mem hr.1).mapping_poke hr.2) n)

theorem Valid.keeps_performs (h : Performs K m dirs x m' dirs') :
    Keeps owned m ↑dirs x m' ↑dirs' x := by
  cases h with
  | change hr hkeep _ => exact V.keeps_same hr hkeep
  | fail hkeep => simpa using V.keeps_new hkeep
  | new hkeep _ => simpa using V.keeps_new hkeep
  | copy hr hkeep _ _ =>
    have hmem := V.keeps_mem hr hkeep
    rw [add_assoc, singleton_erase hr] at hmem
    simpa using hmem
  | free hr hkeep => simpa using V.keeps_mem hr hkeep

theorem Valid.sealed_erase (hr : r ∈ dirs) (h : Keeps owned m {r} x m' R x)
    (hs : ∀ q ∈ dirs, Sealed m.page q) : ∀ q ∈ dirs.erase r, Sealed m'.page q := by
  rw [← singleton_erase hr] at V
  intro q hq
  have hsame := mapping_of_owned (V.page_rest h (Multiset.mem_coe.mpr hq))
  rw [Sealed, hsame]
  exact hs q (List.mem_of_mem_erase hq)

theorem Valid.sealed_rest (h : Keeps owned m 0 x m' R x)
    (hs : ∀ q ∈ dirs, Sealed m.page q) : ∀ q ∈ dirs, Sealed m'.page q := by
  rw [← zero_add (↑dirs : Multiset ℕ)] at V
  intro q hq
  have hsame := mapping_of_owned (V.page_rest h (Multiset.mem_coe.mpr hq))
  rw [Sealed, hsame]
  exact hs q hq

theorem Valid.sealed_performs (h : Performs K m dirs x m' dirs')
    (hs : ∀ q ∈ dirs, Sealed m.page q) : ∀ q ∈ dirs', Sealed m'.page q := by
  cases h with
  | @change r hr hkeep hker =>
    intro q hq
    by_cases hqr : q = r
    · subst hqr
      intro n w hn hw
      exact (hker n w hn hw).elim (hs q hq n w hn) id
    · exact V.sealed_erase hr hkeep hs q ((List.mem_erase_of_ne hqr).mpr hq)
  | fail hkeep => exact V.sealed_rest hkeep hs
  | new hkeep hker =>
    rw [List.forall_mem_cons]
    exact ⟨fun n w hn hw => kernelMap_flags (hker n hn ▸ hw), V.sealed_rest hkeep hs⟩
  | @copy r d hr hkeep hold hker =>
    rw [List.forall_mem_cons]
    refine ⟨fun n w hn hw => kernelMap_flags (hker n hn ▸ hw), fun q hq => ?_⟩
    by_cases hqr : q = r
    · subst hqr
      rw [Sealed, mapping_of_owned hold]
      exact hs q hq
    · exact V.sealed_erase hr hkeep hs q ((List.mem_erase_of_ne hqr).mpr hq)
  | free hr hkeep => exact V.sealed_erase hr hkeep hs

end

section

variable {s s' : Space} {l : Call × ℕ} {k : ℕ}

theorem Space.stock_limit :
    (s.limit k).stock owned R ↑(s.mem.free.drop k) = s.mem.stock owned R 0 := by
  have hfree : (↑s.mem.free : Multiset ℕ) = ↑(s.mem.free.take k) + ↑(s.mem.free.drop k) := by
    rw [Multiset.coe_add, List.take_append_drop]
  simp only [stock, Space.limit, hfree]
  abel

theorem Valid.limit (V : Valid K s.mem R 0) :
    Valid K (s.limit k) R ↑(s.mem.free.drop k) where
  nodup := s.stock_limit ▸ V.nodup
  ram p hp := V.ram p (s.stock_limit ▸ hp)

theorem Space.stock_next (V : Valid K s.mem ↑s.dirs 0) (h : s.next K l = some s') :
    s'.mem.stock owned ↑s'.dirs 0 = s.mem.stock owned ↑s.dirs 0 := by
  obtain ⟨⟨m, dirs⟩, hperform, rfl⟩ := Option.map_eq_some_iff.mp h
  have hkeep := (V.limit (k := l.2)).keeps_performs ((V.limit (k := l.2)).performs hperform)
  have hstock := hkeep.stock_eq
  rw [s.stock_limit] at hstock
  rw [← hstock]
  simp only [stock, ← Multiset.coe_add]
  abel

theorem FreePages.valid (F : FreePages K) (hdirs : s.dirs = []) (hfree : s.mem.free = F.list) :
    Valid K s.mem ↑s.dirs 0 := by
  constructor
  · simpa [stock, hdirs, hfree] using F.nodup
  · simpa [stock, hdirs, hfree] using F.ram

theorem FreePages.stock_of_reach (F : FreePages K)
    (h : Transition.Reach (directories F) Transition.anyStep s) :
    s.mem.stock owned ↑s.dirs 0 = ↑F.list ∧ Valid K s.mem ↑s.dirs 0 := by
  refine h.invariant (P := fun s => s.mem.stock owned ↑s.dirs 0 = ↑F.list ∧
    Valid K s.mem ↑s.dirs 0) ?_ ?_
  · rintro s ⟨hdirs, hfree⟩
    exact ⟨by simp [stock, hdirs, hfree], F.valid hdirs hfree⟩
  · rintro s l s' - ⟨hstock, V⟩ - hstep
    have hnext := Space.stock_next V hstep
    exact ⟨hnext.trans hstock, ⟨hnext ▸ V.nodup, fun p hp => V.ram p (hnext ▸ hp)⟩⟩

theorem FreePages.sealed_of_reach (F : FreePages K)
    (h : Transition.Reach (directories F) Transition.anyStep s) :
    ∀ r ∈ s.dirs, Sealed s.mem.page r := by
  refine h.invariant (P := fun s => ∀ r ∈ s.dirs, Sealed s.mem.page r) ?_ ?_
  · rintro s ⟨hdirs, -⟩
    simp [hdirs]
  · rintro s l s' hs hsealed - hstep
    have V := (F.stock_of_reach hs).2.limit (k := l.2)
    obtain ⟨⟨m, dirs⟩, hperform, rfl⟩ := Option.map_eq_some_iff.mp hstep
    have hall := V.sealed_performs (V.performs hperform) hsealed
    exact hall

/-- A memory without directories. -/
def Valid.freePages (V : Valid K m 0 0) : FreePages K where
  list := m.free
  nodup := by simpa [stock] using V.nodup
  ram := by simpa [stock] using V.ram

theorem Valid.list_freePages (V : Valid K m 0 0) : V.freePages.list = m.free := rfl

theorem Space.next_all {c : Call} (h : Frames.perform K m dirs c = some (m', dirs')) :
    Space.next K ⟨m, dirs⟩ (c, m.free.length) = some ⟨m', dirs'⟩ := by
  simp [Space.next, Space.limit, h]

theorem Valid.reach_setup (V : Valid K m 0 0) (hfree : NPDENTRIES + 1 < m.free.length) :
    ∃ d m', Transition.Reach (directories V.freePages) Transition.anyStep ⟨m', [d]⟩ ∧
      Tight m'.page d ∧ mapping m'.page d = kernelMap (kmap K) := by
  rcases V.setup with ⟨_, -, -, hshort⟩ | ⟨d, m', heq, -, htight, hmap⟩
  · omega
  have hstart : Transition.Reach (directories V.freePages) Transition.anyStep ⟨m, []⟩ :=
    .init ⟨rfl, rfl⟩
  have hsetup : Space.next K ⟨m, []⟩ (.setupkvm, m.free.length) = some ⟨m', [d]⟩ :=
    Space.next_all (by simp [perform, heq])
  exact ⟨d, m', hstart.step trivial hsetup, htight, hmap⟩

theorem Valid.reach_image (V : Valid K m 0 0) {sz : ℕ} (hsz : sz < KERNBASE)
    (hfree : NPDENTRIES + 1 + pagesOf sz < m.free.length) :
    ∃ d m₁ m₂, Transition.Reach (directories V.freePages) Transition.anyStep ⟨m₂, [d]⟩ ∧
      mapping m₁.page d = kernelMap (kmap K) ∧ Grows m₁ m₂ d 0 (pagesOf sz) 0 := by
  obtain ⟨d, m₁, m₂, hsetup, -, hmap, halloc, hgrow⟩ := V.exists_image hsz hfree
  have hstart : Transition.Reach (directories V.freePages) Transition.anyStep ⟨m, []⟩ :=
    .init ⟨rfl, rfl⟩
  have hsetup' : Space.next K ⟨m, []⟩ (.setupkvm, m.free.length) = some ⟨m₁, [d]⟩ :=
    Space.next_all (by simp [perform, hsetup])
  have halloc' : Space.next K ⟨m₁, [d]⟩ (.allocuvm d 0 sz, m₁.free.length) = some ⟨m₂, [d]⟩ :=
    Space.next_all (by simp [perform, halloc, Except.toOption])
  have hsecond := (hstart.step trivial hsetup').step trivial halloc'
  exact ⟨d, m₁, m₂, hsecond, hmap, hgrow⟩

end

end KThreads.Frames
