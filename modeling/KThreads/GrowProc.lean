import KThreads.Space

/-!
# The size of a process

`growproc` with the physical pages that the entries of the page directory name, and with
their contents. It returns 0 exactly when the size has become the sum, as long as it is not
asked to give back all of the memory or more: `deallocuvm` returns 0 for the size 0, which is
taken for an error when the pages are gone, and it does nothing for a sum below 0, which is
taken for a success.
-/

namespace KThreads

variable {k : Kernel}

/-- The change of size that `growproc` is called with. -/
def Pc.growth : Pc → Option ℤ
  | .growproc n _ => some n
  | _ => none

/-- No process is shrunk to nothing. -/
abbrev shrinksAboveZero : Kernel → Label → Prop := onStep fun k t =>
  ∀ n ∈ (k.pc t).growth, n < 0 → ∀ L ∈ (k.proc t).process, toUint ((k.proc L).sz + n) ≠ 0

/-- Only leaders get behind the waiting loop of `exec`, and no process is shrunk
to nothing. -/
abbrev keepsSize (k : Kernel) (l : Label) : Prop := leaderExecs k l ∧ shrinksAboveZero k l

theorem initDir_covers : initDir.Covers PGSIZE := by
  intro p hp
  unfold Pgdir.Maps walkpgdir
  rw [PDX_page hp, PTX_page]
  by_cases h0 : p = 0
  · subst h0
    simp [initDir]
  · have hpage : ¬p * PGSIZE < PGSIZE := by
      simp only [PGSIZE]
      omega
    by_cases htable : p / 1024 = 0
    · have hentry : p % 1024 ≠ 0 := by omega
      simp [initDir, htable, hentry, hpage]
    · simp [initDir, htable, hpage]

theorem mapped_userinit : userinit.Mapped := by
  refine ⟨fun L x hL hx => ?_, fun t x sz hpc => ?_⟩
  · by_cases h0 : L = 0
    · subst h0
      exact ⟨initDir_covers, by decide⟩
    · simp [userinit, h0] at hL
  · simp only [userinit] at hpc
    split at hpc <;> cases hpc

theorem mapped_of_keepsSize (h : ReachableBy keepsSize k) : k.Mapped := by
  refine h.invariant (P := Kernel.Mapped) ?_ fun k l k' hr hmapped hok hstep => ?_
  · rintro k rfl
    exact mapped_userinit
  refine hmapped.step (Kernel.inv_of_reachable hr)
    (dirInv_of_leaderExecs (hr.mono fun _ _ h => h.1)) ?_ hstep
  rintro t e n addr L rfl hpc hL hneg
  exact hok.2 n (by simp [hpc, Pc.growth]) hneg L hL

theorem not_vm_panic (h : ReachableBy keepsSize k) (p : VmPanic) :
    k.halted ≠ some (.panic (.vm p)) := by
  refine h.invariant (P := fun k => k.halted ≠ some (.panic (.vm p))) ?_ ?_
  · rintro k rfl
    simp [userinit]
  · intro k l k' hr _ hok hstep hx
    have hmapped := mapped_of_keepsSize hr
    have hinv := Kernel.inv_of_reachable hr
    have hdir := dirInv_of_leaderExecs (hr.mono fun _ _ h => h.1)
    obtain ⟨hk, hnull | hinit | ⟨t, L, e, rfl, ht, hL, hcall, hmay⟩⟩ :=
      Kernel.next_halted hstep hx
    · cases hnull
    · cases hinit
    · obtain ⟨hcov, hlt⟩ := Kernel.dir_covers hmapped hinv hdir ht hL
      generalize k.pc t = c at hmay hcall
      cases hmay with
      | @forkCopy np =>
        obtain ⟨r, hr, -⟩ := hcov.copyuvm hlt.le e.mem
        simp only [Kernel.callStep, Kernel.forkStep, hr, Option.some.injEq] at hcall
        cases r <;> simp [← hcall, hk] at hx
      | execLoad =>
        simp only [Kernel.callStep, Kernel.execStep, Option.some.injEq] at hcall
        split at hcall
        · simp [← hcall, hk] at hx
        · next elf _ =>
          obtain ⟨r, hr, -⟩ := execImage_spec elf e.mem
          simp only [hr] at hcall
          rcases r with - | ⟨d, sz⟩ <;> simp [← hcall, hk] at hx
      | @growproc n addr =>
        obtain ⟨d, r, mem, hr, -⟩ := hcov.allocuvm hlt.le (toUint ((k.proc L).sz + n)) e.mem
        simp only [Kernel.callStep, Kernel.growprocStep, hr, Option.some.injEq] at hcall
        subst hcall
        split at hx
        · split at hx <;> simp [hk] at hx
        · split at hx
          · split at hx <;> simp [hk] at hx
          · simp [hk] at hx

/-- **Memory.** In a run in which only leaders get behind the waiting loop of
`exec` and no process is shrunk to nothing, every user address below the size of
its process is mapped for a live thread, no user page from the next page boundary
on is, and the functions on page directories do not panic. -/
theorem pages_match_size (h : ReachableBy keepsSize k) :
    (∀ t, (k.proc t).state.isLive → ∃ L x, (k.proc t).process = some L ∧
      (k.proc t).pgdir = some x ∧ ∀ va, va < KERNBASE →
        (va < (k.proc L).sz → (walkpgdir (k.vm x) va).join.isSome) ∧
          (PGROUNDUP (k.proc L).sz ≤ va → (walkpgdir (k.vm x) va).join = none)) ∧
      ∀ p, k.halted ≠ some (.panic (.vm p)) := by
  refine ⟨fun t ht => ?_, not_vm_panic h⟩
  have hdir := dirInv_of_leaderExecs (h.mono fun _ _ h => h.1)
  obtain ⟨L, x, hL, hx, hLx, hlead⟩ := Kernel.exists_dir (Kernel.inv_of_reachable h) hdir
    (ProcState.phase_eq_live.mpr ht)
  obtain ⟨hcov, hlt⟩ := (mapped_of_keepsSize h).lead L x hlead hLx
  exact ⟨L, x, hL, hx, fun va hva => hcov.walkpgdir hlt hva⟩

/-- A process grows by a page and forks: the child can read the new page. -/
theorem pages_match_size_after_fork :
    ∃ k x, runScriptBy keepsSize (.schedule 0 :: calls 0 (.sbrk 4096) 3 ++ calls 0 .fork 9) =
        some k ∧
      (k.proc 1).pgdir = some x ∧ (k.proc 1).sz = 8192 ∧ (walkpgdir (k.vm x) 5000).join.isSome := by
  obtain ⟨k, hk, hr, hlive, hlead, hsz⟩ := exists_of_runScriptBy keepsSize
    (.schedule 0 :: calls 0 (.sbrk 4096) 3 ++ calls 0 .fork 9)
    (fun k => (k.proc 1).state.isLive = true ∧ (k.proc 1).process = some 1 ∧ (k.proc 1).sz = 8192)
    (by decide)
  obtain ⟨L, x, hL, hx, hva⟩ := (pages_match_size hr).1 1 hlive
  cases hlead.symm.trans hL
  exact ⟨k, x, hk, hx, hsz, (hva 5000 (by decide)).1 (by rw [hsz]; decide)⟩

set_option maxRecDepth 8000 in
/-- A thread gives back all memory of its process while another one is in `fork`:
the size is kept, the page is gone, and `copyuvm` panics. When a thread other than
the leader has replaced the image, the size of its process is the old one, and
pages above it are mapped. -/
theorem size_without_pages :
    (∃ k, Reachable k ∧ (k.proc 0).state = .running ∧ (k.proc 0).process = some 0 ∧
      (k.proc 0).sz = 4096 ∧ (walkpgdir (k.dir 0) 0).join = none) ∧
      (∃ k, Reachable k ∧ k.halted = some (.panic (.vm .copyuvmPage))) ∧
      ∃ k, Reachable k ∧ (k.proc 2).state = .running ∧ (k.proc 2).process = some 1 ∧
        (k.proc 1).sz = 4096 ∧ (walkpgdir (k.dir 2) 8192).join.isSome := by
  refine ⟨?_, ?_, ?_⟩
  · obtain ⟨k, -, hr, hobs⟩ := exists_of_runScript
      (.schedule 0 :: calls 0 (.clone 4096) 9 ++ .schedule 1 :: calls 1 .fork 2 ++
        calls 0 (.sbrk (-4096)) 2)
      (fun k => (k.proc 0).state = .running ∧ (k.proc 0).process = some 0 ∧
        (k.proc 0).sz = 4096 ∧ (walkpgdir (k.dir 0) 0).join = none) (by decide)
    exact ⟨k, hr, hobs⟩
  · obtain ⟨k, -, hr, hobs⟩ := exists_of_runScript
      (.schedule 0 :: calls 0 (.clone 4096) 9 ++ .schedule 1 :: calls 1 .fork 2 ++
        calls 0 (.sbrk (-4096)) 2 ++ steps 1 1)
      (fun k => k.halted = some (.panic (.vm .copyuvmPage))) (by decide)
    exact ⟨k, hr, hobs⟩
  · obtain ⟨k, -, hr, hobs⟩ := exists_of_runScript
      (takeover ++ .step 2 { elf := some tinyElf } :: steps 2 2)
      (fun k => (k.proc 2).state = .running ∧ (k.proc 2).process = some 1 ∧
        (k.proc 1).sz = 4096 ∧ (walkpgdir (k.dir 2) 8192).join.isSome = true) (by decide)
    exact ⟨k, hr, hobs⟩

end KThreads

namespace KThreads

open Function (update update_of_ne update_self)

/-- The contents of a page. -/
abbrev Page := Fin PGSIZE → UInt8

/-- The memory of a process. -/
structure AddressSpace where
  /-- `process->sz` -/
  sz : ℕ
  dir : Pgdir
  /-- `PTE_ADDR` of the entry of a page that is present -/
  frame : ℕ → ℕ
  /-- The physical pages -/
  mem : ℕ → Page

namespace AddressSpace

/-- The contents of a user page, when it is present. -/
def page (σ : AddressSpace) (p : ℕ) : Option Page :=
  if σ.dir.Maps p then some (σ.mem (σ.frame p)) else none

/-- `kfree` of a page of `kalloc`. -/
def kfree (σ : AddressSpace) (f : ℕ) : AddressSpace := { σ with mem := update σ.mem f fun _ => 1 }

/-- The loop of `deallocuvm`. -/
def deallocLoop (oldsz : ℕ) : ℕ → AddressSpace → ℕ → AddressSpace
  | 0, σ, _ => σ
  | n + 1, σ, a =>
      if a < oldsz then
        match walkpgdir σ.dir a with
        | none => deallocLoop oldsz n σ (PGADDR (PDX a + 1) 0 0)
        | some (some _) =>
            deallocLoop oldsz n { σ.kfree (σ.frame (a / PGSIZE)) with dir := σ.dir.store a none }
              (a + PGSIZE)
        | some none => deallocLoop oldsz n σ (a + PGSIZE)
      else σ

/-- `deallocuvm` -/
def deallocuvm (σ : AddressSpace) (oldsz newsz : ℕ) : AddressSpace × ℕ :=
  if newsz ≥ oldsz then (σ, oldsz)
  else (deallocLoop oldsz (oldsz / PGSIZE + 1) σ (PGROUNDUP newsz), newsz)

/-- The loop of `allocuvm`. The list has the pages that `kalloc` returns, before it fails. -/
def allocLoop (oldsz newsz : ℕ) :
    ℕ → AddressSpace → ℕ → List ℕ → Except VmPanic (AddressSpace × ℕ)
  | 0, σ, _, _ => .ok (σ, newsz)
  | n + 1, σ, a, frames =>
      if a < newsz then
        match frames with
        | [] => .ok ((σ.deallocuvm newsz oldsz).1, 0)
        | f :: frames =>
            let σ := { σ with mem := update σ.mem f fun _ => 0 }
            match mappages σ.dir a PGSIZE ⟨true, true⟩ frames.length with
            | .error p => .error p
            | .ok (true, dir, left) =>
                allocLoop oldsz newsz n { σ with dir, frame := update σ.frame (a / PGSIZE) f }
                  (a + PGSIZE) (frames.drop (frames.length - left))
            | .ok (false, dir, _) =>
                .ok ((deallocuvm { σ with dir } newsz oldsz).1.kfree f, 0)
      else .ok (σ, newsz)

/-- `allocuvm` -/
def allocuvm (σ : AddressSpace) (oldsz newsz : ℕ) (frames : List ℕ) :
    Except VmPanic (AddressSpace × ℕ) :=
  if newsz ≥ KERNBASE then .ok (σ, 0)
  else if newsz < oldsz then .ok (σ, oldsz)
  else allocLoop oldsz newsz (newsz / PGSIZE + 1) σ (PGROUNDUP oldsz) frames

/-- `growproc`, with what it returns. -/
def growproc (σ : AddressSpace) (frames : List ℕ) (n : ℤ) : Except VmPanic (AddressSpace × ℤ) :=
  let newsz := toUint (σ.sz + n)
  if n > 0 then
    (σ.allocuvm σ.sz newsz frames).map fun (σ, r) =>
      if r = 0 then (σ, -1) else ({ σ with sz := r }, 0)
  else if n < 0 then
    let (σ, r) := σ.deallocuvm σ.sz newsz
    if r = 0 then .ok (σ, -1) else .ok ({ σ with sz := r }, 0)
  else .ok (σ, 0)

end AddressSpace

/-- The pages that `kalloc` has to return to map the pages from number `a` to `b`: these, and
the page tables that are missing. -/
def Pgdir.needs (d : Pgdir) (a b : ℕ) : ℕ :=
  (Finset.Ico a b).card + (((Finset.Ico a b).image (· / 1024)).filter fun i => (d.pde i).isNone).card

variable {σ σ' : AddressSpace} {d d' : Pgdir} {p q a b n oldsz newsz f mem : ℕ} {frames : List ℕ}

/-! The physical pages do not change what is mapped. -/

theorem AddressSpace.deallocLoop_dir :
    (AddressSpace.deallocLoop oldsz n σ a).dir = KThreads.deallocLoop oldsz n σ.dir a := by
  induction n generalizing σ a with
  | zero => rfl
  | succ n ih =>
    unfold AddressSpace.deallocLoop KThreads.deallocLoop
    split
    · rcases walkpgdir σ.dir a with - | - | pte <;> exact ih
    · rfl

theorem AddressSpace.deallocuvm_dir :
    (σ.deallocuvm oldsz newsz).1.dir = (KThreads.deallocuvm σ.dir oldsz newsz).1 := by
  unfold AddressSpace.deallocuvm KThreads.deallocuvm
  split
  · rfl
  · exact deallocLoop_dir

/-! `allocuvm` succeeds when there are enough pages. -/

theorem mappages_table (perm : Pte) (mem : ℕ) (hp : p * PGSIZE < KERNBASE) (h : ¬d.Maps p) :
    ∃ done d' left, mappages d (p * PGSIZE) PGSIZE perm mem = .ok (done, d', left) ∧
      (done = true ↔ (if (d.pde (p / 1024)).isNone then 1 else 0) ≤ mem) ∧
      (done = true → left + (if (d.pde (p / 1024)).isNone then 1 else 0) = mem ∧
        ∀ i, (d'.pde i).isNone ↔ (d.pde i).isNone ∧ i ≠ p / 1024) := by
  simp only [mappages, PGROUNDDOWN_last, PGROUNDDOWN_page, Nat.sub_self, Nat.zero_div, mapLoop]
  have hpdx := PDX_page hp
  cases hpde : d.pde (p / 1024) with
  | some pt =>
    have hnone : ¬(walkpgdir d (p * PGSIZE)).join.isSome := h
    have halloc : walkpgdirAlloc d (p * PGSIZE) mem = some (d, mem) := by
      simp only [walkpgdirAlloc, hpdx, hpde]
    simp only [halloc, if_neg hnone]
    refine ⟨true, _, mem, rfl, by simp, fun _ => ⟨by simp, fun i => ?_⟩⟩
    simp only [Pgdir.store, hpdx, hpde]
    by_cases hi : i = p / 1024
    · simp [hi]
    · simp [hi]
  | none =>
    cases mem with
    | zero =>
      have halloc : walkpgdirAlloc d (p * PGSIZE) 0 = none := by
        simp only [walkpgdirAlloc, hpdx, hpde]
      simp only [halloc]
      exact ⟨false, d, 0, rfl, by simp, by simp⟩
    | succ mem =>
      have halloc : walkpgdirAlloc d (p * PGSIZE) (mem + 1) =
          some (⟨update d.pde (p / 1024) (some fun _ => none)⟩, mem) := by
        simp only [walkpgdirAlloc, hpdx, hpde]
      have hnone : ¬(walkpgdir ⟨update d.pde (p / 1024) (some fun _ => none)⟩
          (p * PGSIZE)).join.isSome := by
        simp [walkpgdir, hpdx]
      simp only [halloc, if_neg hnone]
      refine ⟨true, _, mem, rfl, by simp, fun _ => ⟨by simp, fun i => ?_⟩⟩
      simp only [Pgdir.store, hpdx, update_self]
      by_cases hi : i = p / 1024
      · simp [hi]
      · simp [hi]

theorem Pgdir.needs_succ (hab : a < b)
    (hd : ∀ i, (d'.pde i).isNone ↔ (d.pde i).isNone ∧ i ≠ a / 1024) :
    d.needs a b = 1 + (if (d.pde (a / 1024)).isNone then 1 else 0) + d'.needs (a + 1) b := by
  have hfilter : (((Finset.Ico (a + 1) b).image (· / 1024)).filter fun i => (d'.pde i).isNone) =
      (((Finset.Ico a b).image (· / 1024)).filter fun i => (d.pde i).isNone).erase (a / 1024) := by
    ext i
    simp only [Finset.mem_filter, Finset.mem_image, Finset.mem_Ico, Finset.mem_erase, hd]
    constructor
    · rintro ⟨⟨p, hp, rfl⟩, hnone, hne⟩
      exact ⟨hne, ⟨p, by omega, rfl⟩, hnone⟩
    · rintro ⟨hne, ⟨p, hp, rfl⟩, hnone⟩
      have hpa : p ≠ a := fun h => hne (h ▸ rfl)
      exact ⟨⟨p, by omega, rfl⟩, hnone, hne⟩
  unfold Pgdir.needs
  rw [hfilter, Nat.card_Ico, Nat.card_Ico]
  split
  · next hnone =>
    have hmem : a / 1024 ∈ ((Finset.Ico a b).image (· / 1024)).filter fun i => (d.pde i).isNone :=
      Finset.mem_filter.mpr ⟨Finset.mem_image_of_mem _ (Finset.mem_Ico.mpr ⟨le_rfl, hab⟩), hnone⟩
    have hpos := Finset.card_pos.mpr ⟨_, hmem⟩
    rw [Finset.card_erase_of_mem hmem]
    omega
  · next hsome =>
    have hnot : a / 1024 ∉ ((Finset.Ico a b).image (· / 1024)).filter fun i => (d.pde i).isNone :=
      fun hmem => hsome (Finset.mem_filter.mp hmem).2
    rw [Finset.erase_eq_of_notMem hnot]
    omega

theorem Pgdir.le_needs (d : Pgdir) (hab : a < b) :
    1 + (if (d.pde (a / 1024)).isNone then 1 else 0) ≤ d.needs a b := by
  have hd : ∀ i, ((⟨update d.pde (a / 1024) (some fun _ => none)⟩ : Pgdir).pde i).isNone ↔
      (d.pde i).isNone ∧ i ≠ a / 1024 := by
    intro i
    by_cases hi : i = a / 1024
    · simp [hi]
    · simp [hi]
  rw [Pgdir.needs_succ hab hd]
  omega

theorem Pgdir.needs_eq_zero (d : Pgdir) (h : newsz ≤ a * PGSIZE) :
    d.needs a ((newsz + 4095) / 4096) = 0 := by
  have hempty : Finset.Ico a ((newsz + 4095) / 4096) = ∅ := by
    apply Finset.Ico_eq_empty
    simp only [PGSIZE] at h
    omega
  simp [Pgdir.needs, hempty]

section

/-! What is below the old size stays as it is. -/

theorem round_le_iff : (oldsz + 4095) / 4096 ≤ p ↔ oldsz ≤ p * PGSIZE := by
  simp only [PGSIZE]
  omega

theorem AddressSpace.deallocLoop_frame (oldsz n : ℕ) (σ : AddressSpace) (a : ℕ) :
    (AddressSpace.deallocLoop oldsz n σ a).frame = σ.frame ∧
      (AddressSpace.deallocLoop oldsz n σ a).sz = σ.sz := by
  induction n generalizing σ a with
  | zero => exact ⟨rfl, rfl⟩
  | succ n ih =>
    unfold AddressSpace.deallocLoop
    split
    · rcases walkpgdir σ.dir a with - | - | pte <;> exact ih ..
    · exact ⟨rfl, rfl⟩

theorem AddressSpace.deallocLoop_mem (hsz : oldsz ≤ KERNBASE)
    (hf : ∀ q, p ≤ q → q * PGSIZE < KERNBASE → σ.dir.Maps q → σ.frame q ≠ f) :
    (AddressSpace.deallocLoop oldsz n σ (p * PGSIZE)).mem f = σ.mem f := by
  induction n generalizing σ p with
  | zero => rfl
  | succ n ih =>
    unfold AddressSpace.deallocLoop
    split
    · next hlt =>
      have hp : p * PGSIZE < KERNBASE := hlt.trans_le hsz
      cases hwalk : walkpgdir σ.dir (p * PGSIZE) with
      | none =>
        simp only [PGADDR_next hp]
        exact ih fun q hq => hf q (by omega)
      | some e =>
        cases e with
        | none =>
          simp only [page_succ]
          exact ih fun q hq => hf q (by omega)
        | some pte =>
          have hmaps : σ.dir.Maps p := by simp [Pgdir.Maps, hwalk]
          simp only [page_succ]
          refine (ih fun q hq hlt' hq' => ?_).trans (update_of_ne (Ne.symm ?_) _ _)
          · rw [maps_store (.of_maps hmaps) hp hlt', if_neg (by omega)] at hq'
            exact hf q (by omega) hlt' hq'
          · rw [Nat.mul_div_cancel _ (by decide)]
            exact hf p le_rfl hp hmaps
    · rfl

/-- The pages from the old size up to page `a` have been added, with physical pages that are
not those of the pages below. -/
structure Added (oldsz a : ℕ) (σ₀ σ : AddressSpace) : Prop where
  sz : σ.sz = σ₀.sz
  maps : ∀ q, q * PGSIZE < KERNBASE →
    (σ.dir.Maps q ↔ σ₀.dir.Maps q ∨ oldsz ≤ q * PGSIZE ∧ q < a)
  frame : ∀ p, p * PGSIZE < oldsz → σ.frame p = σ₀.frame p
  mem : ∀ p, p * PGSIZE < oldsz → σ₀.dir.Maps p → σ.mem (σ₀.frame p) = σ₀.mem (σ₀.frame p)
  fresh : ∀ p, p * PGSIZE < oldsz → σ₀.dir.Maps p → ∀ q, oldsz ≤ q * PGSIZE →
    q * PGSIZE < KERNBASE → σ.dir.Maps q → σ.frame q ≠ σ₀.frame p

namespace Added

variable {σ₀ : AddressSpace}

theorem fill (h : Added oldsz a σ₀ σ) (hf : ∀ p, p * PGSIZE < oldsz → σ₀.dir.Maps p → σ₀.frame p ≠ f)
    (c : Page) : Added oldsz a σ₀ { σ with mem := update σ.mem f c } where
  sz := h.sz
  maps := h.maps
  frame := h.frame
  mem p hp hmaps := (update_of_ne (hf p hp hmaps) _ _).trans (h.mem p hp hmaps)
  fresh := h.fresh

theorem map (h : Added oldsz a σ₀ σ) (hold : oldsz ≤ a * PGSIZE)
    (hf : ∀ p, p * PGSIZE < oldsz → σ₀.dir.Maps p → σ₀.frame p ≠ f)
    (hd : ∀ q, q * PGSIZE < KERNBASE → (d.Maps q ↔ σ.dir.Maps q ∨ q = a)) :
    Added oldsz (a + 1) σ₀ { σ with dir := d, frame := update σ.frame a f } where
  sz := h.sz
  maps q hq := by
    rw [hd q hq, h.maps q hq, or_assoc]
    refine or_congr_right ?_
    constructor
    · rintro (⟨hle, hlt⟩ | rfl)
      · exact ⟨hle, by omega⟩
      · exact ⟨hold, by omega⟩
    · rintro ⟨hle, hlt⟩
      rcases Nat.lt_or_eq_of_le (Nat.le_of_lt_succ hlt) with hlt | rfl
      · exact .inl ⟨hle, hlt⟩
      · exact .inr rfl
  frame p hp := by
    have hne : p ≠ a := by
      rintro rfl
      omega
    exact (update_of_ne hne _ _).trans (h.frame p hp)
  mem := h.mem
  fresh p hp hmaps q hle hlt hq := by
    by_cases hqa : q = a
    · rw [hqa]
      exact (update_self (f := σ.frame) ..).trans_ne (hf p hp hmaps).symm
    · have hq := ((hd q hlt).mp hq).resolve_right hqa
      exact (update_of_ne hqa _ _).trans_ne (h.fresh p hp hmaps q hle hlt hq)

theorem of_dir (h : Added oldsz a σ₀ σ)
    (hd : ∀ q, q * PGSIZE < KERNBASE → (d.Maps q ↔ σ.dir.Maps q)) :
    Added oldsz a σ₀ { σ with dir := d } where
  sz := h.sz
  maps q hq := (hd q hq).trans (h.maps q hq)
  frame := h.frame
  mem := h.mem
  fresh p hp hmaps q hle hlt hq := h.fresh p hp hmaps q hle hlt ((hd q hlt).mp hq)

theorem undo (h : Added oldsz a σ₀ σ)
    (hnone : ∀ q, oldsz ≤ q * PGSIZE → q * PGSIZE < KERNBASE → ¬σ₀.dir.Maps q)
    (hold : oldsz ≤ a * PGSIZE) (ha : a * PGSIZE < newsz) (hnew : newsz < KERNBASE) :
    Added oldsz 0 σ₀ (σ.deallocuvm newsz oldsz).1 := by
  have hlt : oldsz < newsz := hold.trans_lt ha
  have hmaps : ∀ q, q * PGSIZE < KERNBASE →
      ((σ.deallocuvm newsz oldsz).1.dir.Maps q ↔ σ₀.dir.Maps q) := by
    intro q hq
    rw [AddressSpace.deallocuvm_dir, deallocuvm_maps hlt hnew.le hq, h.maps q hq]
    constructor
    · rintro ⟨hq₀ | ⟨hle, hqa⟩, hout⟩
      · exact hq₀
      · have hqn : q * PGSIZE < newsz := (Nat.mul_lt_mul_of_pos_right hqa (by decide)).trans ha
        exact absurd ⟨hle, hqn⟩ hout
    · exact fun hq₀ => ⟨.inl hq₀, fun hin => hnone q hin.1 hq hq₀⟩
  have hloop : (σ.deallocuvm newsz oldsz).1 = AddressSpace.deallocLoop newsz (newsz / PGSIZE + 1) σ
      ((oldsz + 4095) / 4096 * PGSIZE) := by
    rw [AddressSpace.deallocuvm, if_neg (by omega), PGROUNDUP_eq (hlt.le.trans hnew.le)]
  obtain ⟨hframe, hsz⟩ := AddressSpace.deallocLoop_frame newsz (newsz / PGSIZE + 1) σ
    ((oldsz + 4095) / 4096 * PGSIZE)
  rw [← hloop] at hframe hsz
  refine ⟨hsz.trans h.sz, fun q hq => ?_, fun p hp => ?_, fun p hp hp₀ => ?_,
    fun p hp hp₀ q hle hq hqm => absurd ((hmaps q hq).mp hqm) (hnone q hle hq)⟩
  · rw [hmaps q hq]
    simp
  · rw [hframe]
    exact h.frame p hp
  · rw [hloop]
    refine (AddressSpace.deallocLoop_mem hnew.le fun q hq hlt' hqm => ?_).trans (h.mem p hp hp₀)
    exact h.fresh p hp hp₀ q (round_le_iff.mp hq) hlt' hqm

theorem page_eq (h : Added oldsz 0 σ₀ σ)
    (hnone : ∀ q, oldsz ≤ q * PGSIZE → q * PGSIZE < KERNBASE → ¬σ₀.dir.Maps q)
    (hp : p * PGSIZE < KERNBASE) : σ.page p = σ₀.page p := by
  have hmaps : σ.dir.Maps p ↔ σ₀.dir.Maps p := by
    rw [h.maps p hp]
    simp
  unfold AddressSpace.page
  by_cases hp₀ : σ₀.dir.Maps p
  · have hlt : p * PGSIZE < oldsz := Nat.lt_of_not_le fun hle => hnone p hle hp hp₀
    rw [if_pos (hmaps.mpr hp₀), if_pos hp₀, h.frame p hlt, h.mem p hlt hp₀]
  · rw [if_neg (hmaps.not.mpr hp₀), if_neg hp₀]

end Added

variable {σ₀ : AddressSpace}

theorem AddressSpace.allocLoop_spec
    (hnone : ∀ q, oldsz ≤ q * PGSIZE → q * PGSIZE < KERNBASE → ¬σ₀.dir.Maps q)
    (hf : ∀ p, p * PGSIZE < oldsz → σ₀.dir.Maps p → σ₀.frame p ∉ frames)
    (h : Added oldsz a σ₀ σ) (hold : oldsz ≤ a * PGSIZE) (hpos : newsz ≠ 0)
    (hnew : newsz < KERNBASE) (hn : newsz ≤ (a + n) * PGSIZE) :
    ∃ σ' r, AddressSpace.allocLoop oldsz newsz n σ (a * PGSIZE) frames = .ok (σ', r) ∧
      (r = newsz ∨ r = 0) ∧
      (r = newsz ↔ σ.dir.needs a ((newsz + 4095) / 4096) ≤ frames.length) ∧
      (r = 0 → Added oldsz 0 σ₀ σ') := by
  induction n generalizing σ a frames with
  | zero =>
    rw [Nat.add_zero] at hn
    refine ⟨σ, newsz, rfl, .inl rfl, ?_, fun h0 => absurd h0 hpos⟩
    simp [Pgdir.needs_eq_zero _ hn]
  | succ n ih =>
    unfold AddressSpace.allocLoop
    split
    · next hlt =>
      have hab : a < (newsz + 4095) / 4096 := by
        simp only [PGSIZE] at hlt
        omega
      have ha : a * PGSIZE < KERNBASE := hlt.trans hnew
      have hfree : ¬σ.dir.Maps a := by
        rw [h.maps a ha]
        rintro (h₀ | ⟨-, hlt⟩)
        · exact hnone a hold ha h₀
        · exact Nat.lt_irrefl _ hlt
      cases frames with
      | nil =>
        have hmore := σ.dir.le_needs hab
        exact ⟨_, 0, rfl, .inr rfl, by simp only [List.length_nil]; omega,
          fun _ => h.undo hnone hold hlt hnew⟩
      | cons f frames =>
        have hf₁ : ∀ p, p * PGSIZE < oldsz → σ₀.dir.Maps p → σ₀.frame p ≠ f :=
          fun p hp hp₀ heq => hf p hp hp₀ (heq ▸ List.mem_cons_self)
        have hf₂ : ∀ p, p * PGSIZE < oldsz → σ₀.dir.Maps p → σ₀.frame p ∉ frames :=
          fun p hp hp₀ hmem => hf p hp hp₀ (List.mem_cons_of_mem _ hmem)
        obtain ⟨done, d, left, hmap, hdone, htable⟩ :=
          mappages_table ⟨true, true⟩ frames.length ha hfree
        obtain ⟨done', d'', left', hmap', hmaps⟩ :=
          mappages_spec ⟨true, true⟩ frames.length ha hfree
        rw [hmap] at hmap'
        cases hmap'
        simp only [hmap]
        cases done with
        | true =>
          obtain ⟨hleft, hpde⟩ := htable rfl
          simp only [true_and] at hmaps
          simp only [page_succ, Nat.mul_div_cancel _ (show 0 < PGSIZE by decide)]
          have hdrop : ∀ p, p * PGSIZE < oldsz → σ₀.dir.Maps p →
              σ₀.frame p ∉ frames.drop (frames.length - left) :=
            fun p hp hp₀ hmem => hf₂ p hp hp₀ (List.mem_of_mem_drop hmem)
          obtain ⟨σ', r, hloop, hr, hiff, hzero⟩ := ih hdrop
            ((h.fill hf₁ _).map hold hf₁ hmaps) (le_page_succ hold) (pages_left hn)
          refine ⟨σ', r, hloop, hr, hiff.trans ?_, hzero⟩
          rw [Pgdir.needs_succ hab hpde, List.length_drop, List.length_cons]
          dsimp only
          omega
        | false =>
          simp only [Bool.false_eq_true, false_and, or_false] at hmaps
          have hmissing := hdone.not.mp nofun
          have hmore := σ.dir.le_needs hab
          refine ⟨_, 0, rfl, .inr rfl, by simp only [List.length_cons]; omega, fun _ => ?_⟩
          exact (((h.fill hf₁ _).of_dir hmaps).undo hnone hold hlt hnew).fill hf₁ _
    · next hge =>
      refine ⟨σ, newsz, rfl, .inl rfl, ?_, fun h0 => absurd h0 hpos⟩
      simp [Pgdir.needs_eq_zero _ (Nat.le_of_not_lt hge)]

end

theorem Added.refl (hnone : ∀ q, oldsz ≤ q * PGSIZE → q * PGSIZE < KERNBASE → ¬σ.dir.Maps q)
    (ha : ∀ q, oldsz ≤ q * PGSIZE → a ≤ q) : Added oldsz a σ σ where
  sz := rfl
  maps q _ := by
    constructor
    · exact .inl
    · rintro (hq | ⟨hle, hlt⟩)
      · exact hq
      · exact absurd (ha q hle) (Nat.not_le.mpr hlt)
  frame _ _ := rfl
  mem _ _ _ := rfl
  fresh _ _ _ q hle hlt hq := absurd hq (hnone q hle hlt)

theorem AddressSpace.allocuvm_spec
    (hnone : ∀ q, σ.sz ≤ q * PGSIZE → q * PGSIZE < KERNBASE → ¬σ.dir.Maps q)
    (hframes : ∀ p, p * PGSIZE < σ.sz → σ.dir.Maps p → σ.frame p ∉ frames)
    (newsz : ℕ) (hlt : σ.sz < newsz) :
    ∃ σ' r, σ.allocuvm σ.sz newsz frames = .ok (σ', r) ∧ (r = newsz ∨ r = 0) ∧
      (r = newsz ↔ newsz < KERNBASE ∧
        σ.dir.needs ((σ.sz + 4095) / 4096) ((newsz + 4095) / 4096) ≤ frames.length) ∧
      (r = 0 → σ'.sz = σ.sz ∧ ∀ p, p * PGSIZE < KERNBASE → σ'.page p = σ.page p) := by
  unfold AddressSpace.allocuvm
  split
  · next hge => exact ⟨σ, 0, rfl, .inr rfl, by omega, fun _ => ⟨rfl, fun _ _ => rfl⟩⟩
  · next hnew =>
    rw [if_neg (by omega), PGROUNDUP_eq (by omega)]
    obtain ⟨σ', r, hloop, hr, hiff, hzero⟩ := allocLoop_spec (n := newsz / PGSIZE + 1) hnone hframes
      (.refl hnone fun q hq => round_le_iff.mpr hq) (round_le_iff.mp le_rfl)
      (Nat.ne_of_gt (Nat.zero_lt_of_lt hlt)) (Nat.lt_of_not_le hnew) (by simp only [PGSIZE]; omega)
    refine ⟨σ', r, hloop, hr, hiff.trans (by omega), fun h0 => ?_⟩
    exact ⟨(hzero h0).sz, fun p hp => (hzero h0).page_eq hnone hp⟩

/-- What `growproc(n)` is to do: it returns 0 exactly when the size is now the sum, which is a
size of a process, and there are enough pages; otherwise it returns -1, with the size, the
pages that are mapped and their contents as they were. -/
def AddressSpace.GrowsExactly (σ : AddressSpace) (frames : List ℕ) (n : ℤ) : Prop :=
  ∃ σ' r, σ.growproc frames n = .ok (σ', r) ∧ (r = 0 ∨ r = -1) ∧
    (r = 0 ↔ (σ'.sz : ℤ) = σ.sz + n ∧ 0 ≤ σ.sz + n ∧ σ.sz + n < KERNBASE ∧
      σ.dir.needs ((σ.sz + 4095) / 4096) (((σ.sz + n).toNat + 4095) / 4096) ≤ frames.length) ∧
    (r = -1 → σ'.sz = σ.sz ∧ ∀ p, p * PGSIZE < KERNBASE → σ'.page p = σ.page p)

theorem growsExactly_pos {n : ℤ} (hsz : σ.sz < KERNBASE)
    (hnone : ∀ q, σ.sz ≤ q * PGSIZE → q * PGSIZE < KERNBASE → ¬σ.dir.Maps q)
    (hframes : ∀ p, p * PGSIZE < σ.sz → σ.dir.Maps p → σ.frame p ∉ frames)
    (hn : 0 < n) (hmax : n ≤ INT_MAX) : σ.GrowsExactly frames n := by
  have hsum : toUint (σ.sz + n) = (σ.sz + n).toNat := by
    simp only [toUint, KERNBASE, INT_MAX] at *
    omega
  unfold AddressSpace.GrowsExactly AddressSpace.growproc
  simp only [hsum, if_pos hn, gt_iff_lt]
  obtain ⟨σ', r, halloc, hr, hiff, hzero⟩ := AddressSpace.allocuvm_spec hnone hframes
    (σ.sz + n).toNat (by omega)
  rw [halloc]
  simp only [Except.map]
  rcases hr with rfl | rfl
  · obtain ⟨hnew, henough⟩ := hiff.mp rfl
    rw [if_neg (by omega)]
    refine ⟨_, 0, rfl, .inl rfl, ⟨fun _ => ?_, fun _ => rfl⟩, nofun⟩
    exact ⟨by dsimp only; omega, by omega, by omega, henough⟩
  · rw [if_pos rfl]
    refine ⟨σ', -1, rfl, .inr rfl, ⟨nofun, fun hall => ?_⟩, fun _ => hzero rfl⟩
    have hsame := (hzero rfl).1
    omega

theorem growsExactly_neg {n : ℤ} (hsz : σ.sz < KERNBASE) (hn : n < 0) (hpos : 0 < σ.sz + n) :
    σ.GrowsExactly frames n := by
  have hsum : toUint (σ.sz + n) = (σ.sz + n).toNat := by
    simp only [toUint, KERNBASE] at *
    omega
  have hsmaller : ¬(σ.sz + n).toNat ≥ σ.sz := by omega
  have hnothing : σ.dir.needs ((σ.sz + 4095) / 4096) (((σ.sz + n).toNat + 4095) / 4096) = 0 :=
    σ.dir.needs_eq_zero (by simp only [PGSIZE]; omega)
  unfold AddressSpace.GrowsExactly AddressSpace.growproc
  simp only [hsum, if_neg (not_lt.mpr hn.le), if_pos hn, AddressSpace.deallocuvm,
    if_neg hsmaller, gt_iff_lt]
  rw [if_neg (by omega)]
  refine ⟨_, 0, rfl, .inl rfl, ⟨fun _ => ?_, fun _ => rfl⟩, nofun⟩
  rw [hnothing]
  exact ⟨by dsimp only; omega, by omega, by omega, Nat.zero_le _⟩

theorem not_growsExactly {n : ℤ} (hsz : σ.sz < KERNBASE) (hcov : σ.dir.Covers σ.sz)
    (hmin : -INT_MAX - 1 ≤ n) (hn : n < 0) (hneg : σ.sz + n ≤ 0) (hpos : 0 < σ.sz) :
    ¬σ.GrowsExactly frames n := by
  rintro ⟨σ', r, hok, -, hiff, hsame⟩
  unfold AddressSpace.growproc at hok
  simp only [if_neg (not_lt.mpr hn.le), if_pos hn, gt_iff_lt] at hok
  rcases hneg.lt_or_eq with hneg | hzero
  · -- The sum is not below the old size when it is taken for unsigned.
    have hlarge : toUint (σ.sz + n) ≥ σ.sz := by
      simp only [toUint, KERNBASE, INT_MAX] at *
      omega
    simp only [AddressSpace.deallocuvm, if_pos hlarge, if_neg hpos.ne'] at hok
    cases hok
    have hsum := (hiff.mp rfl).2.1
    omega
  · have hsum : toUint (σ.sz + n) = 0 := by rw [hzero]; rfl
    have hsmall : ¬(0 : ℕ) ≥ σ.sz := by omega
    have hdir : (σ.deallocuvm σ.sz 0).1.dir = (KThreads.deallocuvm σ.dir σ.sz 0).1 :=
      AddressSpace.deallocuvm_dir
    simp only [hsum, AddressSpace.deallocuvm, if_neg hsmall, if_true] at hok hdir
    cases hok
    have hmaps : σ.dir.Maps 0 := (hcov 0 (by decide)).mpr (by simpa using hpos)
    have hgone : ¬(KThreads.deallocuvm σ.dir σ.sz 0).1.Maps 0 := by
      rw [deallocuvm_maps hpos hsz.le (by decide)]
      exact fun hall => hall.2 ⟨by simp, by simpa using hpos⟩
    have hpage := (hsame rfl).2 0 (by decide)
    unfold AddressSpace.page at hpage
    rw [if_pos hmaps, hdir, if_neg hgone] at hpage
    cases hpage

/-- **Growing and shrinking.** The pages of the process are those below its size, and `kalloc`
returns none of them. `growproc(n)` does what it is to do, for exactly those calls that do not
ask a process with memory to give back all of it or more. -/
theorem growproc_exact (σ : AddressSpace) (frames : List ℕ) (n : ℤ) (hsz : σ.sz < KERNBASE)
    (hcov : σ.dir.Covers σ.sz) (hframes : ∀ p, p * PGSIZE < σ.sz → σ.frame p ∉ frames)
    (hmin : -INT_MAX - 1 ≤ n) (hmax : n ≤ INT_MAX) :
    σ.GrowsExactly frames n ↔ (n < 0 → 0 < σ.sz → 0 < σ.sz + n) := by
  have hnone : ∀ q, σ.sz ≤ q * PGSIZE → q * PGSIZE < KERNBASE → ¬σ.dir.Maps q :=
    fun q hle hlt hq => absurd ((hcov q hlt).mp hq) (Nat.not_lt.mpr hle)
  constructor
  · intro hexact hn hpos
    by_contra hneg
    exact not_growsExactly hsz hcov hmin hn (not_lt.mp hneg) hpos hexact
  · intro hkeep
    rcases lt_trichotomy n 0 with hn | rfl | hn
    · rcases Nat.eq_zero_or_pos σ.sz with hzero | hpos
      · -- A process without memory has nothing to give back.
        have hlarge : toUint (σ.sz + n) ≥ σ.sz := by omega
        unfold AddressSpace.GrowsExactly AddressSpace.growproc
        simp only [if_neg (not_lt.mpr hn.le), if_pos hn, AddressSpace.deallocuvm, if_pos hlarge,
          if_pos hzero, gt_iff_lt]
        refine ⟨σ, -1, rfl, .inr rfl, ⟨nofun, fun hall => ?_⟩, fun _ => ⟨rfl, fun _ _ => rfl⟩⟩
        have hsum := hall.2.1
        omega
      · exact growsExactly_neg hsz hn (hkeep hn hpos)
    · have hnothing : σ.dir.needs ((σ.sz + 4095) / 4096) (((σ.sz + 0 : ℤ).toNat + 4095) / 4096) = 0 :=
        σ.dir.needs_eq_zero (by simp only [PGSIZE]; omega)
      refine ⟨σ, 0, rfl, .inl rfl, ⟨fun _ => ?_, fun _ => rfl⟩, nofun⟩
      rw [hnothing]
      exact ⟨by omega, by omega, by omega, Nat.zero_le _⟩
    · exact growsExactly_pos hsz hnone (fun p hp _ => hframes p hp) hn hmax

/-- The first process, whose page is the physical page 7. -/
def initSpace : AddressSpace := ⟨PGSIZE, initDir, fun _ => 7, fun _ _ => 0⟩

/-- One page is added to the first process. -/
theorem growproc_exact_one : initSpace.GrowsExactly [8] 4096 ∧
    (initSpace.growproc [8] 4096).map Prod.snd = .ok 0 := by
  constructor
  · exact (growproc_exact initSpace [8] 4096 (by decide) initDir_covers
      (fun _ _ => by simp [initSpace]) (by decide) (by decide)).mpr nofun
  · decide

/-- A process that gives back all of its memory is told that it has failed, and its page is
gone; one that gives back more is told that it has succeeded, and its size is as it was. -/
theorem growproc_gives_back_all :
    ((∃ σ', initSpace.growproc [] (-4096) = .ok (σ', -1) ∧ (initSpace.page 0).isSome ∧
      σ'.page 0 = none) ∧ ¬initSpace.GrowsExactly [] (-4096)) ∧
    (∃ σ', initSpace.growproc [] (-8192) = .ok (σ', 0) ∧ (σ'.sz : ℤ) ≠ 4096 + -8192) ∧
      ¬initSpace.GrowsExactly [] (-8192) := by
  refine ⟨⟨⟨_, rfl, by decide, ?_⟩, ?_⟩, ⟨_, rfl, by decide⟩, ?_⟩
  · rw [← Option.isNone_iff_eq_none]
    decide
  · exact not_growsExactly (by decide) initDir_covers (by decide) (by decide) (by decide) (by decide)
  · exact not_growsExactly (by decide) initDir_covers (by decide) (by decide) (by decide) (by decide)

end KThreads
