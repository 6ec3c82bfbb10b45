import KThreads.Image

/-!
# What the functions on page directories do

A directory covers a size when exactly the user pages that begin below it are
present. The functions of `vm.c` are described by the pages that are present
before and after them; `allocuvm`, `deallocuvm`, `copyuvm` and the loader of
`exec` lead from a directory that covers one size to one that covers another,
also where they give up half-way, and none of their panics is reached.
-/

namespace KThreads

open Function (update)

/-- Page number `p` of the user half of a directory is present. -/
def Pgdir.Maps (d : Pgdir) (p : ℕ) : Prop := (walkpgdir d (p * PGSIZE)).join.isSome

/-- Exactly the user pages that begin below `sz` are present. -/
def Pgdir.Covers (d : Pgdir) (sz : ℕ) : Prop :=
  ∀ p, p * PGSIZE < KERNBASE → (d.Maps p ↔ p * PGSIZE < sz)

/-- There is a page table for page number `p`. -/
def Pgdir.HasTable (d : Pgdir) (p : ℕ) : Prop := (d.pde (PDX (p * PGSIZE))).isSome

instance (d : Pgdir) (p : ℕ) : Decidable (d.Maps p) := inferInstanceAs (Decidable (_ = true))

variable {d d' c : Pgdir} {p q a n sz oldsz newsz : ℕ}

theorem PDX_page (hp : p * PGSIZE < KERNBASE) : PDX (p * PGSIZE) = p / 1024 := by
  simp only [PDX, PGSIZE, KERNBASE] at *
  omega

theorem PTX_page : PTX (p * PGSIZE) = p % 1024 := by
  simp only [PTX, PGSIZE]
  omega

theorem page_eq (hp : p * PGSIZE < KERNBASE) (hq : q * PGSIZE < KERNBASE)
    (hpd : PDX (p * PGSIZE) = PDX (q * PGSIZE)) (hpt : PTX (p * PGSIZE) = PTX (q * PGSIZE)) :
    p = q := by
  rw [PDX_page hp, PDX_page hq] at hpd
  rw [PTX_page, PTX_page] at hpt
  omega

theorem PGROUNDUP_eq (h : sz ≤ KERNBASE) : PGROUNDUP sz = (sz + 4095) / 4096 * PGSIZE := by
  simp only [PGROUNDUP, PGSIZE, KERNBASE] at *
  omega

theorem PGROUNDDOWN_page : PGROUNDDOWN (p * PGSIZE) = p * PGSIZE := by
  simp only [PGROUNDDOWN, PGSIZE]
  omega

theorem PGROUNDDOWN_last : PGROUNDDOWN (p * PGSIZE + PGSIZE - 1) = p * PGSIZE := by
  simp only [PGROUNDDOWN, PGSIZE]
  omega

theorem page_succ : p * PGSIZE + PGSIZE = (p + 1) * PGSIZE := (Nat.succ_mul p PGSIZE).symm

theorem page_succ_lt (h : a * PGSIZE < sz) : (a + 1) * PGSIZE < sz + PGSIZE := by
  rw [← page_succ]
  exact Nat.add_lt_add_right h PGSIZE

theorem le_page_succ (h : sz ≤ a * PGSIZE) : sz ≤ (a + 1) * PGSIZE :=
  h.trans (Nat.mul_le_mul_right PGSIZE a.le_succ)

theorem pages_left (h : sz ≤ (a + (n + 1)) * PGSIZE) : sz ≤ (a + 1 + n) * PGSIZE := by
  rwa [Nat.add_right_comm]

theorem PGADDR_next (hp : p * PGSIZE < KERNBASE) :
    PGADDR (PDX (p * PGSIZE) + 1) 0 0 = (p / 1024 + 1) * 1024 * PGSIZE := by
  rw [PDX_page hp]
  simp only [PGADDR, PGSIZE, KERNBASE] at *
  omega

theorem Pgdir.HasTable.of_maps (h : d.Maps p) : d.HasTable p := by
  unfold Pgdir.Maps walkpgdir at h
  unfold Pgdir.HasTable
  cases hpde : d.pde (PDX (p * PGSIZE)) with
  | none => simp [hpde] at h
  | some pt => rfl

theorem not_maps_of_walkpgdir (h : walkpgdir d (p * PGSIZE) = none)
    (hpd : PDX (q * PGSIZE) = PDX (p * PGSIZE)) : ¬d.Maps q := by
  have hnone : d.pde (PDX (p * PGSIZE)) = none := by simpa [walkpgdir] using h
  simp [Pgdir.Maps, walkpgdir, hpd, hnone]

theorem maps_store {e : Option Pte} (hd : d.HasTable p) (hp : p * PGSIZE < KERNBASE)
    (hq : q * PGSIZE < KERNBASE) :
    (d.store (p * PGSIZE) e).Maps q ↔ if q = p then e.isSome = true else d.Maps q := by
  obtain ⟨pt, hpt⟩ := Option.isSome_iff_exists.mp hd
  have hstore : d.store (p * PGSIZE) e =
      ⟨update d.pde (PDX (p * PGSIZE)) (some (update pt (PTX (p * PGSIZE)) e))⟩ := by
    simp only [Pgdir.store, hpt]
  unfold Pgdir.Maps walkpgdir
  rw [hstore]
  by_cases hpd : PDX (q * PGSIZE) = PDX (p * PGSIZE)
  · by_cases htx : PTX (q * PGSIZE) = PTX (p * PGSIZE)
    · cases page_eq hq hp hpd htx
      simp
    · have hne : q ≠ p := fun h => htx (h ▸ rfl)
      simp [hpd, htx, hne, hpt]
  · have hne : q ≠ p := fun h => hpd (h ▸ rfl)
    simp only [Function.update_of_ne hpd, if_neg hne]

theorem walkpgdirAlloc_spec {mem mem' : ℕ}
    (h : walkpgdirAlloc d (p * PGSIZE) mem = some (d', mem')) :
    d'.HasTable p ∧ ∀ q, d'.Maps q ↔ d.Maps q := by
  unfold walkpgdirAlloc at h
  split at h
  · next hpde =>
    cases h
    exact ⟨by simp [Pgdir.HasTable, hpde], fun q => Iff.rfl⟩
  · cases h
  · next hpde =>
    cases h
    refine ⟨by simp [Pgdir.HasTable], fun q => ?_⟩
    unfold Pgdir.Maps walkpgdir
    by_cases hpd : PDX (q * PGSIZE) = PDX (p * PGSIZE)
    · simp [hpd, hpde]
    · simp [hpd]

theorem mappages_spec (perm : Pte) (mem : ℕ) (hp : p * PGSIZE < KERNBASE) (h : ¬d.Maps p) :
    ∃ done d' mem', mappages d (p * PGSIZE) PGSIZE perm mem = .ok (done, d', mem') ∧
      ∀ q, q * PGSIZE < KERNBASE → (d'.Maps q ↔ d.Maps q ∨ (done = true ∧ q = p)) := by
  simp only [mappages, PGROUNDDOWN_last, PGROUNDDOWN_page, Nat.sub_self, Nat.zero_div,
    mapLoop]
  split
  · exact ⟨false, d, mem, rfl, by simp⟩
  · next d₁ mem₁ halloc =>
    obtain ⟨htable, hsame⟩ := walkpgdirAlloc_spec halloc
    have hnew : ¬(walkpgdir d₁ (p * PGSIZE)).join.isSome := (hsame p).not.mpr h
    rw [if_neg hnew]
    refine ⟨true, _, mem₁, rfl, fun q hq => ?_⟩
    rw [maps_store htable hp hq, hsame]
    by_cases hqp : q = p <;> simp [hqp]

theorem walkpgdir_page (d : Pgdir) (va : ℕ) :
    walkpgdir d va = walkpgdir d (va / PGSIZE * PGSIZE) := by
  have hpd : PDX va = PDX (va / PGSIZE * PGSIZE) := by
    simp only [PDX, PGSIZE]
    omega
  have hpt : PTX va = PTX (va / PGSIZE * PGSIZE) := by
    simp only [PTX, PGSIZE]
    omega
  simp only [walkpgdir, hpd, hpt]

theorem deallocLoop_spec (hsz : oldsz ≤ KERNBASE) (hn : oldsz ≤ (a + n) * PGSIZE)
    (hq : q * PGSIZE < KERNBASE) :
    (deallocLoop oldsz n d (a * PGSIZE)).Maps q ↔
      d.Maps q ∧ ¬(a ≤ q ∧ q * PGSIZE < oldsz) := by
  induction n generalizing d a with
  | zero =>
    have hpast : ¬(a ≤ q ∧ q * PGSIZE < oldsz) := by
      simp only [PGSIZE] at *
      omega
    simp [deallocLoop, hpast]
  | succ n ih =>
    unfold deallocLoop
    split
    · next ha =>
      have ha' : a * PGSIZE < KERNBASE := ha.trans_le hsz
      split
      · -- no page table: the loop continues with the next one
        next hwalk =>
        rw [PGADDR_next ha', ih (by simp only [PGSIZE, Nat.mul_comm _ 4096] at hn ⊢; omega)]
        by_cases hpd : q / 1024 = a / 1024
        · have hnot := not_maps_of_walkpgdir hwalk (by rw [PDX_page hq, PDX_page ha', hpd])
          simp [hnot]
        · have hiff : (a / 1024 + 1) * 1024 ≤ q ↔ a ≤ q := by omega
          rw [hiff]
      · next hwalk =>
        have htable : d.HasTable a := .of_maps (by simp [Pgdir.Maps, hwalk])
        rw [page_succ, ih (pages_left hn), maps_store htable ha' hq]
        by_cases hqa : q = a
        · simp [hqa, ha]
        · have hiff : a + 1 ≤ q ↔ a ≤ q := by omega
          simp [hqa, hiff]
      · next hwalk =>
        have hnot : ¬d.Maps a := by simp [Pgdir.Maps, hwalk]
        rw [page_succ, ih (pages_left hn)]
        by_cases hqa : q = a
        · simp [hqa, hnot]
        · have hiff : a + 1 ≤ q ↔ a ≤ q := by omega
          rw [hiff]
    · next ha =>
      have hpast : ¬(a ≤ q ∧ q * PGSIZE < oldsz) := by
        simp only [PGSIZE] at *
        omega
      simp [hpast]

theorem deallocuvm_maps (hlt : newsz < oldsz) (hsz : oldsz ≤ KERNBASE)
    (hq : q * PGSIZE < KERNBASE) :
    (deallocuvm d oldsz newsz).1.Maps q ↔
      d.Maps q ∧ ¬(newsz ≤ q * PGSIZE ∧ q * PGSIZE < oldsz) := by
  rw [deallocuvm, if_neg (by omega), PGROUNDUP_eq (hlt.le.trans hsz)]
  rw [deallocLoop_spec hsz (by simp only [PGSIZE]; omega) hq]
  have hiff : (newsz + 4095) / 4096 ≤ q ↔ newsz ≤ q * PGSIZE := by
    simp only [PGSIZE]
    omega
  rw [hiff]

theorem deallocuvm_snd : (deallocuvm d oldsz newsz).2 = min oldsz newsz := by
  unfold deallocuvm
  split
  · exact (Nat.min_eq_left (by omega)).symm
  · exact (Nat.min_eq_right (by omega)).symm

theorem Pgdir.Covers.deallocuvm (h : d.Covers oldsz) (hsz : oldsz ≤ KERNBASE) (newsz : ℕ) :
    (KThreads.deallocuvm d oldsz newsz).1.Covers (min oldsz newsz) := by
  by_cases hlt : newsz < oldsz
  · intro q hq
    rw [deallocuvm_maps hlt hsz hq, h q hq]
    omega
  · rw [KThreads.deallocuvm, if_pos (by omega), Nat.min_eq_left (by omega)]
    exact h

theorem Pgdir.Covers.walkpgdir (h : d.Covers sz) (hsz : sz < KERNBASE) {va : ℕ}
    (hva : va < KERNBASE) :
    (va < sz → (KThreads.walkpgdir d va).join.isSome) ∧
      (PGROUNDUP sz ≤ va → (KThreads.walkpgdir d va).join = none) := by
  have hpage := h (va / PGSIZE) (by simp only [PGSIZE, KERNBASE] at *; omega)
  unfold Pgdir.Maps at hpage
  rw [← walkpgdir_page] at hpage
  refine ⟨fun hlt => hpage.mpr (by simp only [PGSIZE]; omega), fun hle => ?_⟩
  rw [PGROUNDUP_eq hsz.le] at hle
  have hnot := hpage.not.mpr (by simp only [PGSIZE] at *; omega)
  simpa using hnot

theorem Pgdir.Covers.congr {sz' : ℕ} (h : d.Covers sz)
    (heq : (sz + 4095) / 4096 = (sz' + 4095) / 4096) : d.Covers sz' := by
  intro p hp
  rw [h p hp]
  simp only [PGSIZE]
  omega

theorem Pgdir.Covers.done (h : d.Covers (a * PGSIZE)) (ha : a * PGSIZE < sz + PGSIZE)
    (hsz : sz ≤ a * PGSIZE) : d.Covers sz :=
  h.congr (by
    simp only [PGSIZE] at ha hsz ⊢
    omega)

theorem Pgdir.Covers.mappages (h : d.Covers (a * PGSIZE)) (perm : Pte) (mem : ℕ)
    (ha : a * PGSIZE < KERNBASE) :
    ∃ done d' mem', KThreads.mappages d (a * PGSIZE) PGSIZE perm mem = .ok (done, d', mem') ∧
      d'.Covers ((a + if done then 1 else 0) * PGSIZE) := by
  obtain ⟨done, d', mem', heq, hmaps⟩ :=
    mappages_spec perm mem ha ((h a ha).not.mpr (Nat.lt_irrefl _))
  refine ⟨done, d', mem', heq, fun q hq => ?_⟩
  rw [hmaps q hq, h q hq]
  simp only [PGSIZE]
  cases done with
  | true =>
    simp only [if_true, true_and]
    omega
  | false => simp

theorem Pgdir.Covers.undo (h : d.Covers (a * PGSIZE)) (hold : oldsz ≤ a * PGSIZE)
    (ha : a * PGSIZE < newsz) (hnew : newsz < KERNBASE) :
    (KThreads.deallocuvm d newsz oldsz).1.Covers oldsz := by
  intro q hq
  rw [deallocuvm_maps (hold.trans_lt ha) hnew.le hq, h q hq]
  omega

theorem allocLoop_spec (hd : d.Covers (a * PGSIZE)) (hold : oldsz ≤ a * PGSIZE)
    (ha : a * PGSIZE < newsz + PGSIZE) (hnew : newsz < KERNBASE)
    (hn : newsz ≤ (a + n) * PGSIZE) (mem : ℕ) :
    ∃ d' r mem', allocLoop oldsz newsz n d (a * PGSIZE) mem = .ok (d', r, mem') ∧
      (r = 0 ∧ d'.Covers oldsz ∨ r = newsz ∧ d'.Covers newsz) := by
  induction n generalizing d a mem with
  | zero => exact ⟨d, newsz, mem, rfl, .inr ⟨rfl, hd.done ha hn⟩⟩
  | succ n ih =>
    unfold allocLoop
    split
    · next hlt =>
      cases mem with
      | zero => exact ⟨_, 0, 0, rfl, .inl ⟨rfl, hd.undo hold hlt hnew⟩⟩
      | succ mem =>
        obtain ⟨done, d₁, mem₁, heq, hcov⟩ :=
          hd.mappages ⟨true, true⟩ mem (hlt.trans hnew)
        simp only [heq]
        cases done with
        | true =>
          simp only [page_succ]
          simp only [if_true] at hcov
          exact ih hcov (le_page_succ hold) (page_succ_lt hlt) (pages_left hn) mem₁
        | false => exact ⟨_, 0, _, rfl, .inl ⟨rfl, hcov.undo hold hlt hnew⟩⟩
    · next hge => exact ⟨d, newsz, mem, rfl, .inr ⟨rfl, hd.done ha (Nat.le_of_not_lt hge)⟩⟩

theorem Pgdir.Covers.allocuvm (h : d.Covers oldsz) (hold : oldsz ≤ KERNBASE) (newsz mem : ℕ) :
    ∃ d' r mem', KThreads.allocuvm d oldsz newsz mem = .ok (d', r, mem') ∧
      (r = 0 ∧ d'.Covers oldsz ∧ oldsz ≤ newsz ∨
        d'.Covers r ∧ (r = newsz ∧ oldsz ≤ newsz ∧ newsz < KERNBASE ∨ r = oldsz ∧ newsz < oldsz)) := by
  unfold KThreads.allocuvm
  split
  · next hge => exact ⟨d, 0, mem, rfl, .inl ⟨rfl, h, hold.trans hge⟩⟩
  · split
    · next hlt => exact ⟨d, oldsz, mem, rfl, .inr ⟨h, .inr ⟨rfl, hlt⟩⟩⟩
    · next hnew hge =>
      rw [PGROUNDUP_eq hold]
      have hstart : d.Covers ((oldsz + 4095) / 4096 * PGSIZE) := h.congr (by
        simp only [PGSIZE]
        omega)
      obtain ⟨d', r, mem', heq, hr⟩ := allocLoop_spec (n := newsz / PGSIZE + 1) hstart
        (by simp only [PGSIZE]; omega : oldsz ≤ _)
        (by simp only [PGSIZE]; omega : _ < newsz + PGSIZE) (by omega)
        (by simp only [PGSIZE]; omega) mem
      refine ⟨d', r, mem', heq, hr.imp (fun h => ⟨h.1, h.2, Nat.le_of_not_lt hge⟩) ?_⟩
      rintro ⟨rfl, hcov⟩
      exact ⟨hcov, .inl ⟨rfl, by omega, by omega⟩⟩

theorem Pgdir.covers_empty : Pgdir.empty.Covers 0 := by
  intro p _
  simp [Pgdir.Maps, walkpgdir, Pgdir.empty]

theorem setupkvm_covers {mem mem' : ℕ} (h : setupkvm mem = some (d, mem')) : d.Covers 0 := by
  unfold setupkvm at h
  split at h
  · cases h
  · cases h
    exact Pgdir.covers_empty

theorem copyLoop_spec (hd : d.Covers sz) (hsz : sz ≤ KERNBASE) (hc : c.Covers (a * PGSIZE))
    (ha : a * PGSIZE < sz + PGSIZE) (hn : sz ≤ (a + n) * PGSIZE) (mem : ℕ) :
    ∃ r, copyLoop d sz n c (a * PGSIZE) mem = .ok r ∧ ∀ c' ∈ r, c'.Covers sz := by
  induction n generalizing c a mem with
  | zero => exact ⟨some c, rfl, by simpa using hc.done ha hn⟩
  | succ n ih =>
    unfold copyLoop
    split
    · next hlt =>
      have hmaps : d.Maps a := (hd a (hlt.trans_le hsz)).mpr hlt
      unfold Pgdir.Maps at hmaps
      split
      · next hwalk => simp [hwalk] at hmaps
      · next hwalk => simp [hwalk] at hmaps
      · exact ⟨none, rfl, by simp⟩
      · next pte mem _ =>
        obtain ⟨done, c₁, mem₁, heq, hcov⟩ :=
          hc.mappages pte mem (hlt.trans_le hsz)
        rw [heq]
        cases done with
        | true =>
          simp only [page_succ]
          simp only [if_true] at hcov
          exact ih hcov (page_succ_lt hlt) (pages_left hn) mem₁
        | false => exact ⟨none, rfl, by simp⟩
    · next hge => exact ⟨some c, rfl, by simpa using hc.done ha (Nat.le_of_not_lt hge)⟩

theorem Pgdir.Covers.copyuvm (h : d.Covers sz) (hsz : sz ≤ KERNBASE) (mem : ℕ) :
    ∃ r, KThreads.copyuvm d sz mem = .ok r ∧ ∀ c ∈ r, c.Covers sz := by
  unfold KThreads.copyuvm
  split
  · exact ⟨none, rfl, by simp⟩
  · next c mem' hkvm =>
    have hstart : c.Covers (0 * PGSIZE) := by simpa using setupkvm_covers hkvm
    have hloop := copyLoop_spec (n := sz / PGSIZE + 1) h hsz hstart (by simp only [PGSIZE]; omega)
      (by simp only [PGSIZE]; omega) mem'
    simpa using hloop

theorem loadSegments_spec (phs : List ProgHdr) (h : d.Covers sz) (hsz : sz < KERNBASE)
    (mem : ℕ) :
    ∃ r, loadSegments phs d sz mem = .ok r ∧
      ∀ x ∈ r, x.1.Covers x.2.1 ∧ x.2.1 < KERNBASE := by
  induction phs generalizing d sz mem with
  | nil => exact ⟨_, rfl, by simpa using ⟨h, hsz⟩⟩
  | cons ph phs ih =>
    unfold loadSegments
    split
    · exact ih h hsz mem
    · split
      · exact ⟨none, rfl, by simp⟩
      · split
        · exact ⟨none, rfl, by simp⟩
        · obtain ⟨d', r, mem', heq, hr⟩ := h.allocuvm hsz.le
            ((ph.vaddr + ph.memsz) % 2 ^ 32) mem
          simp only [heq]
          split
          · exact ⟨none, rfl, by simp⟩
          · next hne =>
            obtain ⟨hcov, hlt⟩ : d'.Covers r ∧ r < KERNBASE := by
              rcases hr with ⟨hzero, -⟩ | ⟨hcov, hlt | hlt⟩
              · exact absurd (Or.inl hzero) hne
              · exact ⟨hcov, by omega⟩
              · exact ⟨hcov, by omega⟩
            exact ih hcov hlt mem'

theorem clearpteu_spec (h : d.Maps p) (hp : p * PGSIZE < KERNBASE) :
    ∃ d', clearpteu d (p * PGSIZE) = .ok d' ∧
      ∀ q, q * PGSIZE < KERNBASE → (d'.Maps q ↔ d.Maps q) := by
  unfold clearpteu
  split
  · next hwalk => simp [Pgdir.Maps, hwalk] at h
  · next e hwalk =>
    refine ⟨_, rfl, fun q hq => ?_⟩
    rw [maps_store (.of_maps h) hp hq]
    by_cases hqp : q = p
    · subst hqp
      have he : e.isSome := by simpa [Pgdir.Maps, hwalk] using h
      simp [h, he]
    · simp [hqp]

theorem execImage_spec (elf : Elf) (mem : ℕ) :
    ∃ r, execImage elf mem = .ok r ∧ ∀ x ∈ r, x.1.Covers x.2 ∧ x.2 < KERNBASE := by
  unfold execImage
  split
  · exact ⟨none, rfl, by simp⟩
  · next d mem' hkvm =>
    obtain ⟨r, hload, hr⟩ := loadSegments_spec elf.phdrs (setupkvm_covers hkvm)
      (by simp) mem'
    simp only [hload]
    cases r with
    | none => exact ⟨none, rfl, by simp⟩
    | some x =>
      obtain ⟨d, sz, mem⟩ := x
      obtain ⟨hcov, hsz⟩ : d.Covers sz ∧ sz < KERNBASE := hr _ rfl
      have hround := PGROUNDUP_eq hsz.le
      have hcov' : d.Covers (PGROUNDUP sz) := hcov.congr (by
        simp only [hround, PGSIZE]
        omega)
      have hle : PGROUNDUP sz ≤ KERNBASE := by
        simp only [hround, PGSIZE, KERNBASE] at *
        omega
      obtain ⟨d', r, mem', halloc, hr⟩ := hcov'.allocuvm hle
        ((PGROUNDUP sz + 2 * PGSIZE) % 2 ^ 32) mem
      simp only [halloc]
      split
      · exact ⟨none, rfl, by simp⟩
      · next hne =>
        -- Nothing wraps, so the new size is two pages above the old one.
        obtain ⟨hcov, heq, hlt⟩ : d'.Covers r ∧ r = PGROUNDUP sz + 2 * PGSIZE ∧ r < KERNBASE := by
          simp only [PGSIZE, KERNBASE] at *
          rcases hr with ⟨hzero, -⟩ | ⟨hcov, hlt | hlt⟩
          · exact absurd hzero hne
          · exact ⟨hcov, by omega, by omega⟩
          · omega
        have hpage : r - 2 * PGSIZE = (sz + 4095) / 4096 * PGSIZE := by omega
        have hlow : (sz + 4095) / 4096 * PGSIZE < KERNBASE := by omega
        obtain ⟨d'', hclear, hmaps⟩ := clearpteu_spec ((hcov _ hlow).mpr (by
          simp only [PGSIZE] at *
          omega)) hlow
        rw [hpage, hclear]
        refine ⟨_, rfl, fun x hx => ?_⟩
        split at hx
        · cases hx
          exact ⟨fun q hq => (hmaps q hq).trans (hcov q hq), hlt⟩
        · cases hx

end KThreads
