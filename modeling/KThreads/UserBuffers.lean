import KThreads.Frames.Machine

/-!
# Buffers that the kernel copies to a user

`copyout` writes a buffer when all of its pages are present and accessible to the user, and
returns -1 otherwise. It follows a null pointer when the first page that is not accessible has no
page table: `uva2ka` does not check what `walkpgdir` returns.
-/

namespace KThreads.Frames

open Function (update_of_ne update_self)
open Words Holdings Store

/-- The page `n` is present and accessible to the user. -/
def Accessible (c : ℕ → ℕ → UInt8) (r n : ℕ) : Prop :=
  ∃ w, mapping c r n = some w ∧ w &&& PTE_U ≠ 0

/-- The page `n` has one of the `len` addresses from `va` on. -/
def Touches (va len n : ℕ) : Prop := ∃ i < len, (va + i) / PGSIZE = n

variable {K : Link} {m : Memory} {x : Multiset ℕ} {r n p w va fuel off : ℕ} {buf : List UInt8}

theorem Accessible.user (hs : Sealed m.page r) (h : Accessible m.page r n) : n < USERPAGES := by
  obtain ⟨w, hw, hu⟩ := h
  by_contra hn
  exact hu (hs n w (not_lt.mp hn) hw)

theorem Accessible.isSome (h : Accessible m.page r n) : (mapping m.page r n).isSome := by
  obtain ⟨w, hw, -⟩ := h
  simp [hw]

theorem touches_first (hlen : 0 < buf.length) : Touches va buf.length (va / PGSIZE) :=
  ⟨0, hlen, rfl⟩

theorem memmove_nil : memmove m p off [] = m := by
  have hpage : (memmove m p off []).page = m.page := by
    funext q
    by_cases hq : q = p
    · subst hq
      funext y
      simp [memmove]
    · exact update_of_ne hq _ _
  show Store.mk (memmove m p off []).page m.free = m
  rw [hpage]

theorem memmove_cons {b : UInt8} {bs : List UInt8} :
    memmove m p off (b :: bs) = memmove (memmove m p off [b]) p (off + 1) bs := by
  have hpage : (memmove m p off (b :: bs)).page =
      (memmove (memmove m p off [b]) p (off + 1) bs).page := by
    funext q
    by_cases hq : q = p
    · subst hq
      funext y
      simp only [memmove, update_self, List.length_cons, List.length_nil]
      rcases lt_trichotomy y off with hy | rfl | hy
      · rw [if_neg (by omega), if_neg (by omega), if_neg (by omega)]
      · rw [if_pos (by omega), if_neg (by omega), if_pos (by omega)]
        simp
      · rw [if_neg (by omega : ¬(off ≤ y ∧ y < off + (0 + 1)))]
        have hsub : y - off = y - (off + 1) + 1 := by omega
        by_cases hlt : y < off + (bs.length + 1)
        · rw [if_pos (by omega), if_pos (by omega), hsub, List.getD_cons_succ]
        · rw [if_neg (by omega), if_neg (by omega)]
    · simp [memmove, update_of_ne hq]
  show Store.mk (memmove m p off (b :: bs)).page m.free = _
  rw [hpage]
  rfl

theorem Valid.memmove_eq (V : Valid K m {r} x) (hn : n < USERPAGES)
    (hw : mapping m.page r n = some w) (hoff : off + buf.length ≤ PGSIZE) :
    memmove m (w / PGSIZE) off buf = pokes m r (n * PGSIZE + off) buf := by
  induction buf generalizing m off with
  | nil => exact memmove_nil
  | cons b bs ih =>
    rw [List.length_cons] at hoff
    have hdiv : (n * PGSIZE + off) / PGSIZE = n := by
      simp only [PGSIZE] at *
      omega
    have hmod : (n * PGSIZE + off) % PGSIZE = off := by
      simp only [PGSIZE] at *
      omega
    have hva : n * PGSIZE + off < KERNBASE := by
      simp only [PGSIZE, KERNBASE, USERPAGES] at *
      omega
    have hpoke : memmove m (w / PGSIZE) off [b] = poke m r (n * PGSIZE + off) b := by
      rw [poke, hdiv, hw, hmod]
    rw [memmove_cons, hpoke, pokes, Nat.add_assoc]
    refine ih (V.keeps (V.keeps_poke hva)) ?_ (by omega)
    rw [V.mapping_poke hva, hw]

section

theorem uva2ka_eq (hn : n < 2 ^ 20) :
    uva2ka m r (n * PGSIZE) =
      match table m.page r (n / 1024) with
      | none => .error .nullPte
      | some t =>
          if Present (word (m.page t) (n % 1024)) ∧ word (m.page t) (n % 1024) &&& PTE_U ≠ 0 then
            .ok (some (word (m.page t) (n % 1024) / PGSIZE))
          else .ok none := by
  rw [uva2ka, walkpgdir_eq hn]
  cases table m.page r (n / 1024) with
  | none => rfl
  | some t =>
    simp only [Option.map_some, load, PTE_ADDR_div]
    by_cases hpres : Present (word (m.page t) (n % 1024))
    · by_cases hu : word (m.page t) (n % 1024) &&& PTE_U = 0 <;> simp [hpres, hu]
    · simp [hpres]

theorem uva2ka_none (hn : n < 2 ^ 20) (ht : table m.page r (n / 1024) = none) :
    uva2ka m r (n * PGSIZE) = .error .nullPte := by
  rw [uva2ka_eq hn, ht]

theorem uva2ka_inaccessible (hn : n < 2 ^ 20) (ht : (table m.page r (n / 1024)).isSome)
    (hacc : ¬Accessible m.page r n) : uva2ka m r (n * PGSIZE) = .ok none := by
  obtain ⟨t, ht⟩ := Option.isSome_iff_exists.mp ht
  rw [uva2ka_eq hn, ht]
  refine if_neg fun h => hacc ⟨_, mapping_eq_some.mpr ⟨t, ht, rfl, h.1⟩, h.2⟩

theorem uva2ka_accessible (hn : n < 2 ^ 20) (hw : mapping m.page r n = some w)
    (hu : w &&& PTE_U ≠ 0) : uva2ka m r (n * PGSIZE) = .ok (some (w / PGSIZE)) := by
  obtain ⟨t, ht, rfl, hpres⟩ := mapping_eq_some.mp hw
  rw [uva2ka_eq hn, ht]
  exact if_pos ⟨hpres, hu⟩

theorem page_lt (hva : va < 2 ^ 32) : va / PGSIZE < 2 ^ 20 := by
  simp only [PGSIZE]
  omega

variable (hlen : 0 < buf.length) (hva : va < 2 ^ 32)

include hlen hva

theorem copyoutLoop_null (ht : table m.page r (va / PGSIZE / 1024) = none) :
    copyoutLoop r (fuel + 1) m va buf = .error .nullPte := by
  have huva : uva2ka m r (PGROUNDDOWN va) = .error .nullPte := uva2ka_none (page_lt hva) ht
  simp only [copyoutLoop, gt_iff_lt, hlen, if_true, huva, bind, Except.bind]

theorem copyoutLoop_stop (ht : (table m.page r (va / PGSIZE / 1024)).isSome)
    (hacc : ¬Accessible m.page r (va / PGSIZE)) :
    copyoutLoop r (fuel + 1) m va buf = .ok (false, m) := by
  have huva : uva2ka m r (PGROUNDDOWN va) = .ok none :=
    uva2ka_inaccessible (page_lt hva) ht hacc
  simp only [copyoutLoop, gt_iff_lt, hlen, if_true, huva, bind, Except.bind]

theorem Valid.copyoutLoop_next (V : Valid K m {r} x) (hs : Sealed m.page r)
    (hacc : Accessible m.page r (va / PGSIZE)) :
    copyoutLoop r (fuel + 1) m va buf =
      copyoutLoop r fuel (pokes m r va (buf.take (PGSIZE - va % PGSIZE)))
        ((va / PGSIZE + 1) * PGSIZE % 2 ^ 32) (buf.drop (PGSIZE - va % PGSIZE)) := by
  have huser := hacc.user hs
  obtain ⟨w, hw, hu⟩ := hacc
  have huva : uva2ka m r (PGROUNDDOWN va) = .ok (some (w / PGSIZE)) :=
    uva2ka_accessible (page_lt hva) hw hu
  have hoff : va - PGROUNDDOWN va = va % PGSIZE := by
    simp only [PGROUNDDOWN, PGSIZE]
    omega
  have htake : (buf.take (PGSIZE - va % PGSIZE)).length ≤ PGSIZE - va % PGSIZE :=
    List.length_take_le _ _
  have hmod : va % PGSIZE < PGSIZE := Nat.mod_lt _ (by decide)
  have hfits : va % PGSIZE + (buf.take (PGSIZE - va % PGSIZE)).length ≤ PGSIZE := by omega
  have hmove := V.memmove_eq huser hw hfits
  rw [Nat.div_add_mod'] at hmove
  simp only [copyoutLoop, gt_iff_lt, hlen, if_true, huva, bind, Except.bind, hoff]
  rw [← List.take_eq_take_min, hmove, Nat.add_mul, Nat.one_mul]
  congr 1
  rcases le_total (PGSIZE - va % PGSIZE) buf.length with h | h
  · rw [Nat.min_eq_left h]
  · rw [Nat.min_eq_right h, List.drop_length, List.drop_eq_nil_of_le h]

end

theorem copyoutLoop_nil : copyoutLoop r fuel m va [] = .ok (true, m) := by
  cases fuel <;> simp [copyoutLoop]

theorem Sealed.pokes (V : Valid K m {r} x) (hs : Sealed m.page r)
    (hva : va + buf.length ≤ KERNBASE) : Sealed (pokes m r va buf).page r := by
  rw [Sealed, V.mapping_pokes hva]
  exact hs

theorem accessible_pokes (V : Valid K m {r} x) (hva : va + buf.length ≤ KERNBASE) :
    Accessible (pokes m r va buf).page r n ↔ Accessible m.page r n := by
  rw [Accessible, Accessible, V.mapping_pokes hva]

theorem touches_drop {k : ℕ} (hk : k < buf.length) :
    Touches (va + k) (buf.drop k).length n → Touches va buf.length n := by
  rintro ⟨i, hi, rfl⟩
  rw [List.length_drop] at hi
  exact ⟨k + i, by omega, by rw [Nat.add_assoc]⟩

theorem touches_cases (h : Touches va buf.length n) :
    n = va / PGSIZE ∨ PGSIZE - va % PGSIZE < buf.length ∧ va / PGSIZE < n ∧
      Touches (va + (PGSIZE - va % PGSIZE)) (buf.drop (PGSIZE - va % PGSIZE)).length n := by
  obtain ⟨i, hi, rfl⟩ := h
  have hmod : va % PGSIZE < PGSIZE := Nat.mod_lt _ (by decide)
  by_cases hk : i < PGSIZE - va % PGSIZE
  · left
    simp only [PGSIZE] at *
    omega
  · right
    refine ⟨by omega, ?_, i - (PGSIZE - va % PGSIZE), ?_, ?_⟩
    · simp only [PGSIZE] at *
      omega
    · rw [List.length_drop]
      omega
    · rw [Nat.add_assoc, Nat.add_sub_cancel' (not_lt.mp hk)]

theorem Valid.copyout_loop (V : Valid K m {r} x) (hs : Sealed m.page r)
    (hva : va + buf.length ≤ 2 ^ 32) (hfuel : buf.length < fuel) :
    ((∀ n, Touches va buf.length n → Accessible m.page r n) ∧
      copyoutLoop r fuel m va buf = .ok (true, pokes m r va buf)) ∨
    ∃ n, Touches va buf.length n ∧ ¬Accessible m.page r n ∧
      (∀ k, Touches va buf.length k → k < n → Accessible m.page r k) ∧
      ((table m.page r (n / 1024) = none ∧ copyoutLoop r fuel m va buf = .error .nullPte) ∨
        (table m.page r (n / 1024)).isSome ∧
          ∃ m', copyoutLoop r fuel m va buf = .ok (false, m') ∧ Keeps owned m {r} x m' {r} x) := by
  induction fuel generalizing m va buf with
  | zero => exact absurd hfuel (Nat.not_lt_zero _)
  | succ fuel ih =>
    by_cases hlen : 0 < buf.length
    swap
    · obtain rfl : buf = [] := List.eq_nil_of_length_eq_zero (by omega)
      refine .inl ⟨?_, copyoutLoop_nil⟩
      rintro n ⟨i, hi, -⟩
      exact absurd hi (Nat.not_lt_zero i)
    have hlt : va < 2 ^ 32 := by omega
    by_cases hacc : Accessible m.page r (va / PGSIZE)
    swap
    · -- the first page is not accessible
      refine .inr ⟨va / PGSIZE, touches_first hlen, hacc, ?_, ?_⟩
      · rintro k ⟨i, -, rfl⟩ hk
        have := Nat.div_le_div_right (c := PGSIZE) (Nat.le_add_right va i)
        omega
      · cases ht : table m.page r (va / PGSIZE / 1024) with
        | none => exact .inl ⟨rfl, copyoutLoop_null hlen hlt ht⟩
        | some t =>
          have hsome : (table m.page r (va / PGSIZE / 1024)).isSome := by simp [ht]
          exact .inr ⟨rfl, m, copyoutLoop_stop hlen hlt hsome hacc, .refl⟩
    rw [V.copyoutLoop_next hlen hlt hs hacc]
    have huser := hacc.user hs
    obtain ⟨k, hk⟩ : ∃ k, k = PGSIZE - va % PGSIZE := ⟨_, rfl⟩
    have hmod : va % PGSIZE < PGSIZE := Nat.mod_lt _ (by decide)
    have hend : va + k = (va / PGSIZE + 1) * PGSIZE := by
      have := Nat.div_add_mod' va PGSIZE
      rw [Nat.add_mul]
      omega
    have hle : va + (buf.take k).length ≤ KERNBASE := by
      have := List.length_take_le k buf
      simp only [PGSIZE, KERNBASE, USERPAGES] at *
      omega
    rw [← hk]
    by_cases hlast : buf.length ≤ k
    · -- the buffer ends on the first page
      rw [List.take_of_length_le hlast, List.drop_eq_nil_of_le hlast, copyoutLoop_nil]
      refine .inl ⟨fun n hn => ?_, rfl⟩
      rcases touches_cases hn with rfl | ⟨hrest, -⟩
      · exact hacc
      · omega
    · rw [not_le] at hlast
      have hdrop : (buf.drop k).length = buf.length - k := List.length_drop
      have hnext : (va / PGSIZE + 1) * PGSIZE % 2 ^ 32 = va + k := by
        rw [hend, Nat.mod_eq_of_lt (by omega)]
      have hkeep := V.keeps_pokes hle
      have hpokes : pokes m r va buf = pokes (pokes m r va (buf.take k)) r (va + k) (buf.drop k) := by
        have hlen : (buf.take k).length = k := List.length_take_of_le hlast.le
        conv_lhs => rw [← List.take_append_drop k buf, pokes_append, hlen]
      have htouch : ∀ n, Touches va buf.length n →
          n = va / PGSIZE ∨ Touches (va + k) (buf.drop k).length n := fun n hn =>
        (touches_cases hn).imp_right fun h => hk ▸ h.2.2
      rw [hnext, hpokes]
      rcases @ih _ (va + k) (buf.drop k) (V.keeps hkeep) (hs.pokes V hle) (by omega)
        (by omega) with ⟨hall, heq⟩ | ⟨n, hn, hnot, hbefore, hstop⟩
      · refine .inl ⟨fun n hn => ?_, heq⟩
        rcases htouch n hn with rfl | hn
        · exact hacc
        · exact (accessible_pokes V hle).mp (hall n hn)
      · rw [accessible_pokes V hle] at hnot
        rw [V.table_pokes hle] at hstop
        refine .inr ⟨n, touches_drop hlast hn, hnot, fun j hj hjn => ?_, ?_⟩
        · rcases htouch j hj with rfl | hj
          · exact hacc
          · exact (accessible_pokes V hle).mp (hbefore j hj hjn)
        · refine hstop.imp_right ?_
          rintro ⟨ht, m', heq, hkeep'⟩
          exact ⟨ht, m', heq, hkeep.trans hkeep'⟩

theorem Sealed.below (hs : Sealed m.page r) (hlen : 0 < buf.length)
    (hall : ∀ n, Touches va buf.length n → Accessible m.page r n) : va + buf.length ≤ KERNBASE := by
  have huser := (hall _ ⟨buf.length - 1, by omega, rfl⟩).user hs
  simp only [PGSIZE, KERNBASE, USERPAGES] at *
  omega

end KThreads.Frames

namespace KThreads.Frames

open Transition (Reach anyStep)

/-- What is expected of `copyout`. -/
structure CopiesOut (m : Memory) (r va : ℕ) (buf : List UInt8) : Prop where
  /-- If all pages are accessible the buffer is written, and nothing else. -/
  copies : (∀ n, Touches va buf.length n → Accessible m.page r n) →
    ∃ m', copyout m r va buf = .ok (true, m') ∧ m'.free = m.free ∧
      (∀ i (hi : i < buf.length), peek m'.page r (va + i) = some buf[i]) ∧
      ∀ p o, (∀ i < buf.length, physical m.page r (va + i) ≠ some (p, o)) →
        m'.page p o = m.page p o
  /-- Otherwise it returns -1. -/
  fails : ∀ n, Touches va buf.length n → ¬Accessible m.page r n →
    ∃ m', copyout m r va buf = .ok (false, m')

/-- Each page has a page table if all pages before it are accessible. -/
def TablesThere (c : ℕ → ℕ → UInt8) (r va len : ℕ) : Prop :=
  ∀ n, Touches va len n → (∀ k, Touches va len k → k < n → Accessible c r k) →
    (table c r (n / 1024)).isSome

variable {K : Link} {m : Memory} {x : Multiset ℕ} {r va : ℕ} {buf : List UInt8} {s : Space}

theorem Valid.copies_out (V : Valid K m {r} x) (hs : Sealed m.page r)
    (hall : ∀ n, Touches va buf.length n → Accessible m.page r n)
    (heq : copyout m r va buf = .ok (true, pokes m r va buf)) : CopiesOut m r va buf := by
  refine ⟨fun _ => ⟨_, heq, pokes_free, ?_⟩, fun n hn hnot => absurd (hall n hn) hnot⟩
  by_cases hlen : 0 < buf.length
  · have hle := hs.below hlen hall
    refine ⟨fun i hi => V.peek_pokes hle (fun j hj => ?_) hi, fun p o hnot => V.pokes_byte hle hnot⟩
    exact (hall _ ⟨j, hj, rfl⟩).isSome
  · obtain rfl : buf = [] := List.eq_nil_of_length_eq_zero (by omega)
    exact ⟨fun i hi => absurd hi (Nat.not_lt_zero i), fun _ _ _ => rfl⟩

/-- In every directory of every run, `copyout` does what is expected exactly when the first page
that is not accessible has a page table. -/
theorem copyout_iff_tables (F : FreePages K) (h : Reach (directories F) anyStep s) (hr : r ∈ s.dirs)
    (hva : va + buf.length < 2 ^ 32) :
    CopiesOut s.mem r va buf ↔ TablesThere s.mem.page r va buf.length := by
  have V := (F.stock_of_reach h).2.of_mem hr
  have hs := F.sealed_of_reach h r hr
  rcases V.copyout_loop hs hva.le (Nat.lt_succ_self _) with
    ⟨hall, heq⟩ | ⟨n, hn, hnot, hbefore, hstop⟩
  · refine iff_of_true (V.copies_out hs hall heq) fun n hn _ => ?_
    obtain ⟨w, hw, -⟩ := hall n hn
    obtain ⟨t, ht, -⟩ := mapping_eq_some.mp hw
    simp [ht]
  rcases hstop with ⟨hnone, heq⟩ | ⟨hsome, m', heq, -⟩
  · refine iff_of_false (fun hcopy => ?_) fun htables => ?_
    · obtain ⟨m', hm'⟩ := hcopy.fails n hn hnot
      rw [copyout, heq] at hm'
      cases hm'
    · have := htables n hn hbefore
      rw [hnone] at this
      cases this
  · refine iff_of_true ⟨fun hall => absurd (hall n hn) hnot, fun _ _ _ => ⟨m', heq⟩⟩ ?_
    intro k hk hkbefore
    rcases lt_trichotomy k n with hlt | rfl | hgt
    · obtain ⟨w, hw, -⟩ := hbefore k hk hlt
      obtain ⟨t, ht, -⟩ := mapping_eq_some.mp hw
      simp [ht]
    · exact hsome
    · exact absurd (hkbefore n hn hgt) hnot

/-- Four bytes across the end of a page of an image of two pages. -/
theorem copyout_iff_tables_image :
    ∃ s : Space, ∃ r ∈ s.dirs, CopiesOut s.mem r 4094 [1, 2, 3, 4] ∧
      TablesThere s.mem.page r 4094 4 := by
  have hsz : 2 * PGSIZE < KERNBASE := by decide
  obtain ⟨d, m₁, m₂, hreach, -, hgrow⟩ := boot_valid.reach_image hsz
    (by rw [boot_free]; decide)
  have htables : TablesThere m₂.page d 4094 4 := by
    rintro n ⟨i, hi, rfl⟩ -
    have hn : (4094 + i) / PGSIZE < pagesOf (2 * PGSIZE) := by
      rw [show pagesOf (2 * PGSIZE) = 2 by decide]
      simp only [PGSIZE]
      omega
    obtain ⟨p, hp⟩ := hgrow.inside _ (Nat.zero_le _) hn
    obtain ⟨t, ht, -⟩ := mapping_eq_some.mp hp
    simp [ht]
  exact ⟨⟨m₂, [d]⟩, d, List.mem_singleton_self d,
    (copyout_iff_tables boot_valid.freePages hreach (List.mem_singleton_self d) (by decide)).mpr
      htables, htables⟩

/-- In a directory of `setupkvm` the address 0 has no page table. -/
theorem copyout_follows_null :
    ∃ s : Space, ∃ r ∈ s.dirs, Reach (directories boot_valid.freePages) anyStep s ∧
      copyout s.mem r 0 [1] = .error .nullPte ∧ ¬CopiesOut s.mem r 0 [1] := by
  obtain ⟨d, m, hreach, htight, hmap⟩ := boot_valid.reach_setup (by rw [boot_free]; decide)
  have hnone : ∀ n, n / 1024 = 0 → mapping m.page d n = none := by
    intro n hn
    rw [hmap]
    exact kernelMap_user (kmap_fits bootLink) (by simp only [USERPAGES]; omega)
  have htable : table m.page d 0 = none := by
    by_contra hsome
    obtain ⟨n, hn, hmapped⟩ := htight 0 (Option.isSome_iff_ne_none.mpr hsome)
    rw [hnone n hn] at hmapped
    cases hmapped
  have hnull : copyout m d 0 [1] = .error .nullPte :=
    copyoutLoop_null (by decide) (by decide) htable
  refine ⟨⟨m, [d]⟩, d, List.mem_singleton_self d, hreach, hnull, fun h => ?_⟩
  have hnot : ¬Accessible m.page d 0 := by
    rintro ⟨w, hw, -⟩
    rw [hnone 0 rfl] at hw
    cases hw
  obtain ⟨m', hm'⟩ := h.fails 0 ⟨0, by decide, rfl⟩ hnot
  rw [hnull] at hm'
  cases hm'

end KThreads.Frames
