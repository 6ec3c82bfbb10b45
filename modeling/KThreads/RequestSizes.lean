import KThreads.Malloc.Requests
import KThreads.Sbrk

/-!
# The sizes of requests

`malloc` for every 32-bit size, on the `sbrk` of the kernel. The size is rounded to units in `uint`, the
units are multiplied by the size of a header in `uint`, and the product becomes the `int` argument of
`sbrk`. A request of up to 2^31 - 16 bytes asks for a positive amount that is large enough. Beyond, the
kernel is asked for a negative amount or none, which no free block can make unnecessary, and the last
seven sizes are taken for requests of a single unit.
-/

namespace KThreads.Malloc

open Access (growSize toInt)
open Blocks Words

/-- The size of the process and the amounts that `sbrk` has been asked for. -/
structure Break where
  sz : ℕ
  asks : List ℤ

/-- `sys_sbrk`, where `avail` says whether there is memory at the time of the call. -/
def sysSbrk (avail : List ℤ → Bool) (b : Break) (n : ℕ) : Option ℕ × Break :=
  match growSize b.sz (avail b.asks) (toInt n) with
  | some sz => (some b.sz, ⟨sz, b.asks ++ [toInt n]⟩)
  | none => (none, ⟨b.sz, b.asks ++ [toInt n]⟩)

/-- A heap below the break `sz`: before the first request, or with free blocks. -/
structure Below (base sz : ℕ) (h : Heap) : Prop where
  base_pos : 0 < base
  base_le : base + 8 ≤ sz
  size_lt : sz < KERNBASE
  list : h.freep = 0 ∨
    ∃ bs, FreeList h.mem base bs ∧ h.freep ∈ nodes base bs ∧ ∀ b ∈ bs, b.1 + 8 * b.2 ≤ sz

/-- The request is served: `malloc` returns 0 and the process is not smaller, or a block with room for
`nbytes` behind its header that ends below the break; every amount that `sbrk` was asked for is enough for
the block, so none is negative. -/
def Served (avail : List ℤ → Bool) (base sz : ℕ) (h : Heap) (nbytes : ℕ) : Prop :=
  ∃ r h' b', Returns (fun n => malloc (sysSbrk avail) base n h ⟨sz, []⟩ nbytes) (r, h', b') ∧
    (r = 0 ∧ sz ≤ b'.sz ∨ 8 ≤ r ∧ nbytes + 8 ≤ 8 * size h'.mem (r - 8) ∧
      r - 8 + 8 * size h'.mem (r - 8) ≤ b'.sz) ∧
    ∀ a ∈ b'.asks, (nbytes : ℤ) + 8 ≤ a

section

variable {avail : List ℤ → Bool} {base sz nbytes r f : ℕ} {m : ℕ → UInt8} {h h' : Heap} {b' : Break}
  {bs : List (ℕ × ℕ)}

theorem asks_subset (b : Break) (n : ℕ) : b.asks ⊆ (sysSbrk avail b n).2.asks := by
  rw [sysSbrk]
  split <;> exact List.subset_append_left _ _

theorem ask_mem (b : Break) (n : ℕ) : toInt n ∈ (sysSbrk avail b n).2.asks := by
  rw [sysSbrk]
  split <;> exact List.mem_append_right _ (List.mem_singleton.mpr rfl)

theorem FreeList.ask_mem (F : FreeList m base bs) (hf : f ∈ nodes base bs) (hbase : 0 < base)
    (hsmall : ∀ b ∈ bs, b.2 < unitsFor nbytes)
    (hret : Returns (fun n => malloc (sysSbrk avail) base n ⟨m, f⟩ ⟨sz, []⟩ nbytes) (r, h', b')) :
    toInt (atLeast (unitsFor nbytes) * 8 % 2 ^ 32) ∈ b'.asks := by
  have hne : f ≠ 0 := by
    have := F.base_le hf
    omega
  obtain ⟨N, hN⟩ := hret
  have hrun : malloc (sysSbrk avail) base (bs.length + (N + 1)) ⟨m, f⟩ ⟨sz, []⟩ nbytes = some (r, h', b') :=
    hN _ (by omega)
  rw [malloc_eq hne, F.mallocLoop_none hf unitsFor_pos hsmall] at hrun
  obtain ⟨⟨p, h₁, b₁⟩, hcore, hrun⟩ := Option.bind_eq_some_iff.mp hrun
  have hask : toInt (atLeast (unitsFor nbytes) * 8 % 2 ^ 32) ∈ b₁.asks := by
    have hstate : b₁ = _ := morecore_state hcore
    rw [hstate]
    exact Malloc.ask_mem _ _
  dsimp only at hrun
  split at hrun
  · cases hrun
    exact hask
  · exact mallocLoop_state (R := fun b b' : Break => b.asks ⊆ b'.asks) (fun b => List.Subset.refl _)
      (fun h h' => List.Subset.trans h h') asks_subset hrun hask

theorem ask_of_le (hle : nbytes ≤ 2 ^ 31 - 16) :
    atLeast (unitsFor nbytes) * 8 % 2 ^ 32 = atLeast (unitsFor nbytes) * 8 ∧
      toInt (atLeast (unitsFor nbytes) * 8) = (atLeast (unitsFor nbytes) * 8 : ℕ) ∧
      atLeast (unitsFor nbytes) * 8 < 2 ^ 31 := by
  have hunits : unitsFor nbytes = (nbytes + 7) / 8 + 1 := unitsFor_eq (by omega)
  have hlt : atLeast (unitsFor nbytes) * 8 < 2 ^ 31 := by
    unfold atLeast
    split <;> omega
  exact ⟨Nat.mod_eq_of_lt (by omega), if_pos hlt, hlt⟩

theorem ask_of_gt (hlt : nbytes < 2 ^ 32) (hgt : 2 ^ 31 - 16 < nbytes) :
    toInt (atLeast (unitsFor nbytes) * 8 % 2 ^ 32) ≤ 32768 := by
  by_cases hwrap : nbytes + 7 < 2 ^ 32
  · have hunits := unitsFor_eq hwrap
    have hask : atLeast (unitsFor nbytes) = unitsFor nbytes := if_neg (by omega)
    rw [hask, toInt]
    split <;> omega
  · have hunits : unitsFor nbytes = 1 := by
      unfold unitsFor
      omega
    rw [hunits]
    decide

theorem FreeList.served (F : FreeList m base bs) (hf : f ∈ nodes base bs) (hbase : 0 < base)
    (hlow : base + 8 ≤ sz) (hsz : sz < KERNBASE) (hbs : ∀ b ∈ bs, b.1 + 8 * b.2 ≤ sz)
    (hle : nbytes ≤ 2 ^ 31 - 16) : Served avail base sz ⟨m, f⟩ nbytes := by
  have hunits : unitsFor nbytes = (nbytes + 7) / 8 + 1 := unitsFor_eq (by omega)
  obtain ⟨hmod, hint, hlt⟩ := ask_of_le hle
  have hunit : ∀ y ∈ total 8 bs, y + 8 ≤ sz := by
    intro y hy
    obtain ⟨b, hb, hy⟩ := mem_total.mp hy
    obtain ⟨j, hj, rfl⟩ := mem_units.mp hy
    have := hbs b hb
    omega
  by_cases hfit : ∃ b ∈ bs, unitsFor nbytes ≤ b.2
  · obtain ⟨z, h', bs', hT, hmalloc⟩ := F.malloc_fits hf hbase hfit
    refine ⟨z + 8, h', ⟨sz, []⟩, ⟨bs.length + 1, fun n hn => hmalloc hn⟩, .inr ⟨by omega, ?_⟩, nofun⟩
    have hend := hT.end_le unitsFor_pos hunit
    rw [Nat.add_sub_cancel, hT.size_eq]
    exact ⟨by omega, hend⟩
  · have hsmall : ∀ b ∈ bs, b.2 < unitsFor nbytes := fun b hb => not_le.mp fun h => hfit ⟨b, hb, h⟩
    have hle : unitsFor nbytes ≤ atLeast (unitsFor nbytes) := le_atLeast
    have hasks : ∀ a ∈ [] ++ [toInt (atLeast (unitsFor nbytes) * 8)], (nbytes : ℤ) + 8 ≤ a := by
      intro a ha
      obtain rfl := List.mem_singleton.mp ha
      rw [hint]
      omega
    cases hgrow : growSize sz (avail []) (toInt (atLeast (unitsFor nbytes) * 8)) with
    | none =>
      have hsbrk : sysSbrk avail ⟨sz, []⟩ (atLeast (unitsFor nbytes) * 8 % 2 ^ 32) =
          (none, ⟨sz, [] ++ [toInt (atLeast (unitsFor nbytes) * 8)]⟩) := by
        rw [hmod, sysSbrk, hgrow]
      exact ⟨0, _, _, ⟨bs.length + 1, fun n hn => F.malloc_fails hf hbase hsmall hsbrk hn⟩, .inl ⟨rfl, le_rfl⟩, hasks⟩
    | some sz' =>
      have hsbrk : sysSbrk avail ⟨sz, []⟩ (atLeast (unitsFor nbytes) * 8 % 2 ^ 32) =
          (some sz, ⟨sz', [] ++ [toInt (atLeast (unitsFor nbytes) * 8)]⟩) := by
        rw [hmod, sysSbrk, hgrow]
      have hpos : 0 < toInt (atLeast (unitsFor nbytes) * 8) := by
        have := hasks _ (List.mem_singleton.mpr rfl)
        omega
      have hmax : toInt (atLeast (unitsFor nbytes) * 8) ≤ INT_MAX := by
        rw [hint]
        simp only [INT_MAX]
        omega
      obtain ⟨hsz', -⟩ := Sbrk.growSize_pos hsz hpos hmax hgrow
      rw [hint] at hsz'
      have hbound : sz + 8 * atLeast (unitsFor nbytes) < 2 ^ 32 := by
        simp only [KERNBASE] at hsz
        omega
      obtain ⟨z, h', bs', N, hT, hmalloc⟩ := F.malloc_grows hf hbase hsmall hlow hbs hbound
      refine ⟨z + 8, h', _, ⟨N, fun n hn => hmalloc hsbrk hn⟩, .inr ⟨by omega, ?_⟩, hasks⟩
      have hend : z + 8 * unitsFor nbytes ≤ sz' := by
        refine hT.end_le unitsFor_pos fun y hy => ?_
        rcases Multiset.mem_add.mp hy with hy | hy
        · have := hunit y hy
          omega
        · obtain ⟨j, hj, rfl⟩ := mem_units.mp hy
          omega
      rw [Nat.add_sub_cancel, hT.size_eq]
      exact ⟨by omega, hend⟩

theorem FreeList.not_served (F : FreeList m base bs) (hf : f ∈ nodes base bs) (hbase : 0 < base)
    (hsz : sz < KERNBASE) (hbs : ∀ b ∈ bs, b.1 + 8 * b.2 ≤ sz) (hlt : nbytes < 2 ^ 32)
    (hgt : 2 ^ 31 - 16 < nbytes) : ¬Served avail base sz ⟨m, f⟩ nbytes := by
  rintro ⟨r, h', b', hret, hres, hasks⟩
  by_cases hfit : ∃ b ∈ bs, unitsFor nbytes ≤ b.2
  · -- Only a request that was taken for one unit can be met by a free block.
    obtain ⟨b, hb, hle⟩ := hfit
    have hend := hbs b hb
    have hone : unitsFor nbytes = 1 := by
      simp only [unitsFor, KERNBASE] at *
      omega
    obtain ⟨z, h₁, bs', hT, hmalloc⟩ := F.malloc_fits hf hbase ⟨b, hb, hle⟩
    have hret' : Returns (fun n => malloc (sysSbrk avail) base n ⟨m, f⟩ ⟨sz, []⟩ nbytes) (z + 8, h₁, ⟨sz, []⟩) :=
      ⟨bs.length + 1, fun n hn => hmalloc hn⟩
    obtain ⟨rfl, hrest⟩ := Prod.mk.inj (hret.unique hret')
    obtain ⟨rfl, rfl⟩ := Prod.mk.inj hrest
    rw [Nat.add_sub_cancel, hT.size_eq, hone] at hres
    omega
  · have hask := hasks _ (F.ask_mem hf hbase (fun b hb => not_le.mp fun h => hfit ⟨b, hb, h⟩) hret)
    have := ask_of_gt hlt hgt
    omega

theorem Below.exists_freeList (hB : Below base sz h) : ∃ m f bs, FreeList m base bs ∧ f ∈ nodes base bs ∧
    (∀ b ∈ bs, b.1 + 8 * b.2 ≤ sz) ∧ (Served avail base sz h nbytes ↔ Served avail base sz ⟨m, f⟩ nbytes) := by
  rcases hB.list with hfreep | ⟨bs, F, hf, hbs⟩
  · have hbase : base < 2 ^ 32 := by
      have := hB.base_le
      have := hB.size_lt
      simp only [KERNBASE] at this
      omega
    obtain ⟨hlist, hnode⟩ := freeList_ready hfreep hbase
    refine ⟨_, _, [], hlist, hnode, nofun, ?_⟩
    change Served avail base sz h nbytes ↔ Served avail base sz (ready base h) nbytes
    simp only [Served, malloc_ready hB.base_pos]
  · exact ⟨h.mem, h.freep, bs, F, hf, hbs, Iff.rfl⟩

theorem Below.not_served (hB : Below base sz h) (hlt : nbytes < 2 ^ 32) (hgt : 2 ^ 31 - 16 < nbytes) :
    ¬Served avail base sz h nbytes := by
  obtain ⟨m, f, bs, F, hf, hbs, hsame⟩ := hB.exists_freeList
  rw [hsame]
  exact F.not_served hf hB.base_pos hB.size_lt hbs hlt hgt

/-- **The requests that are served.** -/
theorem served_iff (hB : Below base sz h) (hlt : nbytes < 2 ^ 32) :
    Served avail base sz h nbytes ↔ nbytes ≤ 2 ^ 31 - 16 := by
  constructor
  · intro hserved
    by_contra hgt
    exact hB.not_served hlt (by omega) hserved
  · intro hle
    obtain ⟨m, f, bs, F, hf, hbs, hsame⟩ := hB.exists_freeList
    rw [hsame]
    exact F.served hf hB.base_pos hB.base_le hB.size_lt hbs hle

/-- The first request of a process, for 100 bytes. -/
theorem served_iff_hundred : Served (fun _ => true) 4096 16384 ⟨fun _ => 0, 0⟩ 100 :=
  (served_iff ⟨by omega, by omega, by decide, .inl rfl⟩ (by omega)).mpr (by omega)

/-- The first request of a process, for 2^32 - 16 bytes: the kernel is asked for -8 bytes and makes the
process smaller. -/
theorem request_shrinks : ¬Served (fun _ => true) 4096 16384 ⟨fun _ => 0, 0⟩ (2 ^ 32 - 16) ∧
    sysSbrk (fun _ => true) ⟨16384, []⟩ (atLeast (unitsFor (2 ^ 32 - 16)) * 8 % 2 ^ 32) =
      (some 16384, ⟨16376, [-8]⟩) := by
  refine ⟨Below.not_served ⟨by omega, by omega, by decide, .inl rfl⟩ (by omega) (by omega), ?_⟩
  have hunits : unitsFor (2 ^ 32 - 16) = 2 ^ 29 - 1 := by
    rw [unitsFor_eq (by omega)]
    omega
  rw [hunits]
  rfl

end

end KThreads.Malloc
