import KThreads.Vm
import KThreads.Lib.Words
import KThreads.Lib.Footprint

/-!
# Physical pages and the directories in them

The functions of `kalloc.c` and `vm.c` on physical memory. A page is named by its number, the
physical address divided by `PGSIZE`, and holds bytes. Page directories and page tables are
words in such pages; the free list is a list of page numbers, without the links that the free
pages hold. A pointer to a page is its number, and a pointer to an entry is the number of the
page and of the word.

A stop is a panic, a null pointer that is followed, or a loop that never ends. The bounds on the
iterations are the numbers of all pages of the address space.
-/

namespace KThreads.Frames

open Function (update)
open Words

/-- `EXTMEM`: the start of extended memory. -/
abbrev EXTMEM : ℕ := 0x100000

/-- `PHYSTOP`: the top of physical memory. -/
abbrev PHYSTOP : ℕ := 0xE000000

/-- `DEVSPACE`: the devices at high addresses. -/
abbrev DEVSPACE : ℕ := 0xFE000000

/-- `KERNLINK`: where the kernel is linked. -/
abbrev KERNLINK : ℕ := KERNBASE + EXTMEM

abbrev NPDENTRIES : ℕ := 1024

abbrev PTE_P : ℕ := 1

abbrev PTE_W : ℕ := 2

abbrev PTE_U : ℕ := 4

/-- `PTE_ADDR(pte)` -/
def PTE_ADDR (pte : ℕ) : ℕ := pte / PGSIZE * PGSIZE

/-- `PTE_FLAGS(pte)` -/
def PTE_FLAGS (pte : ℕ) : ℕ := pte % PGSIZE

/-- The addresses that the linker script provides. -/
structure Link where
  /-- `data`: the kernel's data, on the first page behind its text. -/
  data : ℕ
  /-- `end`: the first address behind the kernel. -/
  kend : ℕ
  data_page : data % PGSIZE = 0
  data_gt : KERNLINK < data
  data_le : data ≤ kend
  data_lt : data < KERNBASE + PHYSTOP

abbrev Memory := Store ℕ (ℕ → UInt8)

/-- Why a call does not return. -/
inductive Stop
  | vm (p : VmPanic)
  /-- `panic("kfree")` -/
  | kfree
  /-- `panic("loaduvm: addr must be page aligned")` -/
  | loaduvmAlign
  /-- `panic("loaduvm: address should exist")` -/
  | loaduvmAddr
  /-- The null pointer of a missing page table is followed. -/
  | nullPte
  /-- A loop over the addresses wraps around for ever. -/
  | diverges
  deriving DecidableEq

section

variable (K : Link) (m : Memory)

/-- The word `i` of the page `p`. -/
def load (p i : ℕ) : ℕ := word (m.page p) i

def store (p i w : ℕ) : Memory := { m with page := update m.page p (setWord (m.page p) i w) }

/-- `memset(p, b, PGSIZE)` -/
def memset (p : ℕ) (b : UInt8) : Memory := { m with page := update m.page p fun _ => b }

/-- `memmove` of the bytes `buf` to the page `p`, from the byte `off` on. -/
def memmove (p off : ℕ) (buf : List UInt8) : Memory :=
  { m with page := update m.page p fun x =>
      if off ≤ x ∧ x < off + buf.length then buf.getD (x - off) 0 else m.page p x }

def kalloc : Option (ℕ × Memory) :=
  match m.free with
  | [] => none
  | p :: free => some (p, { m with free })

def kfree (p : ℕ) : Except Stop Memory :=
  if KERNBASE + p * PGSIZE < K.kend ∨ p * PGSIZE ≥ PHYSTOP then .error .kfree
  else .ok { memset m p 1 with free := p :: m.free }

end

section

variable (m : Memory) (pgdir va : ℕ)

/-- The test `pte & PTE_P`. -/
def Present (pte : ℕ) : Prop := pte &&& PTE_P ≠ 0

instance (pte : ℕ) : Decidable (Present pte) := inferInstanceAs (Decidable (_ ≠ _))

/-- `walkpgdir`: the pointer to the entry of `va`. -/
def walkpgdir (alloc : Bool) : Option (ℕ × ℕ) × Memory :=
  let pde := load m pgdir (PDX va)
  if Present pde then (some (PTE_ADDR pde / PGSIZE, PTX va), m)
  else if !alloc then (none, m)
  else
    match kalloc m with
    | none => (none, m)
    | some (pgtab, m) =>
        (some (pgtab, PTX va),
          store (memset m pgtab 0) pgdir (PDX va) (pgtab * PGSIZE ||| PTE_P ||| PTE_W ||| PTE_U))

/-- One round of the loop of `mappages`; `false` when there is no page for a page table. -/
def mapPage (pa perm : ℕ) : Except Stop (Bool × Memory) :=
  match walkpgdir m pgdir va true with
  | (none, m) => .ok (false, m)
  | (some (pgtab, i), m) =>
      if Present (load m pgtab i) then .error (.vm .remap)
      else .ok (true, store m pgtab i (pa ||| perm ||| PTE_P))

end

/-- The loop of `mappages`. If it does not come to `last` it meets its first page again. -/
def mapLoop (pgdir last perm : ℕ) : ℕ → Memory → ℕ → ℕ → Except Stop (Bool × Memory)
  | 0, _, _, _ => .error (.vm .remap)
  | n + 1, m, a, pa => do
      let (done, m) ← mapPage m pgdir a pa perm
      if !done then .ok (false, m)
      else if a = last then .ok (true, m)
      else mapLoop pgdir last perm n m ((a + PGSIZE) % 2 ^ 32) ((pa + PGSIZE) % 2 ^ 32)

/-- `mappages`: `false` for -1. -/
def mappages (m : Memory) (pgdir va size pa perm : ℕ) : Except Stop (Bool × Memory) :=
  mapLoop pgdir (PGROUNDDOWN ((va + size + (2 ^ 32 - 1)) % 2 ^ 32)) perm (2 ^ 20) m
    (PGROUNDDOWN va) pa

section

variable (K : Link)

/-- The loop of `deallocuvm`. -/
def deallocLoop (pgdir oldsz : ℕ) : ℕ → Memory → ℕ → Except Stop Memory
  | 0, _, _ => .error .diverges
  | n + 1, m, a =>
      if a < oldsz then
        match (walkpgdir m pgdir a false).1 with
        -- `a = PGADDR(PDX(a) + 1, 0, 0) - PGSIZE`, and then `a += PGSIZE`
        | none => deallocLoop pgdir oldsz n m (PGADDR (PDX a + 1) 0 0)
        | some (pgtab, i) =>
            let pte := load m pgtab i
            if Present pte then
              if PTE_ADDR pte = 0 then .error .kfree
              else do
                let m ← kfree K m (PTE_ADDR pte / PGSIZE)
                deallocLoop pgdir oldsz n (store m pgtab i 0) ((a + PGSIZE) % 2 ^ 32)
            else deallocLoop pgdir oldsz n m ((a + PGSIZE) % 2 ^ 32)
      else .ok m

/-- `deallocuvm`: the value returned, and the memory. -/
def deallocuvm (m : Memory) (pgdir oldsz newsz : ℕ) : Except Stop (ℕ × Memory) :=
  if newsz ≥ oldsz then .ok (oldsz, m)
  else do
    let m ← deallocLoop K pgdir oldsz (2 ^ 20) m (PGROUNDUP newsz)
    .ok (newsz, m)

/-- The loop of `freevm` over the entries of the directory. -/
def freeTables (pgdir : ℕ) : List ℕ → Memory → Except Stop Memory
  | [], m => .ok m
  | i :: is, m =>
      if Present (load m pgdir i) then do
        let m ← kfree K m (PTE_ADDR (load m pgdir i) / PGSIZE)
        freeTables pgdir is m
      else freeTables pgdir is m

/-- `freevm` -/
def freevm (m : Memory) (pgdir : ℕ) : Except Stop Memory := do
  let (_, m) ← deallocuvm K m pgdir KERNBASE 0
  let m ← freeTables K pgdir (List.range NPDENTRIES) m
  kfree K m pgdir

/-- An entry of `kmap`. -/
structure Kmap where
  virt : ℕ
  physStart : ℕ
  physEnd : ℕ
  perm : ℕ

/-- `phys_end - phys_start` on `uint`. -/
def Kmap.size (k : Kmap) : ℕ := (k.physEnd + (2 ^ 32 - k.physStart)) % 2 ^ 32

/-- `kmap` -/
def kmap : List Kmap :=
  [⟨KERNBASE, 0, EXTMEM, PTE_W⟩,
   ⟨KERNLINK, KERNLINK - KERNBASE, K.data - KERNBASE, 0⟩,
   ⟨K.data, K.data - KERNBASE, PHYSTOP, PTE_W⟩,
   ⟨DEVSPACE, DEVSPACE, 0, PTE_W⟩]

/-- The loop of `setupkvm`. -/
def setupLoop (pgdir : ℕ) : List Kmap → Memory → Except Stop (Option ℕ × Memory)
  | [], m => .ok (some pgdir, m)
  | k :: ks, m => do
      let (done, m) ← mappages m pgdir k.virt k.size k.physStart k.perm
      if done then setupLoop pgdir ks m
      else
        let m ← freevm K m pgdir
        .ok (none, m)

/-- `setupkvm`: the new directory, `none` for 0. -/
def setupkvm (m : Memory) : Except Stop (Option ℕ × Memory) :=
  match kalloc m with
  | none => .ok (none, m)
  | some (pgdir, m) => setupLoop K pgdir (kmap K) (memset m pgdir 0)

/-- The loop of `allocuvm`. -/
def allocLoop (pgdir oldsz newsz : ℕ) : ℕ → Memory → ℕ → Except Stop (ℕ × Memory)
  | 0, _, _ => .error .diverges
  | n + 1, m, a =>
      if a < newsz then
        match kalloc m with
        | none => do
            let (_, m) ← deallocuvm K m pgdir newsz oldsz
            .ok (0, m)
        | some (mem, m) => do
            let (done, m) ← mappages (memset m mem 0) pgdir a PGSIZE (mem * PGSIZE) (PTE_W ||| PTE_U)
            if done then allocLoop pgdir oldsz newsz n m ((a + PGSIZE) % 2 ^ 32)
            else
              let (_, m) ← deallocuvm K m pgdir newsz oldsz
              let m ← kfree K m mem
              .ok (0, m)
      else .ok (newsz, m)

/-- `allocuvm`: the value returned, and the memory. -/
def allocuvm (m : Memory) (pgdir oldsz newsz : ℕ) : Except Stop (ℕ × Memory) :=
  if newsz ≥ KERNBASE then .ok (0, m)
  else if newsz < oldsz then .ok (oldsz, m)
  else allocLoop K pgdir oldsz newsz (2 ^ 20) m (PGROUNDUP oldsz)

/-- `clearpteu` -/
def clearpteu (m : Memory) (pgdir uva : ℕ) : Except Stop Memory :=
  match (walkpgdir m pgdir uva false).1 with
  | none => .error (.vm .clearpteu)
  | some (pgtab, i) => .ok (store m pgtab i (load m pgtab i &&& (2 ^ 32 - 1 - PTE_U)))

/-- The loop of `copyuvm` into the directory `d`. -/
def copyLoop (pgdir sz d : ℕ) : ℕ → Memory → ℕ → Except Stop (Option ℕ × Memory)
  | 0, _, _ => .error .diverges
  | n + 1, m, i =>
      if i < sz then
        match (walkpgdir m pgdir i false).1 with
        | none => .error (.vm .copyuvmPte)
        | some (pgtab, j) =>
            let pte := load m pgtab j
            if ¬Present pte then .error (.vm .copyuvmPage)
            else
              match kalloc m with
              | none => do
                  let m ← freevm K m d
                  .ok (none, m)
              | some (mem, m) => do
                  let m := { m with page := update m.page mem (m.page (PTE_ADDR pte / PGSIZE)) }
                  let (done, m) ← mappages m d i PGSIZE (mem * PGSIZE) (PTE_FLAGS pte)
                  if done then copyLoop pgdir sz d n m ((i + PGSIZE) % 2 ^ 32)
                  else
                    let m ← kfree K m mem
                    let m ← freevm K m d
                    .ok (none, m)
      else .ok (some d, m)

/-- `copyuvm`: the new directory, `none` for 0. -/
def copyuvm (m : Memory) (pgdir sz : ℕ) : Except Stop (Option ℕ × Memory) := do
  match ← setupkvm K m with
  | (none, m) => .ok (none, m)
  | (some d, m) => copyLoop K pgdir sz d (2 ^ 20) m 0

end

/-- `uva2ka`: the page behind `uva`, `none` for 0. -/
def uva2ka (m : Memory) (pgdir uva : ℕ) : Except Stop (Option ℕ) :=
  match (walkpgdir m pgdir uva false).1 with
  | none => .error .nullPte
  | some (pgtab, i) =>
      let pte := load m pgtab i
      if ¬Present pte then .ok none
      else if pte &&& PTE_U = 0 then .ok none
      else .ok (some (PTE_ADDR pte / PGSIZE))

/-- The loop of `copyout`, which copies at least one byte in each round. -/
def copyoutLoop (pgdir : ℕ) : ℕ → Memory → ℕ → List UInt8 → Except Stop (Bool × Memory)
  | 0, m, _, _ => .ok (true, m)
  | n + 1, m, va, buf =>
      if buf.length > 0 then do
        let va0 := PGROUNDDOWN va
        match ← uva2ka m pgdir va0 with
        | none => .ok (false, m)
        | some pa0 =>
            let k := min (PGSIZE - (va - va0)) buf.length
            copyoutLoop pgdir n (memmove m pa0 (va - va0) (buf.take k)) ((va0 + PGSIZE) % 2 ^ 32)
              (buf.drop k)
      else .ok (true, m)

/-- `copyout`: `false` for -1. -/
def copyout (m : Memory) (pgdir va : ℕ) (buf : List UInt8) : Except Stop (Bool × Memory) :=
  copyoutLoop pgdir (buf.length + 1) m va buf

end KThreads.Frames
