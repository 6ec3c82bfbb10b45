import KThreads.Basic

/-!
# Page directories

The functions of `vm.c` that build and change the user half of a page
directory. A directory is a value: its entries below `KERNBASE`, each absent or
holding a page table, whose entries are absent or present with their flags. The
half above `KERNBASE` is the same in every directory and enters only through
the pages that `setupkvm` takes from the allocator.

The page allocator is represented by the number of calls of `kalloc` that
succeed before one fails. Every function below gives up at the first failing
call, so this number determines all outcomes that another state of the free
list, or other users of it, could cause.
-/

namespace KThreads

/-- The flags of a present page-table entry. -/
structure Pte where
  /-- `PTE_W` -/
  writable : Bool
  /-- `PTE_U` -/
  user : Bool
  deriving DecidableEq

/-- The user half of a page directory. -/
structure Pgdir where
  /-- The page table of each directory entry with `PTE_P`, and the entries of
  the table with `PTE_P`. -/
  pde : ℕ → Option (ℕ → Option Pte)

/-- A directory without user mappings. -/
def Pgdir.empty : Pgdir := ⟨fun _ => none⟩

/-- `PDX(va)` -/
def PDX (va : ℕ) : ℕ := va / 2 ^ 22 % 1024

/-- `PTX(va)` -/
def PTX (va : ℕ) : ℕ := va / 2 ^ 12 % 1024

/-- `PGADDR(d, t, o)` on `uint`. -/
def PGADDR (d t o : ℕ) : ℕ := (d * 2 ^ 22 + t * 2 ^ 12 + o) % 2 ^ 32

/-- `walkpgdir(pgdir, va, 0)`: `none` when there is no page table for `va`. -/
def walkpgdir (d : Pgdir) (va : ℕ) : Option (Option Pte) :=
  (d.pde (PDX va)).map fun pt => pt (PTX va)

/-- `walkpgdir(pgdir, va, 1)`: create the page table of `va` where it is
missing, from the pages that are left; `none` when there is none left. -/
def walkpgdirAlloc (d : Pgdir) (va mem : ℕ) : Option (Pgdir × ℕ) :=
  match d.pde (PDX va), mem with
  | some _, mem => some (d, mem)
  | none, 0 => none
  | none, mem + 1 => some (⟨Function.update d.pde (PDX va) (some fun _ => none)⟩, mem)

/-- The store `*pte = e` through the entry that `walkpgdir` returned for `va`. -/
def Pgdir.store (d : Pgdir) (va : ℕ) (e : Option Pte) : Pgdir :=
  match d.pde (PDX va) with
  | some pt => ⟨Function.update d.pde (PDX va) (some (Function.update pt (PTX va) e))⟩
  | none => d

/-- The loop of `mappages` over `n` pages from `a`. The result says whether
every page was mapped. -/
def mapLoop (perm : Pte) : ℕ → Pgdir → ℕ → ℕ → Except VmPanic (Bool × Pgdir × ℕ)
  | 0, d, _, mem => .ok (true, d, mem)
  | n + 1, d, a, mem =>
      match walkpgdirAlloc d a mem with
      | none => .ok (false, d, mem)
      | some (d, mem) =>
          if (walkpgdir d a).join.isSome then .error .remap
          else mapLoop perm n (d.store a (some perm)) (a + PGSIZE) mem

/-- `mappages`; the physical addresses are not part of the model. -/
def mappages (d : Pgdir) (va size : ℕ) (perm : Pte) (mem : ℕ) : Except VmPanic (Bool × Pgdir × ℕ) :=
  mapLoop perm ((PGROUNDDOWN (va + size - 1) - PGROUNDDOWN va) / PGSIZE + 1) d (PGROUNDDOWN va) mem

/-- The pages that `setupkvm` allocates: the directory, the page tables of
`KERNBASE` to `P2V(PHYSTOP)`, and those of `DEVSPACE` to the last address. -/
def kvmPages : ℕ := 1 + 56 + 8

/-- `setupkvm` -/
def setupkvm (mem : ℕ) : Option (Pgdir × ℕ) :=
  if mem < kvmPages then none else some (.empty, mem - kvmPages)

/-- The loop of `deallocuvm` from the page `a`, with a bound on its iterations. -/
def deallocLoop (oldsz : ℕ) : ℕ → Pgdir → ℕ → Pgdir
  | 0, d, _ => d
  | n + 1, d, a =>
      if a < oldsz then
        match walkpgdir d a with
        | none => deallocLoop oldsz n d (PGADDR (PDX a + 1) 0 0)
        | some (some _) => deallocLoop oldsz n (d.store a none) (a + PGSIZE)
        | some none => deallocLoop oldsz n d (a + PGSIZE)
      else d

/-- `deallocuvm`: the directory and the value returned. The bound on the
iterations is the number of pages below `oldsz`. -/
def deallocuvm (d : Pgdir) (oldsz newsz : ℕ) : Pgdir × ℕ :=
  if newsz ≥ oldsz then (d, oldsz)
  else (deallocLoop oldsz (oldsz / PGSIZE + 1) d (PGROUNDUP newsz), newsz)

/-- The loop of `allocuvm` from the page `a`, with a bound on its iterations.
The result holds the directory, the value returned and the pages left. -/
def allocLoop (oldsz newsz : ℕ) : ℕ → Pgdir → ℕ → ℕ → Except VmPanic (Pgdir × ℕ × ℕ)
  | 0, d, _, mem => .ok (d, newsz, mem)
  | n + 1, d, a, mem =>
      if a < newsz then
        match mem with
        | 0 => .ok ((deallocuvm d newsz oldsz).1, 0, 0)
        | mem + 1 =>
            match mappages d a PGSIZE ⟨true, true⟩ mem with
            | .error p => .error p
            | .ok (true, d, mem) => allocLoop oldsz newsz n d (a + PGSIZE) mem
            | .ok (false, d, mem) => .ok ((deallocuvm d newsz oldsz).1, 0, mem + 1)
      else .ok (d, newsz, mem)

/-- `allocuvm` -/
def allocuvm (d : Pgdir) (oldsz newsz mem : ℕ) : Except VmPanic (Pgdir × ℕ × ℕ) :=
  if newsz ≥ KERNBASE then .ok (d, 0, mem)
  else if newsz < oldsz then .ok (d, oldsz, mem)
  else allocLoop oldsz newsz (newsz / PGSIZE + 1) d (PGROUNDUP oldsz) mem

/-- `clearpteu` -/
def clearpteu (d : Pgdir) (va : ℕ) : Except VmPanic Pgdir :=
  match walkpgdir d va with
  | none => .error .clearpteu
  | some e => .ok (d.store va (e.map fun pte => { pte with user := false }))

/-- The loop of `copyuvm` from the page `i`, with a bound on its iterations:
copy the mappings of `d` below `sz` into `c`. -/
def copyLoop (d : Pgdir) (sz : ℕ) : ℕ → Pgdir → ℕ → ℕ → Except VmPanic (Option Pgdir)
  | 0, c, _, _ => .ok (some c)
  | n + 1, c, i, mem =>
      if i < sz then
        match walkpgdir d i, mem with
        | none, _ => .error .copyuvmPte
        | some none, _ => .error .copyuvmPage
        | some (some _), 0 => .ok none
        | some (some pte), mem + 1 =>
            match mappages c i PGSIZE pte mem with
            | .error p => .error p
            | .ok (true, c, mem) => copyLoop d sz n c (i + PGSIZE) mem
            | .ok (false, _, _) => .ok none
      else .ok (some c)

/-- `copyuvm`: `none` when the allocator ran out of pages. -/
def copyuvm (d : Pgdir) (sz mem : ℕ) : Except VmPanic (Option Pgdir) :=
  match setupkvm mem with
  | none => .ok none
  | some (c, mem) => copyLoop d sz (sz / PGSIZE + 1) c 0 mem

end KThreads
