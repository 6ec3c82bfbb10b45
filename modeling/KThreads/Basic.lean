import Mathlib

/-!
# Constants and stops of the kernel

The sizes of `param.h`, `mmu.h` and `memlayout.h`, 32-bit arithmetic, and the
ways in which the modelled kernel can stop. A panic is named by a constructor;
its text is the one the source prints.
-/

namespace KThreads

/-- `NPROC`: slots of the process table. -/
abbrev NPROC : ℕ := 64

/-- `NOFILE`: open files of one slot. -/
abbrev NOFILE : ℕ := 16

/-- `NFILE`: open files of the system. -/
abbrev NFILE : ℕ := 100

/-- `PGSIZE`: bytes mapped by a page. -/
abbrev PGSIZE : ℕ := 4096

/-- `KERNBASE`: the first kernel virtual address. -/
abbrev KERNBASE : ℕ := 0x80000000

/-- The largest `int`. -/
abbrev INT_MAX : ℤ := 2147483647

/-- Conversion of an integer to `uint`. -/
def toUint (n : ℤ) : ℕ := (n % 4294967296).toNat

/-- `PGROUNDUP(sz)` on `uint`. -/
def PGROUNDUP (sz : ℕ) : ℕ := (sz + (PGSIZE - 1)) % 4294967296 / PGSIZE * PGSIZE

/-- `PGROUNDDOWN(a)` on `uint`. -/
def PGROUNDDOWN (a : ℕ) : ℕ := a / PGSIZE * PGSIZE

/-- The panics of the functions on page directories. -/
inductive VmPanic
  | remap | clearpteu | copyuvmPte | copyuvmPage
  deriving DecidableEq

/-- The panics of the modelled functions. -/
inductive Panic
  | vm (p : VmPanic)
  | filedup | fileclose | initExiting | undead
  deriving DecidableEq

/-- Why the kernel has stopped: a panic, or a point of the source from which
the C language gives the execution no meaning. -/
inductive Halt
  | panic (p : Panic)
  /-- `nextpid++` at the largest `int`. -/
  | pidOverflow
  /-- A null `process` pointer is followed. -/
  | nullProcess
  /-- A scan of the table continues with the memory behind its last slot. -/
  | pastTable
  deriving DecidableEq

end KThreads
