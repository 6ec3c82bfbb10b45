import KThreads.Vm

/-!
# The image that `exec` builds

The part of `exec` between the swap of identities and the commit: a fresh
directory, the program segments, the guard page and the stack page. The file
system enters through the program headers it delivers and through whether the
segments could be read; whether the argument strings fit in the stack page is
an input as well.
-/

namespace KThreads

/-- A program header, with whether `loaduvm` could read its segment. -/
structure ProgHdr where
  /-- `type == ELF_PROG_LOAD` -/
  load : Bool
  vaddr : ℕ
  memsz : ℕ
  filesz : ℕ
  readable : Bool
  deriving DecidableEq

/-- The program that `exec` finds at its path. -/
structure Elf where
  phdrs : List ProgHdr
  /-- Whether every `copyout` of the argument stack succeeds. -/
  argsFit : Bool
  deriving DecidableEq

/-- The loop over the program headers: the directory, its size and the pages
left, or `none` on a `goto bad`. -/
def loadSegments : List ProgHdr → Pgdir → ℕ → ℕ → Except VmPanic (Option (Pgdir × ℕ × ℕ))
  | [], d, sz, mem => .ok (some (d, sz, mem))
  | ph :: phs, d, sz, mem =>
      if !ph.load then loadSegments phs d sz mem
      else if ph.memsz < ph.filesz then .ok none
      else if (ph.vaddr + ph.memsz) % 2 ^ 32 < ph.vaddr then .ok none
      else
        match allocuvm d sz ((ph.vaddr + ph.memsz) % 2 ^ 32) mem with
        | .error p => .error p
        | .ok (d, sz, mem) =>
            if sz = 0 ∨ ph.vaddr % PGSIZE ≠ 0 ∨ ph.readable = false then .ok none
            else loadSegments phs d sz mem

/-- The new directory and its size, or `none` when `exec` returns -1. -/
def execImage (elf : Elf) (mem : ℕ) : Except VmPanic (Option (Pgdir × ℕ)) :=
  match setupkvm mem with
  | none => .ok none
  | some (d, mem) =>
      match loadSegments elf.phdrs d 0 mem with
      | .error p => .error p
      | .ok none => .ok none
      | .ok (some (d, sz, mem)) =>
          match allocuvm d (PGROUNDUP sz) ((PGROUNDUP sz + 2 * PGSIZE) % 2 ^ 32) mem with
          | .error p => .error p
          | .ok (d, sz, _) =>
              if sz = 0 then .ok none
              else
                match clearpteu d (sz - 2 * PGSIZE) with
                | .error p => .error p
                | .ok d => .ok (if elf.argsFit then some (d, sz) else none)

end KThreads
