import KThreads.Proc

/-!
# File descriptors

`filealloc`, `filedup`, `fileclose` and the system calls that move references
between the file table and the descriptors of the calling thread. A section under
`ftable.lock` and the store into a descriptor table before or behind it are two
steps.

A `struct file` is its reference count here: what the last `fileclose` does to
the pipe or the inode behind the file is outside this model.
-/

namespace KThreads.Kernel

open Function (update)

variable (k : Kernel)

/-- `filealloc` -/
@[irreducible]
def filealloc : Option (File × Kernel) :=
  (Fin.find? fun f => k.ref f = 0).map fun f => (f, { k with ref := update k.ref f 1 })

/-- `filedup`, followed by `next`. -/
def filedup (f : File) (next : Kernel → Kernel) : Kernel :=
  if k.ref f < 1 then k.panic .filedup
  else next { k with ref := update k.ref f (k.ref f + 1) }

/-- `fileclose`, followed by `next`. -/
def fileclose (f : File) (next : Kernel → Kernel) : Kernel :=
  if k.ref f < 1 then k.panic .fileclose
  else next { k with ref := update k.ref f (k.ref f - 1) }

/-- Assign to an entry of `ofile`. -/
def setFile (s : Slot) (fd : Fd) (f : Option File) : Kernel :=
  k.modify s fun q => { q with ofile := update q.ofile fd f }

/-- The descriptor that `fdalloc` finds. -/
@[irreducible]
def fdalloc (t : Slot) : Option Fd := Fin.find? fun fd => (k.proc t).ofile fd = none

/-- The descriptor and the file of a descriptor argument, as `argfd` checks it. -/
def argfd (t : Slot) (fd : ℤ) : Option (Fd × File) :=
  if h : 0 ≤ fd ∧ fd < NOFILE then
    let fd : Fd := ⟨fd.toNat, by omega⟩
    ((k.proc t).ofile fd).map fun f => (fd, f)
  else none

/-- The next open file of a loop over the descriptors `fds` of the thread `t`, with
the descriptors behind it. -/
def nextFile (t : Slot) : List Fd → Option (Fd × File × List Fd)
  | [] => none
  | fd :: fds =>
      match (k.proc t).ofile fd with
      | none => nextFile t fds
      | some f => some (fd, f, fds)

/-- One iteration of the loop of `fork` and `clone` over the open files of the
caller, up to the store into the new slot. -/
def dupFiles (t : Slot) (fds : List Fd) (store : Fd → File → List Fd → Pc) (done : Pc) : Kernel :=
  match k.nextFile t fds with
  | none => k.goto t done
  | some (fd, f, rest) => k.filedup f fun k => k.goto t (store fd f rest)

/-- Close the files that a system call gives up, one at a time, and return. -/
def closeFiles (t : Slot) (r : ℤ) : List File → Kernel
  | [] => k.ret t r
  | f :: fs => k.fileclose f fun k => k.goto t (.file (.closing fs r))

/-- The end of `sys_pipe`: two descriptors for the two ends, or none. -/
def pipeFds (t : Slot) (rf wf : File) : Kernel :=
  match k.fdalloc t with
  | none => k.goto t (.file (.closing [rf, wf] (-1)))
  | some fd0 =>
      match (k.setFile t fd0 (some rf)).fdalloc t with
      | none =>
          ((k.setFile t fd0 (some rf)).setFile t fd0 none).goto t (.file (.closing [rf, wf] (-1)))
      | some fd1 => ((k.setFile t fd0 (some rf)).setFile t fd1 (some wf)).ret t 0

/-- The steps of `sys_open`, `sys_dup`, `sys_close` and `sys_pipe`. -/
def fileStep (t : Slot) (e : Env) : FilePc → Kernel
  | .open =>
      if e.found then
        match k.filealloc with
        | none => k.ret t (-1)
        | some (f, k) => k.goto t (.file (.openFd f))
      else k.ret t (-1)
  | .openFd f =>
      match k.fdalloc t with
      | none => k.goto t (.file (.closing [f] (-1)))
      | some fd => (k.setFile t fd (some f)).ret t fd.val
  | .dup fd =>
      match k.argfd t fd, k.fdalloc t with
      | some (_, f), some fd => (k.setFile t fd (some f)).goto t (.file (.dupped f fd))
      | _, _ => k.ret t (-1)
  | .dupped f fd => k.filedup f fun k => k.ret t fd.val
  | .close fd =>
      match k.argfd t fd with
      | none => k.ret t (-1)
      | some (fd, f) => (k.setFile t fd none).goto t (.file (.closing [f] 0))
  | .closing fs r => k.closeFiles t r fs
  | .pipe =>
      match k.filealloc with
      | none => k.ret t (-1)
      | some (rf, k) => k.goto t (.file (.pipeWrite rf))
  | .pipeWrite rf =>
      match k.filealloc with
      | none => k.goto t (.file (.closing [rf] (-1)))
      | some (wf, k) => k.goto t (.file (.pipeFds rf wf))
  | .pipeFds rf wf =>
      if e.mem = 0 then k.goto t (.file (.closing [rf, wf] (-1))) else k.pipeFds t rf wf

end KThreads.Kernel
