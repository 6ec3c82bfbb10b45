import KThreads.Image

/-!
# The process table and the kernel state

The fields of `struct proc` that the modelled functions read or write, the
points of the system calls between two atomic steps, and the kernel state they
act on. A step is a section under a lock together with the unlocked code next
to it that touches only the thread's own data; the writes of `fork`, `clone`
and `exec` that other threads can see outside a lock are steps of their own.

The trap frame, the context and the name of a slot are left out: no modelled
function reads them.
-/

namespace KThreads

/-- A slot of `ptable.proc`. -/
abbrev Slot := Fin NPROC

/-- An index of `ofile`. -/
abbrev Fd := Fin NOFILE

/-- A slot of `ftable.file`. -/
abbrev File := Fin NFILE

/-- `enum procstate` -/
inductive ProcState
  | unused | embryo | sleeping | runnable | running | zombie
  deriving DecidableEq

/-- The value of a channel pointer: null, the address of a slot of the process
table, or any other address. User code may pass any of them to `park`. -/
inductive Chan
  | null
  | slot (s : Slot)
  | addr (a : ℕ)
  deriving DecidableEq

/-- The channel that is the address held in a `struct proc` pointer. -/
def Chan.ofSlot : Option Slot → Chan
  | none => .null
  | some s => .slot s

/-- `struct proc`. Page directories and kernel stacks are named by the number
of the allocation that returned them, inodes by their place in the cache. -/
structure Proc where
  sz : ℕ := 0
  threadcount : ℕ := 0
  pgdir : Option ℕ := none
  kstack : Option ℕ := none
  state : ProcState := .unused
  pid : ℤ := 0
  tgid : ℤ := 0
  process : Option Slot := none
  parent : Option Slot := none
  chan : Chan := .null
  killed : Bool := false
  ofile : Fd → Option File := fun _ => none
  cwd : Option ℕ := none
  lostwakeup : Chan := .null

/-- Points of `fork`; `np` is the slot that `allocproc` returned. -/
inductive ForkPc
  | alloc
  | init (np : Slot)
  | copy (np : Slot)
  | parent (np : Slot)
  | files (np : Slot) (fds : List Fd)
  | file (np : Slot) (fd : Fd) (f : File) (fds : List Fd)
  | cwd (np : Slot)
  | idup (np : Slot) (cwd : Option ℕ)
  | publish (np : Slot)
  deriving DecidableEq

/-- Points of `clone`. -/
inductive ClonePc
  | check (stack : ℕ)
  | alloc
  | init (np : Slot)
  | pgdir (np : Slot)
  | parent (np : Slot)
  | setParent (np : Slot) (parent : Option Slot)
  | files (np : Slot) (fds : List Fd)
  | file (np : Slot) (fd : Fd) (f : File) (fds : List Fd)
  | publish (np : Slot)
  deriving DecidableEq

/-- Points of `exit`. -/
inductive ExitPc
  | close (fds : List Fd)
  | clear (fd : Fd) (fds : List Fd)
  | count
  | iput
  | zombie
  deriving DecidableEq

/-- Points of `exec`; `image` is the directory it has built. -/
inductive ExecPc
  | mark
  | wait
  | swap
  | take
  | setCount
  | setLost
  | load
  | commit (image sz : ℕ)
  deriving DecidableEq

/-- Points of `sys_open`, `sys_dup`, `sys_close` and `sys_pipe`. At `closing`
the files still to be closed are listed with the value to return. -/
inductive FilePc
  | open
  | openFd (f : File)
  | dup (fd : ℤ)
  | dupped (f : File) (fd : Fd)
  | close (fd : ℤ)
  | closing (fs : List File) (r : ℤ)
  | pipe
  | pipeWrite (rf : File)
  | pipeFds (rf wf : File)
  deriving DecidableEq

/-- Where the thread of a slot is. -/
inductive Pc
  /-- There is no thread, or it never runs again. -/
  | dead
  /-- In user space, or in a call outside the model. -/
  | user
  /-- At the end of a system call, with its return value. -/
  | ret (r : ℤ)
  /-- At the end of `trap` for an exception in user space. -/
  | trap
  | fork (c : ForkPc)
  | clone (c : ClonePc)
  | exit (c : ExitPc)
  | wait
  | join (pid : ℤ)
  /-- In the loop of `join`, with the slot it waits for. -/
  | joinWait (pid : ℤ) (p : Slot)
  | exec (c : ExecPc)
  | kill (pid : ℤ)
  | park (chan : Chan)
  /-- In `park`, behind the call of `sched`. -/
  | parked
  | unpark (pid : ℤ) (chan : Chan)
  | sbrk (n : ℤ)
  /-- In `growproc`, with the address that `sys_sbrk` has read. -/
  | growproc (n : ℤ) (addr : ℕ)
  | file (c : FilePc)
  deriving DecidableEq

/-- The kernel state. The fields from `freevms` on are history: no step reads
them. -/
structure Kernel where
  /-- `ptable.proc` -/
  proc : Slot → Proc
  pc : Slot → Pc
  nextpid : ℤ
  initproc : Slot
  /-- `ref` of the slots of `ftable.file`. -/
  ref : File → ℕ
  /-- `ref` of the entries of the inode cache. -/
  iref : ℕ → ℕ
  /-- The contents of the page directories. -/
  vm : ℕ → Pgdir
  /-- The number of the next page directory or kernel stack. -/
  npage : ℕ
  halted : Option Halt
  /-- How often a page directory was passed to `freevm`. -/
  freevms : ℕ → ℕ
  /-- How often a kernel stack was passed to `kfree`. -/
  kfrees : ℕ → ℕ
  /-- The `tgid` of the process for which a page directory was created by `fork`
  or installed by `exec`. -/
  owner : ℕ → Option ℤ
  /-- The `tgid` of the process whose thread forked the group led by a slot. -/
  forker : Slot → ℤ

/-- What a step takes from outside the model. -/
structure Env where
  /-- How many calls of `kalloc` succeed before one fails. -/
  mem : ℕ := 1000
  /-- Whether the path of `open` names a file that may be opened. -/
  found : Bool := true
  /-- The program at the path of `exec`, if there is one with a valid header. -/
  elf : Option Elf := none
  /-- The word behind the table that a scan without a match reads as a pid. -/
  past : ℤ := 0

namespace Kernel

variable (k : Kernel)

/-- Assign to fields of one slot. -/
def modify (s : Slot) (f : Proc → Proc) : Kernel :=
  { k with proc := Function.update k.proc s (f (k.proc s)) }

/-- Move a thread to another point of the kernel. -/
def goto (t : Slot) (c : Pc) : Kernel := { k with pc := Function.update k.pc t c }

/-- Leave a system call with a return value. -/
def ret (t : Slot) (r : ℤ) : Kernel := k.goto t (.ret r)

/-- Stop the machine. -/
def halt (h : Halt) : Kernel := { k with halted := some h }

/-- `panic`. What the section in progress had already changed is not kept:
nothing runs after it. -/
def panic (p : Panic) : Kernel := k.halt (.panic p)

/-- The part of `sleep` before the switch to the scheduler. -/
def sleep (t : Slot) (c : Chan) : Kernel :=
  k.modify t fun q => { q with chan := c, state := .sleeping }

/-- `wakeup1` -/
def wakeup1 (c : Chan) : Kernel :=
  { k with proc := fun p =>
      if (k.proc p).state = .sleeping ∧ (k.proc p).chan = c then
        { k.proc p with state := .runnable }
      else k.proc p }

/-- The first slot with a given pid, as the scans of `kill`, `join` and
`unpark` find it. -/
@[irreducible]
def findPid (pid : ℤ) : Option Slot := Fin.find? fun p => (k.proc p).pid = pid

/-- The contents of the page directory of a slot. -/
def dir (t : Slot) : Pgdir :=
  match (k.proc t).pgdir with
  | some d => k.vm d
  | none => .empty

/-- Store the contents of the page directory of a slot. -/
def setDir (t : Slot) (d : Pgdir) : Kernel :=
  match (k.proc t).pgdir with
  | some id => { k with vm := Function.update k.vm id d }
  | none => k

end Kernel

end KThreads
