import KThreads.Creation

/-!
# Exit, wait and join

A thread dies in `exit`, which leaves its slot a zombie. The slots of a whole
group are given back by `wait`, the slot of a single thread by `join`; both
clear the same fields.
-/

namespace KThreads.Kernel

variable (k : Kernel)

/-- The assignments with which `wait` and `join` give a slot back. -/
def reaped (q : Proc) : Proc :=
  { q with
    kstack := none, pid := 0, tgid := 0, parent := none, killed := false, state := .unused,
    process := none, pgdir := none, threadcount := 0 }

/-- The loop of `exit` over the table: the children of the slot `t` become
children of `initproc`, which is woken when one of them is a zombie. -/
def reparent (t : Slot) : Kernel :=
  let k' := { k with proc := fun p =>
    if (k.proc p).parent = some t then { k.proc p with parent := some k.initproc } else k.proc p }
  if ∃ p, (k.proc p).parent = some t ∧ (k.proc p).state = .zombie then
    k'.wakeup1 (.slot k.initproc)
  else k'

/-- Enter `exit`. -/
def enterExit (t : Slot) : Kernel :=
  if t = k.initproc then k.panic .initExiting else k.goto t (.exit (.close allFds))

/-- The steps of `exit` by the thread `t` of the process `L`. -/
def exitStep (t L : Slot) : ExitPc → Kernel
  | .close fds =>
      match k.nextFile t fds with
      | none => k.goto t (.exit .count)
      | some (fd, f, rest) => k.fileclose f fun k => k.goto t (.exit (.clear fd rest))
  -- In between, `fileclose` may sleep.
  | .clear fd rest => (k.setFile t fd none).goto t (.exit (.close rest))
  | .count => k.goto t (.exit (if (k.proc L).threadcount = 1 then .iput else .zombie))
  | .iput =>
      ({ k with iref := fun i => k.iref i - if (k.proc L).cwd = some i then 1 else 0 }.modify t
        fun q => { q with cwd := none }).goto t (.exit .zombie)
  | .zombie =>
      ((((k.wakeup1 (.ofSlot (k.proc t).parent)).wakeup1 (.slot L)).modify L fun q =>
          { q with threadcount := (q.threadcount + (2 ^ 32 - 1)) % 2 ^ 32 }).reparent t |>.modify t
        fun q => { q with state := .zombie }).goto t .dead

/-- Whether `p` is a child of the process `L`. -/
def childOf (L p : Slot) : Bool := (k.proc p).parent = some L

/-- `p->process->threadcount == 0` -/
def groupDead (p : Slot) : Bool :=
  match (k.proc p).process with
  | some q => (k.proc q).threadcount = 0
  | none => false

/-- The child that the scan of `wait` stops at. -/
@[irreducible]
def waitFound (L : Slot) : Option Slot := Fin.find? fun p => k.childOf L p && k.groupDead p

/-- Whether the reap loop of `wait` passes the directory of `p` to `freevm`. -/
def freesDir (p : Slot) : Bool := (k.proc p).pid = (k.proc p).tgid ∧ (k.proc p).process = some p

/-- The reap loop of `wait`. -/
def reapGroup (t : Slot) (tgid : ℤ) : Kernel :=
  if ∀ p, (k.proc p).tgid = tgid → (k.proc p).state = .zombie then
    { k with
      proc := fun p => if (k.proc p).tgid = tgid then reaped (k.proc p) else k.proc p
      freevms := fun x => k.freevms x + (Finset.univ.filter fun p =>
        (k.proc p).tgid = tgid ∧ k.freesDir p ∧ (k.proc p).pgdir = some x).card
      kfrees := fun x => k.kfrees x + (Finset.univ.filter fun p =>
        (k.proc p).tgid = tgid ∧ (k.proc p).kstack = some x).card }.ret t tgid
  else k.panic .undead

/-- One pass of the loop of `wait` by the thread `t` of the process `L`. -/
def waitStep (t L : Slot) : Kernel :=
  if (¬∃ p, k.childOf L p) ∨ (k.proc t).killed then k.ret t (-1)
  else
    match k.waitFound L with
    | none => k.sleep t (.slot L)
    | some p => k.reapGroup t (k.proc p).tgid

/-- Give back the slot of one thread, at the end of `join`. -/
def reapSlot (p : Slot) : Kernel :=
  { k with kfrees := fun x => k.kfrees x + if (k.proc p).kstack = some x then 1 else 0 }.modify p
    reaped

/-- One pass of the loop of `join`, with the slot `p` that its scan found. -/
def joinLoop (t L : Slot) (pid : ℤ) (p : Slot) : Kernel :=
  if (k.proc p).state ≠ .zombie then
    if (k.proc t).killed then k.ret t (-1)
    else (k.sleep t (.slot L)).goto t (.joinWait pid p)
  else if (k.proc p).tgid ≠ (k.proc p).pid ∧ (k.proc p).process ≠ some p then
    (k.reapSlot p).ret t pid
  else k.ret t pid

/-- The scan of `join`. Without a match the loop variable points behind the
table, and the test `p->pid != pid` reads there. -/
def joinStep (t L : Slot) (e : Env) (pid : ℤ) : Kernel :=
  match k.findPid pid with
  | some p =>
      if (k.proc p).tgid = (k.proc t).tgid ∧ (k.proc p).process = (k.proc t).process then
        k.joinLoop t L pid p
      else k.ret t (-1)
  | none =>
      if e.past ≠ pid then k.ret t (-1) else k.halt .pastTable

end KThreads.Kernel
