import KThreads.Exec
import KThreads.Lib.Transition

/-!
# The machine

The labels are the scheduler's decisions, the entries into the kernel and the
atomic steps of the system calls in progress; any number of threads may be
running at once. The initial state is the table left by `userinit`.
-/

namespace KThreads

/-- The modelled system calls, with their arguments. -/
inductive Call
  | fork
  | clone (stack : ℕ)
  | exit
  | wait
  | join (pid : ℤ)
  | exec
  | kill (pid : ℤ)
  | park (chan : Chan)
  | unpark (pid : ℤ) (chan : Chan)
  | sbrk (n : ℤ)
  | open
  | dup (fd : ℤ)
  | close (fd : ℤ)
  | pipe
  deriving DecidableEq

/-- What happens next. -/
inductive Label
  /-- The scheduler switches to a thread. -/
  | schedule (t : Slot)
  /-- A running thread gives up its processor. -/
  | yield (t : Slot)
  /-- A thread traps into the kernel with a system call. -/
  | syscall (t : Slot) (c : Call)
  /-- An interrupt in user space: a killed thread leaves through `exit`. -/
  | interrupt (t : Slot)
  /-- An exception in user space kills the thread. -/
  | fault (t : Slot)
  /-- The next step of the system call in progress. -/
  | step (t : Slot) (e : Env)
  /-- A thread sleeps on a kernel object outside the model. -/
  | block (t : Slot) (a : ℕ)
  /-- `wakeup` on such an object. -/
  | wakeup (a : ℕ)

/-- The points at which a thread may sleep on an object outside the model: in
the file system, in a device, or in a call that is not modelled. -/
def Pc.mayBlock : Pc → Bool
  | .user | .exec .load | .exit (.clear _ _) | .exit .iput | .file .open | .file (.closing _ _) => true
  | _ => false

namespace Kernel

variable (k : Kernel)

/-- Enter a system call behind the first check of `trap`. -/
def enter (t : Slot) : Call → Kernel
  | .fork => k.goto t (.fork .alloc)
  | .clone stack => k.goto t (.clone (.check stack))
  | .exit => k.enterExit t
  | .wait => k.goto t .wait
  | .join pid => k.goto t (.join pid)
  | .exec => k.goto t (.exec .mark)
  | .kill pid => k.goto t (.kill pid)
  | .park c => k.goto t (.park c)
  | .unpark pid c => k.goto t (.unpark pid c)
  | .sbrk n => k.goto t (.sbrk n)
  | .open => k.goto t (.file .open)
  | .dup fd => k.goto t (.file (.dup fd))
  | .close fd => k.goto t (.file (.close fd))
  | .pipe => k.goto t (.file .pipe)

/-- The next step of the call that the thread `t` of the process `L` is in. -/
def callStep (t L : Slot) (e : Env) : Pc → Option Kernel
  | .dead | .user => none
  | .ret _ | .trap => some (if (k.proc t).killed then k.enterExit t else k.goto t .user)
  | .fork c => some (k.forkStep t L e c)
  | .clone c => some (k.cloneStep t L e c)
  | .exit c => some (k.exitStep t L c)
  | .wait => some (k.waitStep t L)
  | .join pid => some (k.joinStep t L e pid)
  | .joinWait pid p => some (k.joinLoop t L pid p)
  | .exec c => some (k.execStep t L e c)
  | .kill pid => some (k.killStep t pid)
  | .park c => some (k.parkStep t c)
  | .parked => some (k.ret t 0)
  | .unpark pid c => some (k.unparkStep t e pid c)
  | .sbrk n => some (k.goto t (.growproc n (k.proc L).sz))
  | .growproc n addr => some (k.growprocStep t L e n addr)
  | .file c => some (k.fileStep t e c)

/-- One step of the machine, `none` when the label is not enabled. -/
def next : Label → Option Kernel
  | .schedule t =>
      if k.halted = none ∧ (k.proc t).state = .runnable then
        some (k.modify t fun q => { q with state := .running, chan := .null })
      else none
  | .yield t =>
      if k.halted = none ∧ (k.proc t).state = .running then
        some (k.modify t fun q => { q with state := .runnable })
      else none
  | .syscall t c =>
      if k.halted = none ∧ (k.proc t).state = .running ∧ k.pc t = .user then
        some (if (k.proc t).killed then k.enterExit t else k.enter t c)
      else none
  | .interrupt t =>
      if k.halted = none ∧ (k.proc t).state = .running ∧ k.pc t = .user ∧ (k.proc t).killed then
        some (k.enterExit t)
      else none
  | .fault t =>
      if k.halted = none ∧ (k.proc t).state = .running ∧ k.pc t = .user then
        some ((k.modify t fun q => { q with killed := true }).goto t .trap)
      else none
  | .step t e =>
      if k.halted = none ∧ (k.proc t).state = .running then
        match (k.proc t).process with
        | none => some (k.halt .nullProcess)
        | some L => k.callStep t L e (k.pc t)
      else none
  | .block t a =>
      if k.halted = none ∧ (k.proc t).state = .running ∧ (k.pc t).mayBlock then
        some (k.sleep t (.addr a))
      else none
  | .wakeup a => if k.halted = none then some (k.wakeup1 (.addr a)) else none

end Kernel

/-- The slot that `userinit` fills in. -/
def initcode : Proc :=
  { sz := PGSIZE, threadcount := 1, pgdir := some 0, kstack := some 1, state := .runnable, pid := 1,
    tgid := 1, process := some 0, cwd := some 0 }

/-- The page directory of the first process, with the page of `initcode`. -/
def initDir : Pgdir := ⟨fun i => if i = 0 then some fun j => if j = 0 then some ⟨true, true⟩ else none
  else none⟩

/-- The state after `userinit`. -/
def userinit : Kernel where
  proc s := if s = 0 then initcode else {}
  pc s := if s = 0 then .user else .dead
  nextpid := 2
  initproc := 0
  ref _ := 0
  iref i := if i = 0 then 1 else 0
  vm _ := initDir
  npage := 2
  halted := none
  freevms _ := 0
  kfrees _ := 0
  owner x := if x = 0 then some 1 else none
  forker _ := 0

/-- The kernel as a transition system. -/
def kernel : Transition.System Kernel Label where
  init k := k = userinit
  step k l k' := k.next l = some k'

/-- The kernel states that some run from `userinit` reaches. -/
abbrev Reachable : Kernel → Prop := Transition.Reach kernel Transition.anyStep

/-- The kernel states reached by the runs all of whose steps meet `ok`. -/
abbrev ReachableBy (ok : Kernel → Label → Prop) : Kernel → Prop := Transition.Reach kernel ok

/-- A condition on the threads that take a step of a system call. -/
def onStep (P : Kernel → Slot → Prop) (k : Kernel) : Label → Prop
  | .step t _ => P k t
  | _ => True

instance {P : Kernel → Slot → Prop} [∀ k t, Decidable (P k t)] (k : Kernel) (l : Label) :
    Decidable (onStep P k l) :=
  match l with
  | .step t _ => inferInstanceAs (Decidable (P k t))
  | .schedule _ | .yield _ | .syscall _ _ | .interrupt _ | .fault _ | .block _ _ | .wakeup _ =>
      inferInstanceAs (Decidable True)

/-- A thread makes the next `n` steps of the call it is in, with enough memory. -/
def steps (t : Slot) (n : ℕ) : List Label := List.replicate n (.step t {})

/-- A running thread enters a system call and makes its first `n` steps. -/
def calls (t : Slot) (c : Call) (n : ℕ) : List Label := .syscall t c :: steps t n

/-- The state that a script leads to from `userinit`. -/
def runScript (ls : List Label) : Option Kernel := Transition.exec Kernel.next userinit ls

/-- The state that a script leads to as long as its steps meet `ok`. -/
def runScriptBy (ok : Kernel → Label → Prop) [∀ k l, Decidable (ok k l)] (ls : List Label) :
    Option Kernel :=
  Transition.execWhile Kernel.next ok userinit ls

theorem exists_of_runScript (ls : List Label) (P : Kernel → Prop) [DecidablePred P]
    (h : (runScript ls).any (fun k => P k) = true) :
    ∃ k, runScript ls = some k ∧ Reachable k ∧ P k :=
  Transition.Reach.exists_of_exec (fun _ _ _ hstep => hstep) rfl ls P h

theorem exists_of_runScriptBy (ok : Kernel → Label → Prop) [∀ k l, Decidable (ok k l)]
    (ls : List Label) (P : Kernel → Prop) [DecidablePred P]
    (h : (runScriptBy ok ls).any (fun k => P k) = true) :
    ∃ k, runScriptBy ok ls = some k ∧ ReachableBy ok k ∧ P k :=
  Transition.Reach.exists_of_execWhile (fun _ _ _ hstep => hstep) rfl ok ls P h

/-- The state that a script leads to as long as its steps meet `ok`, with a history of
the run. -/
def runRecordedBy {η : Type*} (h₀ : η) (record : η → Kernel → Label → η)
    (ok : Kernel → Label → Prop) [∀ k l, Decidable (ok k l)] (ls : List Label) :
    Option (Kernel × η) :=
  Transition.execWhile (Transition.recordNext Kernel.next record) (fun x l => ok x.1 l)
    (userinit, h₀) ls

theorem exists_of_runRecordedBy {η : Type*} (h₀ : η) (record : η → Kernel → Label → η)
    (ok : Kernel → Label → Prop) [∀ k l, Decidable (ok k l)] (ls : List Label)
    (P : Kernel × η → Prop) [DecidablePred P]
    (h : (runRecordedBy h₀ record ok ls).any (fun x => P x) = true) :
    ∃ x, runRecordedBy h₀ record ok ls = some x ∧
      Transition.Reach (kernel.recording h₀ record) (fun x l => ok x.1 l) x ∧ P x :=
  Transition.Reach.exists_of_execWhile
    (Transition.recordNext_step fun _ _ _ hstep => hstep) ⟨rfl, rfl⟩ (fun x l => ok x.1 l) ls P h

end KThreads
