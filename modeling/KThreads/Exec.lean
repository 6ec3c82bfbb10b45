import KThreads.Termination

/-!
# Exec, the memory size, and signals

The remaining system calls on the process table: `exec` with its two sections
under `ptable.lock` and the unlocked swap of identities behind them, `growproc`
under the `vlock` of the process, and `kill`, `park` and `unpark`.
-/

namespace KThreads.Kernel

variable (k : Kernel)

/-- The assignments with which `kill` and `exec` mark a slot: a sleeping thread
is made runnable. -/
def marked (q : Proc) : Proc :=
  { q with killed := true, state := if q.state = .sleeping then .runnable else q.state }

/-- The first section of `exec`: mark every other thread of the group. -/
def execMark (t : Slot) : Kernel :=
  if (k.proc t).killed then k.ret t (-1)
  else
    { k with proc := fun p =>
        if (k.proc p).tgid = (k.proc t).tgid ∧ (k.proc p).pid ≠ (k.proc t).pid then
          marked (k.proc p)
        else k.proc p }.goto t (.exec .wait)

/-- The test of the waiting loop of `exec`. -/
def execAlive (t : Slot) : Bool :=
  ∃ p, (k.proc p).tgid = (k.proc t).tgid ∧ p ≠ t ∧ (k.proc p).state ≠ .zombie

/-- The steps of `exec` by the thread `t` of the process `L`. -/
def execStep (t L : Slot) (e : Env) : ExecPc → Kernel
  | .mark => k.execMark t
  | .wait => if k.execAlive t then k.sleep t (.slot L) else k.goto t (.exec .swap)
  -- The four stores behind the section are unlocked.
  | .swap => (k.modify L fun q => { q with pid := (k.proc t).pid }).goto t (.exec .take)
  | .take => (k.modify t fun q => { q with pid := q.tgid }).goto t (.exec .setCount)
  | .setCount => (k.modify L fun q => { q with threadcount := 1 }).goto t (.exec .setLost)
  | .setLost => (k.modify L fun q => { q with lostwakeup := .null }).goto t (.exec .load)
  | .load =>
      match e.elf with
      | none => k.ret t (-1)
      | some elf =>
          match execImage elf e.mem with
          | .error p => k.panic (.vm p)
          | .ok none => k.ret t (-1)
          | .ok (some (d, sz)) =>
              { k with vm := Function.update k.vm k.npage d, npage := k.npage + 1 }.goto t
                (.exec (.commit k.npage sz))
  | .commit image sz =>
      ({ k with
          owner := Function.update k.owner image (some (k.proc t).tgid)
          freevms := fun x => k.freevms x + if (k.proc t).pgdir = some x then 1 else 0 }.modify t
        fun q => { q with pgdir := some image, sz := sz }).ret t 0

/-- `growproc` under the `vlock` of the process, and the return of `sys_sbrk`
with the address it has read. -/
def growprocStep (t L : Slot) (e : Env) (n : ℤ) (addr : ℕ) : Kernel :=
  let sz := (k.proc L).sz
  if n > 0 then
    match allocuvm (k.dir t) sz (toUint (sz + n)) e.mem with
    | .error p => k.panic (.vm p)
    | .ok (d, r, _) =>
        if r = 0 then (k.setDir t d).ret t (-1)
        else ((k.setDir t d).modify L fun q => { q with sz := r }).ret t addr
  else if n < 0 then
    let (d, r) := deallocuvm (k.dir t) sz (toUint (sz + n))
    if r = 0 then (k.setDir t d).ret t (-1)
    else ((k.setDir t d).modify L fun q => { q with sz := r }).ret t addr
  else (k.modify L fun q => { q with sz := sz }).ret t addr

/-- `kill` -/
def killStep (t : Slot) (pid : ℤ) : Kernel :=
  match k.findPid pid with
  | none => k.ret t (-1)
  | some p => (k.modify p marked).ret t 0

/-- The section of `park` up to the switch to the scheduler. -/
def parkStep (t : Slot) (c : Chan) : Kernel :=
  if (k.proc t).lostwakeup = c then (k.modify t fun q => { q with lostwakeup := .null }).ret t 0
  else
    ((k.sleep t c).modify t fun q => { q with lostwakeup := .null }).goto t .parked

/-- `unpark`. Like `join` it tests the slot behind the table when no slot has
the pid. -/
def unparkStep (t : Slot) (e : Env) (pid : ℤ) (c : Chan) : Kernel :=
  match k.findPid pid with
  | some p =>
      if (k.proc p).state = .sleeping ∧ (k.proc p).chan = c then
        (k.modify p fun q => { q with state := .runnable, chan := .null }).ret t 0
      else (k.modify p fun q => { q with lostwakeup := c }).ret t 1
  | none =>
      if e.past ≠ pid then k.ret t (-1) else k.halt .pastTable

end KThreads.Kernel
