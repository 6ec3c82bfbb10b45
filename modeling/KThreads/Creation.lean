import KThreads.FileTable

/-!
# Creation of processes and threads

`allocproc`, `fork` and `clone`. Only the search of `allocproc` and the last
section run under `ptable.lock`; in between the new slot is visible to every
scan of the table while it is being filled in.
-/

namespace KThreads.Kernel

variable (k : Kernel)

/-- Every descriptor, in the order of the loops over `ofile`. -/
def allFds : List Fd := List.finRange NOFILE

/-- The section of `allocproc` under `ptable.lock`. The caller returns -1 when
the table is full and goes on at `next` otherwise. -/
def allocproc (t : Slot) (next : Slot → Pc) : Kernel :=
  match Fin.find? fun p => (k.proc p).state = .unused with
  | none => k.ret t (-1)
  | some p =>
      if k.nextpid = INT_MAX then k.halt .pidOverflow
      else
        ({ k with nextpid := k.nextpid + 1 }.modify p fun q =>
          { q with state := .embryo, pid := k.nextpid }).goto t (next p)

/-- The rest of `allocproc`, up to the assignments `fields` of the caller: the
slot is given back when there is no page for the kernel stack. -/
def allocKstack (t np : Slot) (e : Env) (fields : Proc → Proc) (next : Pc) : Kernel :=
  if e.mem = 0 then
    (k.modify np fun q => { q with kstack := none, state := .unused }).ret t (-1)
  else
    ({ k with npage := k.npage + 1 }.modify np fun q =>
      fields { q with kstack := some k.npage }).goto t next

/-- The steps of `fork` by the thread `t` of the process `L`. -/
def forkStep (t L : Slot) (e : Env) : ForkPc → Kernel
  | .alloc => k.allocproc t fun np => .fork (.init np)
  | .init np =>
      k.allocKstack t np e
        (fun q => { q with tgid := q.pid, process := some np, lostwakeup := .null })
        (.fork (.copy np))
  | .copy np =>
      match copyuvm (k.dir t) (k.proc L).sz e.mem with
      | .error p => k.panic (.vm p)
      | .ok none =>
          ({ k with kfrees := fun x => k.kfrees x + if (k.proc np).kstack = some x then 1 else 0 }.modify
            np fun q => { q with pgdir := none, kstack := none, state := .unused }).ret t (-1)
      | .ok (some d) =>
          ({ k with
              vm := Function.update k.vm k.npage d
              npage := k.npage + 1
              owner := Function.update k.owner k.npage (some (k.proc np).tgid) }.modify np fun q =>
            { q with pgdir := some k.npage, sz := (k.proc L).sz }).goto t (.fork (.parent np))
  | .parent np =>
      ({ k with forker := Function.update k.forker np (k.proc t).tgid }.modify np fun q =>
        { q with parent := some L }).goto t (.fork (.files np allFds))
  | .files np fds => k.dupFiles t fds (fun fd f fds => .fork (.file np fd f fds)) (.fork (.cwd np))
  | .file np fd f fds => (k.setFile np fd (some f)).goto t (.fork (.files np fds))
  | .cwd np => k.goto t (.fork (.idup np (k.proc L).cwd))
  | .idup np cwd =>
      ({ k with iref := fun i => k.iref i + if cwd = some i then 1 else 0 }.modify np fun q =>
        { q with cwd := cwd }).goto t (.fork (.publish np))
  | .publish np =>
      ((k.modify np fun q => { q with state := .runnable, threadcount := 1 }).goto np .user).ret t
        (k.proc np).pid

/-- The steps of `clone` by the thread `t` of the process `L`. -/
def cloneStep (t L : Slot) (e : Env) : ClonePc → Kernel
  | .check stack =>
      if toUint (stack - 4096) ≥ (k.proc L).sz ∨ stack > (k.proc L).sz then k.ret t (-1)
      else k.goto t (.clone .alloc)
  | .alloc => k.allocproc t fun np => .clone (.init np)
  | .init np =>
      k.allocKstack t np e
        (fun q => { q with
          tgid := (k.proc t).tgid, process := (k.proc t).process, lostwakeup := .null })
        (.clone (.pgdir np))
  | .pgdir np =>
      (k.modify np fun q => { q with pgdir := (k.proc t).pgdir, sz := 0 }).goto t
        (.clone (.parent np))
  -- The parent is read without `ptable.lock`, under which `exit` rewrites it.
  | .parent np =>
      (k.modify np fun q => { q with threadcount := 0 }).goto t
        (.clone (.setParent np (k.proc t).parent))
  | .setParent np parent =>
      (k.modify np fun q => { q with parent := parent }).goto t (.clone (.files np allFds))
  | .files np fds =>
      k.dupFiles t fds (fun fd f fds => .clone (.file np fd f fds)) (.clone (.publish np))
  | .file np fd f fds => (k.setFile np fd (some f)).goto t (.clone (.files np fds))
  | .publish np =>
      if (k.proc t).killed then
        (k.modify np fun q => { q with cwd := none, state := .zombie }).ret t (k.proc np).pid
      else
        (((k.modify np fun q => { q with cwd := none, state := .runnable }).modify L fun q =>
          { q with threadcount := (q.threadcount + 1) % 2 ^ 32 }).goto np .user).ret t
          (k.proc np).pid

end KThreads.Kernel
