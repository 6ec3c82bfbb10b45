import KThreads.Basic
import KThreads.Lib.Interleaving
import KThreads.Lib.Circular

/-!
# Pipes

`pipewrite`, `piperead` and `pipeclose` on one pipe, by any number of threads that
may be killed at any time. A thread that holds the lock of the pipe takes several
steps, between which others are killed or wait for the lock; `sleep` gives up the
lock and goes to sleep in one step, as it does under the `ptable.lock` that every
`wakeup` takes. The user copies may fail, and read what the user memory holds when
they are made.
-/

namespace KThreads.Pipe

open Function (update)

/-- `PIPESIZE`. -/
abbrev PIPESIZE : ℕ := 512

/-- The contents of `struct pipe`, its lock apart. -/
structure Buffer where
  data : Fin PIPESIZE → UInt8
  nread : ℕ
  nwrite : ℕ
  readopen : Bool
  writeopen : Bool

namespace Buffer

/-- `p->nwrite == p->nread + PIPESIZE`. -/
abbrev Full (p : Buffer) : Prop := p.nwrite = toUint (p.nread + PIPESIZE)

/-- The bytes that an iteration of the loop of `pipewrite` copies. The length that
is left is positive, so that its conversion to `uint` does not change it. -/
def writeBytes (p : Buffer) (n i : ℕ) : ℕ := min (toUint (p.nread + PIPESIZE - p.nwrite)) (n - i)

/-- The bytes that `piperead` copies. -/
def readBytes (p : Buffer) (n : ℕ) : ℕ := min (toUint (p.nwrite - p.nread)) n

/-- The length of the first of the two copies, at the end of the buffer. -/
def chunk1 (pos bytes : ℕ) : ℕ :=
  if PIPESIZE - pos % PIPESIZE < bytes then PIPESIZE - pos % PIPESIZE else bytes

/-- `copy_from_user(&p->data[p->nwrite % PIPESIZE], ...)`. -/
def copyIn1 (p : Buffer) (src : List UInt8) : Buffer :=
  { p with data := Circular.store p.data (p.nwrite % PIPESIZE) src }

/-- `copy_from_user(p->data, ...)`. -/
def copyIn2 (p : Buffer) (src : List UInt8) : Buffer := { p with data := Circular.store p.data 0 src }

/-- `copy_to_user(addr, &p->data[p->nread % PIPESIZE], chunk1)`. -/
def copyOut1 (p : Buffer) (chunk : ℕ) : List UInt8 := Circular.load p.data (p.nread % PIPESIZE) chunk

/-- `copy_to_user(addr + chunk1, &p->data, chunk2)`. -/
def copyOut2 (p : Buffer) (chunk : ℕ) : List UInt8 := Circular.load p.data 0 chunk

/-- `p->nwrite += bytes`. -/
def publish (p : Buffer) (bytes : ℕ) : Buffer := { p with nwrite := toUint (p.nwrite + bytes) }

/-- `p->nread += bytes`. -/
def consume (p : Buffer) (bytes : ℕ) : Buffer := { p with nread := toUint (p.nread + bytes) }

end Buffer

/-- What threads sleep on. -/
inductive Chan
  | nread
  | nwrite
  deriving DecidableEq

/-- The pipe and the threads that use it, as far as they are seen by each other. What
has been published and delivered is kept as a history. -/
structure Shared (τ : Type*) where
  buf : Buffer
  lock : Option τ
  /-- The page of the pipe has been given back. -/
  freed : Bool
  /-- What a thread is `SLEEPING` on. -/
  sleeping : τ → Option Chan
  killed : τ → Bool
  published : List UInt8
  delivered : List UInt8

/-- Where a thread is: before `acquire`, at a statement of the section under the lock,
asleep or about to take the lock again in `sleep`, or at the return. The arguments
are the local variables that are still used. -/
inductive Pc
  | user
  | pipewrite (n : ℕ)
  | writeLoop (n i : ℕ)
  | writeFull (n i : ℕ)
  | writeSleep (n i : ℕ)
  | writeWoken (n i : ℕ)
  | writeCopy1 (n i bytes chunk1 : ℕ)
  | writeCopy2 (n i bytes chunk1 : ℕ) (src : List UInt8)
  | piperead (n : ℕ)
  | readEmpty (n : ℕ)
  | readSleep (n : ℕ)
  | readWoken (n : ℕ)
  | readCopy1 (bytes chunk1 : ℕ)
  | readCopy2 (bytes chunk1 : ℕ) (dst : List UInt8)
  | readWakeup (bytes : ℕ)
  | pipeclose (writable : Bool)
  | ret (r : ℤ)
  deriving DecidableEq

/-- A thread makes a system call, or the next step of the one it is in. A user copy
fails, or reads the bytes `src` from the user memory; a copy of no bytes is not
made, and does not fail. -/
inductive Event (τ : Type*)
  | pipewrite (n : ℕ)
  | piperead (n : ℕ)
  | pipeclose (writable : Bool)
  | kill (u : τ)
  | run
  | copyFromUser (src : Option (List UInt8))
  | copyToUser (ok : Bool)

variable {τ : Type*} [DecidableEq τ]

namespace Shared

omit [DecidableEq τ] in
/-- `acquire(&p->lock)`. There is no lock to acquire once the page is gone. -/
def acquire (s : Shared τ) (t : τ) : Option (Shared τ) :=
  if s.lock.isNone ∧ s.freed = false then some { s with lock := some t } else none

omit [DecidableEq τ] in
/-- `release(&p->lock)`. -/
def release (s : Shared τ) : Shared τ := { s with lock := none }

omit [DecidableEq τ] in
/-- `wakeup(chan)`. -/
def wakeup (s : Shared τ) (chan : Chan) : Shared τ :=
  { s with sleeping := fun u => if s.sleeping u = some chan then none else s.sleeping u }

/-- `sleep(chan, &p->lock)`, up to the call of `sched`. -/
def sleep (s : Shared τ) (t : τ) (chan : Chan) : Shared τ :=
  { s with sleeping := update s.sleeping t (some chan), lock := none }

/-- `kill` of the thread `u`. -/
def kill (s : Shared τ) (u : τ) : Shared τ :=
  { s with killed := update s.killed u true, sleeping := update s.sleeping u none }

omit [DecidableEq τ] in
/-- The section of `pipeclose`. -/
def pipeclose (s : Shared τ) (writable : Bool) : Shared τ :=
  let s' :=
    if writable then { s with buf.writeopen := false }.wakeup .nread
    else { s with buf.readopen := false }.wakeup .nwrite
  { s' with freed := !s'.buf.readopen && !s'.buf.writeopen }

end Shared

/-- The step of a thread that is not asleep. -/
def next (s : Shared τ) (t : τ) : Pc → Event τ → Option (Shared τ × Pc)
  -- a killed thread exits at the trap, and `argptr` refuses a negative length
  | .user, .pipewrite n =>
      if s.killed t = false ∧ n ≤ INT_MAX then some (s, .pipewrite n) else none
  | .user, .piperead n =>
      if s.killed t = false ∧ n ≤ INT_MAX then some (s, .piperead n) else none
  | .user, .pipeclose writable => some (s, .pipeclose writable)
  | .user, .kill u => some (s.kill u, .user)
  | .pipewrite n, .run => (s.acquire t).map fun s' => (s', .writeLoop n 0)
  | .writeLoop n i, .run =>
      if i < n then
        if s.buf.Full then some (s, .writeFull n i)
        else
          let bytes := s.buf.writeBytes n i
          some (s, .writeCopy1 n i bytes (Buffer.chunk1 s.buf.nwrite bytes))
      else some ((s.wakeup .nread).release, .ret n)
  | .writeFull n i, .run =>
      if s.buf.readopen = false ∨ s.killed t = true then some (s.release, .ret (-1))
      else some (s.wakeup .nread, .writeSleep n i)
  | .writeSleep n i, .run => some (s.sleep t .nwrite, .writeWoken n i)
  | .writeWoken n i, .run => (s.acquire t).map fun s' => (s', .writeLoop n i)
  | .writeCopy1 _ _ _ chunk1, .copyFromUser none =>
      if chunk1 = 0 then none else some (s.release, .ret (-1))
  | .writeCopy1 n i bytes chunk1, .copyFromUser (some src) =>
      if src.length = chunk1 then
        some ({ s with buf := s.buf.copyIn1 src }, .writeCopy2 n i bytes chunk1 src)
      else none
  | .writeCopy2 _ _ bytes chunk1 _, .copyFromUser none =>
      if bytes - chunk1 = 0 then none else some (s.release, .ret (-1))
  | .writeCopy2 n i bytes chunk1 src, .copyFromUser (some src') =>
      if src'.length = bytes - chunk1 then
        some ({ s with
          buf := (s.buf.copyIn2 src').publish bytes
          published := s.published ++ (src ++ src') }, .writeLoop n (i + bytes))
      else none
  | .piperead n, .run => (s.acquire t).map fun s' => (s', .readEmpty n)
  | .readEmpty n, .run =>
      if s.buf.nread = s.buf.nwrite ∧ s.buf.writeopen = true then
        if s.killed t then some (s.release, .ret (-1)) else some (s, .readSleep n)
      else
        let bytes := s.buf.readBytes n
        some (s, .readCopy1 bytes (Buffer.chunk1 s.buf.nread bytes))
  | .readSleep n, .run => some (s.sleep t .nread, .readWoken n)
  | .readWoken n, .run => (s.acquire t).map fun s' => (s', .readEmpty n)
  | .readCopy1 _ chunk1, .copyToUser false =>
      if chunk1 = 0 then none else some (s.release, .ret (-1))
  | .readCopy1 bytes chunk1, .copyToUser true =>
      some (s, .readCopy2 bytes chunk1 (s.buf.copyOut1 chunk1))
  | .readCopy2 bytes chunk1 _, .copyToUser false =>
      if bytes - chunk1 = 0 then none else some (s.release, .ret (-1))
  | .readCopy2 bytes chunk1 dst, .copyToUser true =>
      some ({ s with
        buf := s.buf.consume bytes
        delivered := s.delivered ++ (dst ++ s.buf.copyOut2 (bytes - chunk1)) },
        .readWakeup bytes)
  | .readWakeup bytes, .run => some ((s.wakeup .nwrite).release, .ret bytes)
  | .pipeclose writable, .run =>
      if s.lock.isNone ∧ s.freed = false then some (s.pipeclose writable, .ret 0) else none
  | .ret _, .run => some (s, .user)
  | _, _ => none

/-- The step of a thread. -/
def act (s : Shared τ) (t : τ) (pc : Pc) (e : Event τ) : Option (Shared τ × Pc) :=
  if s.sleeping t = none then next s t pc e else none

/-- The pipe and the threads that use it. -/
abbrev State (τ : Type*) := Interleaving.Config τ (Shared τ) Pc

/-- The number of bytes in the buffer, `p->nwrite - p->nread`. -/
def Buffer.size (p : Buffer) : ℕ := toUint (p.nwrite - p.nread)

/-- The bytes in the buffer. -/
def Buffer.contents (p : Buffer) : List UInt8 := Circular.segment p.data p.nread p.size

/-- The counters are of type `uint`, and at most `PIPESIZE` apart. -/
structure Buffer.WellFormed (p : Buffer) : Prop where
  nread : p.nread < 4294967296
  nwrite : p.nwrite < 4294967296
  size : p.size ≤ PIPESIZE

omit [DecidableEq τ] in
/-- No thread is in a call, and the counters of the pipe have any values that a pipe
can have. -/
structure State.initial (c : State τ) : Prop where
  buf : c.shared.buf.WellFormed
  lock : c.shared.lock = none
  sleeping : ∀ t, c.shared.sleeping t = none
  published : c.shared.published = c.shared.buf.contents
  delivered : c.shared.delivered = []
  user : ∀ t, c.loc t = .user

/-- The pipe as a transition system. -/
abbrev pipe (τ : Type*) [DecidableEq τ] : Transition.System (State τ) (τ × Event τ) :=
  Interleaving.system State.initial act

omit [DecidableEq τ] in
/-- What `pipealloc` makes of the page `data`. -/
def pipealloc (data : Fin PIPESIZE → UInt8) : State τ where
  shared :=
    { buf := ⟨data, 0, 0, true, true⟩, lock := none, freed := false
      sleeping := fun _ => none, killed := fun _ => false, published := [], delivered := [] }
  loc _ := .user

omit [DecidableEq τ] in
theorem initial_pipealloc (data : Fin PIPESIZE → UInt8) : (pipealloc (τ := τ) data).initial where
  buf := ⟨(by decide : 0 < 4294967296), (by decide : 0 < 4294967296), Nat.zero_le _⟩
  lock := rfl
  sleeping _ := rfl
  published := rfl
  delivered := rfl
  user _ := rfl

end KThreads.Pipe
