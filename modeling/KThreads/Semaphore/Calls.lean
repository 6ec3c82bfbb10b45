import KThreads.Exec
import KThreads.Lib.Circular
import KThreads.Lib.Interleaving
import KThreads.Lib.Semaphore

/-!
# Semaphores of the user library

`sem_up` and `sem_down` change the count and the queue of a semaphore under its
guard, a spinlock. A `sem_down` that finds no permit enters its pid in the queue,
releases the guard and calls `park`; the `sem_up` that takes the pid from the
queue calls `unpark` under the guard. An `unpark` that comes before the `park`
leaves a wakeup in the slot of the thread, which `park` takes.

Threads are named by their pids, which are not used twice. The threads can be
killed: a thread that has been killed does not come back from `park`, and may
exit before any of its instructions.
-/

namespace KThreads.Sem

open Function (update)

/-- `QMAX`: the length of the array of a queue. -/
abbrev QMAX : ℕ := 100

/-- A queue of pids; `stop` is the field `end`. -/
structure Queue where
  arr : Fin QMAX → ℕ
  start : ℕ
  stop : ℕ
  count : ℤ

namespace Queue

variable (q : Queue)

/-- `enq` -/
def enq (x : ℕ) : Queue where
  arr := update q.arr (Circular.cell QMAX q.stop) x
  start := q.start
  stop := (q.stop + 1) % QMAX
  count := q.count + 1

/-- `deq` -/
def deq : ℕ × Queue :=
  (q.arr (Circular.cell QMAX q.start),
    { q with start := (q.start + 1) % QMAX, count := q.count - 1 })

/-- `qinit` leaves the array as it is. -/
def qinit : Queue := { q with start := 0, stop := 0, count := 0 }

/-- The pids in the queue, the first one first. -/
def contents : List ℕ := Circular.segment q.arr q.start q.count.toNat

/-- The fields of the queue agree. -/
structure WellFormed : Prop where
  nonneg : 0 ≤ q.count
  stop_eq : q.stop % QMAX = (q.start + q.count.toNat) % QMAX

variable {q}

theorem length_contents : q.contents.length = q.count.toNat := Circular.length_segment

theorem wellFormed_qinit : q.qinit.WellFormed := ⟨le_rfl, rfl⟩

theorem WellFormed.enq (h : q.WellFormed) (x : ℕ) : (q.enq x).WellFormed := by
  obtain ⟨hcount, hstop⟩ := h
  have hsucc : (q.count + 1).toNat = q.count.toNat + 1 := by omega
  refine ⟨by simp only [Queue.enq]; omega, ?_⟩
  simp only [Queue.enq, Nat.mod_mod, hsucc]
  exact Nat.ModEq.add_right 1 hstop

theorem WellFormed.contents_enq (h : q.WellFormed) {x : ℕ} (hfull : q.count < QMAX) :
    (q.enq x).contents = q.contents ++ [x] := by
  obtain ⟨hcount, hstop⟩ := h
  have hsucc : (q.count + 1).toNat = q.count.toNat + 1 := by omega
  have hput : (q.enq x).arr = Circular.put q.arr (q.start + q.count.toNat) [x] := by
    simp only [Queue.enq, Circular.put, Circular.cell_congr hstop]
  rw [contents, hput]
  simp only [Queue.enq, hsucc]
  refine Circular.segment_put ?_
  rw [List.length_singleton]
  omega

theorem WellFormed.deq (h : q.WellFormed) (hne : q.contents ≠ []) :
    q.deq.2.WellFormed := by
  obtain ⟨hcount, hstop⟩ := h
  have hpos : 0 < q.count.toNat := length_contents ▸ List.length_pos_iff.mpr hne
  have hpred : q.count.toNat = 1 + (q.count - 1).toNat := by omega
  refine ⟨by simp only [Queue.deq]; omega, ?_⟩
  simp only [Queue.deq, Nat.mod_add_mod]
  rw [hstop, hpred, Nat.add_assoc]

theorem contents_deq (hne : q.contents ≠ []) : q.deq.1 :: q.deq.2.contents = q.contents := by
  have hpos : 0 < q.count.toNat := length_contents ▸ List.length_pos_iff.mpr hne
  obtain ⟨m, hm⟩ : ∃ m, q.count.toNat = m + 1 := ⟨q.count.toNat - 1, by omega⟩
  have hpred : (q.count - 1).toNat = m := by omega
  simp only [contents, Queue.deq, hm, hpred, Circular.segment]
  rw [Circular.segment_congr (Nat.mod_mod _ _)]

end Queue

/-- What the slot of a thread says about the channel of the semaphore: a wakeup
that came too early, and whether the thread sleeps there. -/
structure Parking where
  lostwakeup : Bool
  asleep : Bool
  deriving DecidableEq

namespace Parking

/-- Nothing of the channel is in the slot. -/
def clear : Parking := ⟨false, false⟩

theorem eq_clear {p : Parking} (hasleep : p.asleep = false) (hlost : p.lostwakeup = false) :
    p = clear := by
  cases p
  simp_all [clear]

/-- The section of `park`. -/
def park (p : Parking) : Parking :=
  if p.lostwakeup then { p with lostwakeup := false } else ⟨false, true⟩

/-- `unpark` -/
def unpark (p : Parking) : Parking :=
  if p.asleep then { p with asleep := false } else { p with lostwakeup := true }

/-- `kill` wakes the thread. -/
def kill (p : Parking) : Parking := { p with asleep := false }

end Parking

/-- Where a thread is in its call. -/
inductive Pc
  | user
  /-- The threads spin for the guard. -/
  | downAcquire
  | upAcquire
  /-- `s->count--` in `sem_down`, and the test. -/
  | downDec
  /-- `pid = getpid()` and `enq(&s->waitq, pid)`. -/
  | downEnq
  /-- The release of the guard before `park`. -/
  | downUnlock
  | downPark
  /-- Behind the section of `park`. -/
  | downParked
  /-- The release of the guard by a `sem_down` that has found a permit. -/
  | downRelease
  /-- `s->count++` in `sem_up`, and the test. -/
  | upInc
  /-- `pid = deq(&s->waitq)` -/
  | upDeq
  /-- `unpark(pid, &s->count)` -/
  | upUnpark (pid : ℕ)
  | upRelease
  deriving DecidableEq

/-- The semaphore, what the kernel keeps of the threads, and a history: the number
of calls of `sem_up` that have incremented the count, and the semaphore as it
should be. Of the guard it is kept who holds it. -/
structure Shared where
  guard : Option ℕ
  count : ℤ
  waitq : Queue
  live : Finset ℕ
  zombies : Finset ℕ
  nextpid : ℕ
  parking : ℕ → Parking
  killed : ℕ → Bool
  ups : ℕ
  spec : Semaphore ℕ

namespace Shared

variable (s : Shared)

/-- `sem_init` -/
def sem_init (n : ℕ) : Shared :=
  { s with
    guard := none, count := n, waitq := s.waitq.qinit, ups := 0, spec := Semaphore.start ℕ n }

/-- `unpark(p, &s->count)` finds the slot of a thread that has not been reaped. -/
def unpark (p : ℕ) : Shared :=
  if p ∈ s.live ∨ p ∈ s.zombies then
    { s with parking := update s.parking p (s.parking p).unpark }
  else s

/-- `kill(p)` -/
def kill (p : ℕ) : Shared :=
  if p ∈ s.live ∨ p ∈ s.zombies then
    { s with
      killed := update s.killed p true, parking := update s.parking p (s.parking p).kill }
  else s

/-- A new thread, by `clone`. -/
def clone : Shared :=
  { s with
    live := insert s.nextpid s.live, nextpid := s.nextpid + 1,
    killed := update s.killed s.nextpid false, parking := update s.parking s.nextpid .clear }

/-- A thread exits. -/
def exit (t : ℕ) : Shared := { s with live := s.live.erase t, zombies := insert t s.zombies }

/-- The next instruction, or the next system call, of the thread `t` in its call. -/
def run (t : ℕ) : Pc → Option (Shared × Pc)
  | .user => none
  -- `while(xchg(lk, 1) != 0)`
  | .downAcquire =>
      some (if s.guard = none then ({ s with guard := some t }, .downDec) else (s, .downAcquire))
  | .upAcquire =>
      some (if s.guard = none then ({ s with guard := some t }, .upInc) else (s, .upAcquire))
  | .downDec =>
      if s.count < -INT_MAX then none
      else if s.count - 1 < 0 then some ({ s with count := s.count - 1 }, .downEnq)
      else some ({ s with count := s.count - 1, spec := s.spec.take t }, .downRelease)
  | .downEnq => some ({ s with waitq := s.waitq.enq t, spec := s.spec.wait t }, .downUnlock)
  | .downUnlock => some ({ s with guard := none }, .downPark)
  | .downPark =>
      some ({ s with parking := update s.parking t (s.parking t).park }, .downParked)
  -- A thread that has been killed exits before it is back in user space.
  | .downParked =>
      if (s.parking t).asleep ∨ s.killed t then none
      else some ({ s with spec := s.spec.ret t }, .user)
  | .downRelease => some ({ s with guard := none, spec := s.spec.ret t }, .user)
  | .upInc =>
      if INT_MAX ≤ s.count then none
      else if s.count + 1 ≤ 0 then some ({ s with count := s.count + 1, ups := s.ups + 1 }, .upDeq)
      else
        some ({ s with count := s.count + 1, ups := s.ups + 1, spec := s.spec.post }, .upRelease)
  | .upDeq => some ({ s with waitq := s.waitq.deq.2 }, .upUnpark s.waitq.deq.1)
  | .upUnpark p => some ({ s.unpark p with spec := s.spec.hand }, .upRelease)
  | .upRelease => some ({ s with guard := none }, .user)

end Shared

/-- What a thread does next. The call of `kill` may come from anywhere. -/
inductive Event
  | down
  | up
  | run
  | create
  | join (p : ℕ)
  | exit
  | kill (p : ℕ)

/-- The step of the thread `t`. -/
def act (s : Shared) (t : ℕ) (pc : Pc) : Event → Option (Shared × Pc)
  | .kill p => some (s.kill p, pc)
  | .run => if t ∈ s.live then s.run t pc else none
  | .down => if t ∈ s.live ∧ pc = .user then some (s, .downAcquire) else none
  | .up => if t ∈ s.live ∧ pc = .user then some (s, .upAcquire) else none
  | .create =>
      if t ∈ s.live ∧ pc = .user ∧ s.live.card + s.zombies.card < NPROC then some (s.clone, .user)
      else none
  | .join p =>
      if t ∈ s.live ∧ pc = .user ∧ p ∈ s.zombies then
        some ({ s with zombies := s.zombies.erase p }, .user)
      else none
  | .exit =>
      if t ∈ s.live ∧ (s.parking t).asleep = false ∧ (pc = .user ∨ s.killed t = true) then
        some (s.exit t, pc)
      else none

/-- The threads of a process. -/
abbrev Process := Interleaving.Config ℕ Shared Pc

/-- The threads are in user space when the semaphore is initialised, and none of
them has been killed or has a wakeup for its channel. -/
def Process.initial (n : ℕ) (c : Process) : Prop :=
  (∃ s : Shared, c.shared = s.sem_init n) ∧ c.shared.live.card + c.shared.zombies.card ≤ NPROC ∧
    (∀ p ∈ c.shared.live, p < c.shared.nextpid) ∧ (∀ t, c.shared.killed t = false) ∧
    (∀ t, c.shared.parking t = .clear) ∧ ∀ t, c.loc t = .user

/-- The process as a transition system. -/
abbrev process (n : ℕ) : Transition.System Process (ℕ × Event) :=
  Interleaving.system (Process.initial n) act

end KThreads.Sem
