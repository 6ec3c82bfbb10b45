import Mathlib
import KThreads.Lib.FifoLock
import KThreads.Lib.Interleaving

/-!
# The ticket lock

`tlock_acquire` draws a ticket by an atomic addition and spins until the turn is
that of its ticket; `tlock_release` reads the turn and stores the next one. Both
counters have 32 bits. The tickets of those who wait are the places in a queue from
the turn on, and there are fewer of them than values of a counter: so a turn is the
turn of one thread, also after the counters have wrapped around.
-/

namespace KThreads.Ticket

open Transition (Reach anyStep)

/-- `tlock_t`, with the lock as it should be as history. -/
structure Shared (τ : Type*) where
  turn : ℕ
  ticket : ℕ
  spec : FifoLock τ

/-- Where a thread is. -/
inductive Pc
  /-- Without the lock. -/
  | user
  /-- In the loop of `tlock_acquire`, with its ticket. -/
  | spin (ticket : ℕ)
  /-- Between `tlock_acquire` and `tlock_release`. -/
  | inside
  /-- In `tlock_release`, with the turn it has read. -/
  | release (turn : ℕ)
  deriving DecidableEq

/-- A thread has the lock. -/
def Pc.holds : Pc → Bool
  | .inside | .release _ => true
  | .user | .spin _ => false

/-- What a thread does next. -/
inductive Event
  | acquire
  | release
  | run

variable {τ : Type*}

/-- `xaddl(&lk->ticket, 1)` and the addition to `lk->turn` -/
def succ (n : ℕ) : ℕ := (n + 1) % 2 ^ 32

/-- `tlock_init` -/
def tlock_init (τ : Type*) : Shared τ := ⟨0, 0, .start τ⟩

/-- The step of the thread `t`. -/
def act (s : Shared τ) (t : τ) : Pc → Event → Option (Shared τ × Pc)
  | .user, .acquire =>
      some ({ s with ticket := succ s.ticket, spec := s.spec.arrive t }, .spin s.ticket)
  -- `while(lk->turn != ticket)`
  | .spin ticket, .run =>
      some (if s.turn ≠ ticket then (s, .spin ticket)
        else ({ s with spec := s.spec.enter t }, .inside))
  | .inside, .release => some (s, .release s.turn)
  | .release turn, .run => some ({ s with turn := succ turn, spec := s.spec.leave }, .user)
  | _, _ => none

/-- The threads that use a lock. -/
abbrev Threads (τ : Type*) := Interleaving.Config τ (Shared τ) Pc

/-- No thread has called before the lock is initialised. -/
def Threads.initial (c : Threads τ) : Prop := c.shared = tlock_init τ ∧ ∀ t, c.loc t = .user

variable [DecidableEq τ]

/-- The threads as a transition system. -/
abbrev lock (τ : Type*) [DecidableEq τ] : Transition.System (Threads τ) (τ × Event) :=
  Interleaving.system Threads.initial act

omit [DecidableEq τ] in
/-- The counters tell how many have left and how many have arrived. -/
structure Counted (s : Shared τ) : Prop where
  spec : Reach (FifoLock.system τ) anyStep s.spec
  turn : s.turn = s.spec.gone % 2 ^ 32
  ticket : s.ticket = s.spec.arrived.length % 2 ^ 32

omit [DecidableEq τ] in
/-- The place of a thread in the queue. -/
def Placed (s : Shared τ) (t : τ) : Pc → Prop
  | .user => t ∉ s.spec.queue
  | .spin ticket => ∃ i, s.spec.queue[i]? = some t ∧ ticket = (s.spec.gone + i) % 2 ^ 32 ∧
      (s.spec.busy = true → i ≠ 0)
  | .inside => s.spec.queue.head? = some t ∧ s.spec.busy = true
  | .release turn => s.spec.queue.head? = some t ∧ s.spec.busy = true ∧ turn = s.turn

section

omit [DecidableEq τ]

variable {s : Shared τ} {t u : τ} {pc : Pc}

theorem Placed.head (h : Placed s t pc) (hpc : pc.holds = true) :
    s.spec.queue.head? = some t ∧ s.spec.busy = true := by
  cases pc with
  | user | spin => cases hpc
  | inside => exact h
  | release turn => exact ⟨h.1, h.2.1⟩

theorem placed_arrive (hc : Counted s) :
    Placed { s with ticket := succ s.ticket, spec := s.spec.arrive t } t (.spin s.ticket) := by
  have hspec := FifoLock.orderly hc.spec
  have hlength := hspec.gone_add_length
  refine ⟨s.spec.queue.length, by simp [FifoLock.arrive], ?_, fun hbusy => ?_⟩
  · rw [hspec.gone_arrive, hlength]
    exact hc.ticket
  · have hpos := List.length_pos_of_ne_nil (hspec.busy hbusy)
    omega

theorem Placed.arrive (hc : Counted s) (hu : u ≠ t) (h : Placed s u pc) :
    Placed { s with ticket := succ s.ticket, spec := s.spec.arrive t } u pc := by
  have hspec := FifoLock.orderly hc.spec
  have hhead : s.spec.queue.head? = some u → (s.spec.queue ++ [t]).head? = some u :=
    fun hq => by simp [List.head?_append, hq]
  cases pc with
  | user =>
    have hnot : u ∉ s.spec.queue := h
    simp [Placed, FifoLock.arrive, hnot, hu]
  | spin ticket =>
    obtain ⟨i, hi, hticket, hfirst⟩ := h
    refine ⟨i, ?_, ?_, hfirst⟩
    · obtain ⟨hlt, -⟩ := List.getElem?_eq_some_iff.mp hi
      rw [FifoLock.arrive, List.getElem?_append_left hlt, hi]
    · rw [hspec.gone_arrive]
      exact hticket
  | inside => exact ⟨hhead h.1, h.2⟩
  | release turn => exact ⟨hhead h.1, h.2⟩

theorem Placed.enter (hhead : s.spec.queue.head? = some t) (hfree : s.spec.busy = false)
    (hu : u ≠ t) (h : Placed s u pc) : Placed { s with spec := s.spec.enter t } u pc := by
  cases pc with
  | user => exact h
  | spin ticket =>
    obtain ⟨i, hi, hticket, -⟩ := h
    refine ⟨i, hi, hticket, fun _ hzero => ?_⟩
    rw [hzero, ← List.head?_eq_getElem?, hhead] at hi
    exact hu (Option.some.inj hi).symm
  | inside => exact absurd h.2 (by simp [hfree])
  | release turn => exact absurd h.2.1 (by simp [hfree])

theorem Placed.leave (hc : Counted s) (hhead : s.spec.queue.head? = some t)
    (hbusy : s.spec.busy = true) (hu : u ≠ t) (h : Placed s u pc) :
    Placed { s with turn := succ s.turn, spec := s.spec.leave } u pc := by
  have hspec := FifoLock.orderly hc.spec
  obtain ⟨rest, hqueue⟩ := List.head?_eq_some_iff.mp hhead
  have hfirst : s.spec.queue.head? ≠ some u := by
    rw [hhead]
    exact fun heq => hu (Option.some.inj heq).symm
  cases pc with
  | user =>
    have hnot : u ∉ s.spec.queue := h
    exact fun hmem => hnot (List.mem_of_mem_tail hmem)
  | spin ticket =>
    obtain ⟨i, hi, hticket, hpos⟩ := h
    obtain ⟨j, rfl⟩ := Nat.exists_eq_succ_of_ne_zero (hpos hbusy)
    refine ⟨j, ?_, ?_, nofun⟩
    · rw [FifoLock.leave, List.getElem?_tail]
      exact hi
    · rw [hspec.gone_leave hbusy, hticket, Nat.succ_eq_add_one]
      congr 1
      omega
  | inside => exact absurd h.1 hfirst
  | release turn => exact absurd h.1 hfirst

theorem Placed.first [Fintype τ] (hcard : Fintype.card τ < 2 ^ 32) (hc : Counted s)
    {ticket : ℕ} (h : Placed s t (.spin ticket)) (hturn : s.turn = ticket) :
    s.spec.queue.head? = some t ∧ s.spec.busy = false := by
  obtain ⟨i, hi, hticket, hfirst⟩ := h
  have hspec := FifoLock.orderly hc.spec
  have hi' : i < s.spec.queue.length := (List.getElem?_eq_some_iff.mp hi).1
  have hlength := hspec.nodup.length_le_card
  rw [hc.turn] at hturn
  have hzero : i = 0 := by omega
  subst hzero
  refine ⟨by rw [List.head?_eq_getElem?, hi], ?_⟩
  by_contra hbusy
  exact hfirst (by simpa using hbusy) rfl

theorem Counted.arrive (hc : Counted s) (hnew : t ∉ s.spec.queue) :
    Counted { s with ticket := succ s.ticket, spec := s.spec.arrive t } where
  spec := hc.spec.step (l := .arrive t) trivial ⟨hnew, rfl⟩
  turn := by
    rw [(FifoLock.orderly hc.spec).gone_arrive]
    exact hc.turn
  ticket := by
    simp [succ, hc.ticket, FifoLock.arrive]

theorem Counted.enter (hc : Counted s) (hhead : s.spec.queue.head? = some t)
    (hfree : s.spec.busy = false) : Counted { s with spec := s.spec.enter t } where
  spec := hc.spec.step (l := .enter t) trivial ⟨hfree, hhead, rfl⟩
  turn := hc.turn
  ticket := hc.ticket

theorem Counted.leave (hc : Counted s) (hbusy : s.spec.busy = true) :
    Counted { s with turn := succ s.turn, spec := s.spec.leave } where
  spec := hc.spec.step (l := .leave) trivial ⟨hbusy, rfl⟩
  turn := by
    rw [(FifoLock.orderly hc.spec).gone_leave hbusy]
    simp [succ, hc.turn]
  ticket := hc.ticket

theorem placed_leave (hc : Counted s) (hhead : s.spec.queue.head? = some t) :
    Placed { s with turn := succ s.turn, spec := s.spec.leave } t .user := by
  have hnodup := (FifoLock.orderly hc.spec).nodup
  obtain ⟨rest, hqueue⟩ := List.head?_eq_some_iff.mp hhead
  rw [hqueue] at hnodup
  intro hmem
  rw [FifoLock.leave, hqueue] at hmem
  exact (List.nodup_cons.mp hnodup).1 hmem

end

theorem placed_of_reach [Fintype τ] (hcard : Fintype.card τ < 2 ^ 32) {c : Threads τ}
    (h : Reach (lock τ) anyStep c) :
    Counted c.shared ∧ ∀ t, Placed c.shared t (c.loc t) := by
  refine Interleaving.invariant_of_all ?_ ?_ h
  · rintro c ⟨hshared, huser⟩
    rw [hshared]
    refine ⟨⟨.init rfl, rfl, rfl⟩, fun t => ?_⟩
    rw [huser t]
    simp [Placed, tlock_init, FifoLock.start]
  · intro c t e s' pc' hc hplaced _ hact
    have ht := hplaced t
    generalize c.loc t = pc at ht hact
    cases pc with
    | user =>
      cases e with
      | acquire =>
        cases hact
        exact ⟨hc.arrive ht, placed_arrive hc, fun u hu => (hplaced u).arrive hc hu⟩
      | release | run => cases hact
    | spin ticket =>
      cases e with
      | run =>
        simp only [act, Option.some.injEq] at hact
        split at hact
        · cases hact
          exact ⟨hc, ht, fun u _ => hplaced u⟩
        · next hturn =>
          cases hact
          obtain ⟨hhead, hfree⟩ := ht.first hcard hc (not_not.mp hturn)
          exact ⟨hc.enter hhead hfree, ⟨hhead, rfl⟩,
            fun u hu => (hplaced u).enter hhead hfree hu⟩
      | acquire | release => cases hact
    | inside =>
      cases e with
      | release =>
        cases hact
        exact ⟨hc, ⟨ht.1, ht.2, rfl⟩, fun u _ => hplaced u⟩
      | acquire | run => cases hact
    | release turn =>
      cases e with
      | run =>
        cases hact
        obtain ⟨hhead, hbusy, rfl⟩ := ht
        exact ⟨hc.leave hbusy, placed_leave hc hhead,
          fun u hu => (hplaced u).leave hc hhead hbusy hu⟩
      | acquire | release => cases hact

/-- **The ticket lock** with fewer threads than values of its counters, in runs of any
length: one thread at most has the lock, and the threads enter in the order in which
they have drawn their tickets. -/
theorem tickets_in_turn [Fintype τ] (hcard : Fintype.card τ < 2 ^ 32) {c : Threads τ}
    (h : Reach (lock τ) anyStep c) :
    (∀ t u, (c.loc t).holds = true → (c.loc u).holds = true → t = u) ∧
      c.shared.spec.entered <+: c.shared.spec.arrived := by
  obtain ⟨hc, hplaced⟩ := placed_of_reach hcard h
  constructor
  · intro t u ht hu
    have hfirst := ((hplaced t).head ht).1
    rw [((hplaced u).head hu).1] at hfirst
    exact (Option.some.inj hfirst).symm
  · exact (FifoLock.orderly hc.spec).entered_prefix_arrived

/-- Three threads before their first calls. -/
def start : Threads (Fin 3) := ⟨tlock_init (Fin 3), fun _ => .user⟩

theorem start_initial : start.initial := ⟨rfl, fun _ => rfl⟩

/-- Two threads draw tickets while a third one has the lock, and enter in this
order. -/
theorem tickets_in_turn_three :
    ∃ c : Threads (Fin 3), Reach (lock (Fin 3)) anyStep c ∧ c.loc 1 = .inside ∧
      c.shared.spec.arrived = [0, 2, 1] ∧ c.shared.spec.entered <+: [0, 2, 1] := by
  obtain ⟨c, -, hr, hpc, harrived⟩ := Interleaving.exists_of_script act start_initial
    [(0, .acquire), (0, .run), (2, .acquire), (1, .acquire), (1, .run), (0, .release), (0, .run),
      (1, .run), (2, .run), (2, .release), (2, .run), (1, .run)]
    (fun c => c.loc 1 = .inside ∧ c.shared.spec.arrived = [0, 2, 1]) (by decide)
  exact ⟨c, hr, hpc, harrived, harrived ▸ (tickets_in_turn (by decide) hr).2⟩

end KThreads.Ticket
