import KThreads.Lib.Transition

/-!
# First-come, first-served locks

Those who want a lock arrive, and enter one after the other in the order of their
arrival: the first of the queue may enter, and the next one only when it has left.
The lock keeps a history of who has arrived and who has entered.
-/

namespace KThreads

open Transition (System Reach)

/-- A lock with its history. -/
structure FifoLock (τ : Type*) where
  /-- Those who have arrived and have not left, in the order of their arrival. -/
  queue : List τ
  /-- The first of the queue has entered. -/
  busy : Bool
  arrived : List τ
  entered : List τ

namespace FifoLock

variable {τ : Type*} {s : FifoLock τ} {t : τ}

/-- What can happen to a lock. -/
inductive Event (τ : Type*)
  | arrive (t : τ)
  | enter (t : τ)
  | leave

/-- The lock before anybody has arrived. -/
def start (τ : Type*) : FifoLock τ := ⟨[], false, [], []⟩

def arrive (s : FifoLock τ) (t : τ) : FifoLock τ :=
  { s with queue := s.queue ++ [t], arrived := s.arrived ++ [t] }

def enter (s : FifoLock τ) (t : τ) : FifoLock τ :=
  { s with busy := true, entered := s.entered ++ [t] }

def leave (s : FifoLock τ) : FifoLock τ := { s with queue := s.queue.tail, busy := false }

/-- The step of a lock. -/
def Step (s : FifoLock τ) : Event τ → FifoLock τ → Prop
  | .arrive t, s' => t ∉ s.queue ∧ s' = s.arrive t
  | .enter t, s' => s.busy = false ∧ s.queue.head? = some t ∧ s' = s.enter t
  | .leave, s' => s.busy = true ∧ s' = s.leave

/-- The lock as a transition system. -/
def system (τ : Type*) : System (FifoLock τ) (Event τ) where
  init s := s = start τ
  step := Step

/-- How many have left. -/
def gone (s : FifoLock τ) : ℕ := s.arrived.length - s.queue.length

/-- Nobody is in the queue twice; those who have arrived have left or are in the
queue; and those who have left have entered, in this order, and so has the first of
the queue if the lock is busy. -/
structure Orderly (s : FifoLock τ) : Prop where
  nodup : s.queue.Nodup
  busy : s.busy = true → s.queue ≠ []
  order : ∃ left, s.arrived = left ++ s.queue ∧
    s.entered = left ++ if s.busy = true then s.queue.take 1 else []

theorem orderly {ok : FifoLock τ → Event τ → Prop} (h : Reach (system τ) ok s) : s.Orderly := by
  refine h.invariant (P := Orderly) ?_ ?_
  · rintro s rfl
    exact ⟨.nil, nofun, [], rfl, rfl⟩
  · rintro s e s' - ⟨hnodup, hbusy, left, harrived, hentered⟩ - hstep
    cases e with
    | arrive t =>
      obtain ⟨hnew, rfl⟩ := hstep
      refine ⟨?_, by simp [arrive], left, by simp [arrive, harrived], ?_⟩
      · simp only [arrive, List.nodup_append, List.nodup_singleton, List.mem_singleton, forall_eq]
        exact ⟨hnodup, trivial, fun u hu hut => hnew (hut ▸ hu)⟩
      · simp only [arrive, hentered]
        split
        · next hb =>
          obtain ⟨u, rest, hqueue⟩ := List.exists_cons_of_ne_nil (hbusy hb)
          simp [hqueue]
        · rfl
    | enter t =>
      obtain ⟨hfree, hhead, rfl⟩ := hstep
      obtain ⟨rest, hqueue⟩ := List.head?_eq_some_iff.mp hhead
      refine ⟨hnodup, fun _ => by simp [enter, hqueue], left, harrived, ?_⟩
      simp [enter, hentered, hfree, hqueue]
    | leave =>
      obtain ⟨hb, rfl⟩ := hstep
      obtain ⟨u, rest, hqueue⟩ := List.exists_cons_of_ne_nil (hbusy hb)
      rw [hqueue] at hnodup harrived hentered
      refine ⟨?_, nofun, left ++ [u], ?_, ?_⟩
      · rw [leave, hqueue]
        exact hnodup.of_cons
      · simp [leave, hqueue, harrived]
      · simp [leave, hentered, hb]

theorem Orderly.entered_prefix_arrived (h : s.Orderly) : s.entered <+: s.arrived := by
  obtain ⟨left, harrived, hentered⟩ := h.order
  rw [harrived, hentered, List.prefix_append_right_inj]
  split
  · exact List.take_prefix 1 s.queue
  · exact List.nil_prefix

theorem Orderly.gone_add_length (h : s.Orderly) : s.gone + s.queue.length = s.arrived.length := by
  obtain ⟨left, harrived, -⟩ := h.order
  simp [gone, harrived]

theorem Orderly.gone_arrive (h : s.Orderly) : (s.arrive t).gone = s.gone := by
  have hlength := h.gone_add_length
  simp only [gone, arrive, List.length_append, List.length_singleton]
  omega

theorem Orderly.gone_leave (h : s.Orderly) (hbusy : s.busy = true) : s.leave.gone = s.gone + 1 := by
  have hlength := h.gone_add_length
  have hpos := List.length_pos_of_ne_nil (h.busy hbusy)
  simp only [gone, leave, List.length_tail]
  omega

end FifoLock

end KThreads
