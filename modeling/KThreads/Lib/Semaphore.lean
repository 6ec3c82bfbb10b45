import KThreads.Lib.Transition

/-!
# Counting semaphores

A semaphore has permits, or threads that wait for one in the order in which they
have arrived. A post adds a permit, or hands it to the first that waits. The
semaphore keeps a history: who has a permit and has not returned with it, how many
have returned, how many permits have been posted, and who has arrived and has
been served.
-/

namespace KThreads

open Transition (System Reach)

/-- A semaphore with its history. -/
structure Semaphore (τ : Type*) where
  permits : ℕ
  waiting : List τ
  /-- Those that have a permit and have not returned. -/
  granted : List τ
  returned : ℕ
  posted : ℕ
  arrived : List τ
  served : List τ

namespace Semaphore

variable {τ : Type*}

/-- What can happen to a semaphore. -/
inductive Event (τ : Type*)
  | take (t : τ)
  | wait (t : τ)
  | post
  | hand
  | ret (t : τ)

/-- The semaphore before the first call. -/
def start (τ : Type*) (n : ℕ) : Semaphore τ := ⟨n, [], [], 0, 0, [], []⟩

/-- A thread takes a permit. -/
def take (s : Semaphore τ) (t : τ) : Semaphore τ :=
  { s with permits := s.permits - 1, granted := t :: s.granted }

/-- A thread starts to wait. -/
def wait (s : Semaphore τ) (t : τ) : Semaphore τ :=
  { s with waiting := s.waiting ++ [t], arrived := s.arrived ++ [t] }

/-- A permit is added. -/
def post (s : Semaphore τ) : Semaphore τ :=
  { s with permits := s.permits + 1, posted := s.posted + 1 }

/-- A permit is handed to the first that waits. -/
def hand (s : Semaphore τ) : Semaphore τ :=
  match s.waiting with
  | [] => s
  | p :: rest =>
      { s with
        waiting := rest, granted := p :: s.granted, posted := s.posted + 1,
        served := s.served ++ [p] }

variable [DecidableEq τ]

/-- A thread returns with its permit. -/
def ret (s : Semaphore τ) (t : τ) : Semaphore τ :=
  { s with granted := s.granted.erase t, returned := s.returned + 1 }

/-- The step of a semaphore. A thread that waits or has a permit does not call. -/
def Step (s : Semaphore τ) : Event τ → Semaphore τ → Prop
  | .take t, s' => 0 < s.permits ∧ t ∉ s.waiting ∧ t ∉ s.granted ∧ s' = s.take t
  | .wait t, s' => s.permits = 0 ∧ t ∉ s.waiting ∧ t ∉ s.granted ∧ s' = s.wait t
  | .post, s' => s.waiting = [] ∧ s' = s.post
  | .hand, s' => s.waiting ≠ [] ∧ s' = s.hand
  | .ret t, s' => t ∈ s.granted ∧ s' = s.ret t

/-- A semaphore of `n` permits as a transition system. -/
def system (τ : Type*) [DecidableEq τ] (n : ℕ) : System (Semaphore τ) (Event τ) where
  init s := s = start τ n
  step := Step

omit [DecidableEq τ] in
/-- Nobody waits while there are permits, nobody waits twice or waits with a permit,
the permits are accounted for, and those who wait are served in the order of their
arrival. -/
structure Fair (n : ℕ) (s : Semaphore τ) : Prop where
  exclusive : s.permits = 0 ∨ s.waiting = []
  nodup : (s.waiting ++ s.granted).Nodup
  balance : s.returned + s.granted.length + s.permits = n + s.posted
  order : s.arrived = s.served ++ s.waiting

theorem fair {n : ℕ} {ok : Semaphore τ → Event τ → Prop} {s : Semaphore τ}
    (h : Reach (system τ n) ok s) : s.Fair n := by
  refine h.invariant (P := Fair n) ?_ ?_
  · rintro s rfl
    exact ⟨.inr rfl, .nil, by simp [start], rfl⟩
  · rintro s e s' - ⟨hexcl, hnodup, hbalance, horder⟩ - hstep
    cases e with
    | take t =>
      obtain ⟨hpos, hw, hg, rfl⟩ := hstep
      refine ⟨.inr (hexcl.resolve_left (by omega)), ?_, ?_, horder⟩
      · refine List.nodup_middle.mpr (List.nodup_cons.mpr ⟨?_, hnodup⟩)
        simp [take, hw, hg]
      · simp only [take, List.length_cons]
        omega
    | wait t =>
      obtain ⟨hzero, hw, hg, rfl⟩ := hstep
      refine ⟨.inl hzero, ?_, hbalance, by simp [wait, horder]⟩
      simp only [wait, List.append_assoc, List.singleton_append]
      refine List.nodup_middle.mpr (List.nodup_cons.mpr ⟨?_, hnodup⟩)
      simp [hw, hg]
    | post =>
      obtain ⟨hempty, rfl⟩ := hstep
      refine ⟨.inr hempty, hnodup, ?_, horder⟩
      simp only [post]
      omega
    | hand =>
      obtain ⟨hne, rfl⟩ := hstep
      cases hwait : s.waiting with
      | nil => exact absurd hwait hne
      | cons p rest =>
        have hzero := hexcl.resolve_right hne
        rw [hwait] at hnodup horder
        simp only [hand, hwait]
        refine ⟨.inl hzero, ?_, ?_, by simp [horder]⟩
        · exact List.nodup_middle.mpr hnodup
        · simp only [List.length_cons]
          omega
    | ret t =>
      obtain ⟨hmem, rfl⟩ := hstep
      refine ⟨hexcl, ?_, ?_, horder⟩
      · exact hnodup.sublist (List.erase_sublist.append_left _)
      · have hlength := List.length_erase_of_mem hmem
        have hpos := List.length_pos_of_mem hmem
        simp only [ret]
        omega

omit [DecidableEq τ] in
theorem Fair.disjoint {n : ℕ} {s : Semaphore τ} (h : s.Fair n) {t : τ} (hw : t ∈ s.waiting) :
    t ∉ s.granted :=
  fun hg => (List.nodup_append.mp h.nodup).2.2 t hw t hg rfl

omit [DecidableEq τ] in
theorem Fair.returned_le {n : ℕ} {s : Semaphore τ} (h : s.Fair n) : s.returned ≤ n + s.posted := by
  have hbalance := h.balance
  omega

end Semaphore

end KThreads
