import KThreads.Lib.Transition

/-!
# Interleaved threads

Threads that share a state and have a local state each take steps in any order;
a step reads and writes the shared state and the local state of its own thread.
An invariant is established thread by thread: each thread has an assertion over
the shared state and its local state that its own steps re-establish, and that
the steps of the others do not invalidate.
-/

namespace KThreads.Interleaving

open Function (update)
open Transition (System Reach anyStep)

variable {τ σ κ ε : Type*}

/-- A shared state and the local states of the threads. -/
structure Config (τ σ κ : Type*) where
  shared : σ
  loc : τ → κ

variable [DecidableEq τ]

/-- The step of a thread with an event, given what it does to the shared state
and to its local state. -/
def next (act : σ → τ → κ → ε → Option (σ × κ)) (c : Config τ σ κ) (l : τ × ε) :
    Option (Config τ σ κ) :=
  (act c.shared l.1 (c.loc l.1) l.2).map fun x => ⟨x.1, update c.loc l.1 x.2⟩

/-- The threads as a transition system. -/
def system (init : Config τ σ κ → Prop) (act : σ → τ → κ → ε → Option (σ × κ)) :
    System (Config τ σ κ) (τ × ε) where
  init := init
  step c l c' := next act c l = some c'

variable {init : Config τ σ κ → Prop} {act : σ → τ → κ → ε → Option (σ × κ)}
  {ok : Config τ σ κ → τ × ε → Prop} {I : σ → Prop} {A : σ → τ → κ → Prop} {c : Config τ σ κ}

theorem invariant_of_all
    (hinit : ∀ c, init c → I c.shared ∧ ∀ t, A c.shared t (c.loc t))
    (hstep : ∀ c t e s' κ', I c.shared → (∀ u, A c.shared u (c.loc u)) → ok c (t, e) →
      act c.shared t (c.loc t) e = some (s', κ') →
      I s' ∧ A s' t κ' ∧ ∀ u, u ≠ t → A s' u (c.loc u))
    (h : Reach (system init act) ok c) :
    I c.shared ∧ ∀ t, A c.shared t (c.loc t) := by
  refine h.invariant (P := fun c => I c.shared ∧ ∀ t, A c.shared t (c.loc t)) hinit ?_
  rintro c ⟨t, e⟩ c' - ⟨hI, hA⟩ hok hnext
  obtain ⟨⟨s', κ'⟩, hact, rfl⟩ := Option.map_eq_some_iff.mp hnext
  obtain ⟨hI', hown, hother⟩ := hstep c t e s' κ' hI hA hok hact
  refine ⟨hI', fun u => ?_⟩
  by_cases hu : u = t
  · subst hu
    simpa using hown
  · simpa [hu] using hother u hu

/-- **Interference rule.** A property `I` of the shared state and an assertion `A`
of each thread hold throughout a run if they hold initially, every step
re-establishes `I` and the assertion of its own thread, and no step invalidates
the assertion of another thread. -/
theorem invariant
    (hinit : ∀ c, init c → I c.shared ∧ ∀ t, A c.shared t (c.loc t))
    (hown : ∀ c t e s' κ', I c.shared → A c.shared t (c.loc t) → ok c (t, e) →
      act c.shared t (c.loc t) e = some (s', κ') → I s' ∧ A s' t κ')
    (hother : ∀ c t u e s' κ', u ≠ t → I c.shared → A c.shared t (c.loc t) →
      A c.shared u (c.loc u) → ok c (t, e) → act c.shared t (c.loc t) e = some (s', κ') →
      A s' u (c.loc u))
    (h : Reach (system init act) ok c) :
    I c.shared ∧ ∀ t, A c.shared t (c.loc t) := by
  refine invariant_of_all hinit (fun c t e s' κ' hI hA hok hact => ?_) h
  obtain ⟨hI', hA'⟩ := hown c t e s' κ' hI (hA t) hok hact
  exact ⟨hI', hA', fun u hu => hother c t u e s' κ' hu hI (hA t) (hA u) hok hact⟩

section

variable (act)

theorem exists_of_script (h0 : init c) (ls : List (τ × ε)) (P : Config τ σ κ → Prop)
    [DecidablePred P] (h : (Transition.exec (next act) c ls).any (fun c => P c) = true) :
    ∃ c', Transition.exec (next act) c ls = some c' ∧ Reach (system init act) anyStep c' ∧ P c' :=
  Reach.exists_of_exec (fun _ _ _ h => h) h0 ls P h

theorem exists_of_scriptWhile (h0 : init c) (ok : Config τ σ κ → τ × ε → Prop)
    [∀ c l, Decidable (ok c l)] (ls : List (τ × ε)) (P : Config τ σ κ → Prop) [DecidablePred P]
    (h : (Transition.execWhile (next act) ok c ls).any (fun c => P c) = true) :
    ∃ c', Transition.execWhile (next act) ok c ls = some c' ∧ Reach (system init act) ok c' ∧
      P c' :=
  Reach.exists_of_execWhile (fun _ _ _ h => h) h0 ok ls P h

end

end KThreads.Interleaving
