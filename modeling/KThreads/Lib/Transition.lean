import Mathlib

/-!
# Runs of a labelled transition system

A system is a set of initial states and a labelled step relation. A run may be
restricted by a condition on its steps, so that one notion of reachability
serves both the unconditional invariants and those that hold as long as every
step of the run meets a stated condition. The rules below are the only
inductions over runs: an invariant is established by two goals, and a
simulation carries the invariants of one system to another.
-/

namespace KThreads.Transition

variable {σ τ ℓ α : Type*}

/-- A labelled transition system. -/
structure System (σ ℓ : Type*) where
  /-- The states in which a run may start. -/
  init : σ → Prop
  /-- The states that a labelled step leads to. -/
  step : σ → ℓ → σ → Prop

/-- The states reached by the runs all of whose steps meet the condition `ok`,
which sees the state before the step and its label. -/
inductive Reach (sys : System σ ℓ) (ok : σ → ℓ → Prop) : σ → Prop
  | init {s : σ} : sys.init s → Reach sys ok s
  | step {s s' : σ} {l : ℓ} : Reach sys ok s → ok s l → sys.step s l s' → Reach sys ok s'

/-- The condition that every step meets. -/
def anyStep : σ → ℓ → Prop := fun _ _ => True

instance (s : σ) (l : ℓ) : Decidable (anyStep s l) := .isTrue trivial

theorem Reach.mono {sys : System σ ℓ} {ok ok' : σ → ℓ → Prop} {s : σ}
    (hok : ∀ s l, ok s l → ok' s l) (h : Reach sys ok s) : Reach sys ok' s := by
  induction h with
  | init h0 => exact .init h0
  | step _ hl hstep ih => exact .step ih (hok _ _ hl) hstep

theorem Reach.invariant {sys : System σ ℓ} {ok : σ → ℓ → Prop} {P : σ → Prop}
    (hinit : ∀ s, sys.init s → P s)
    (hstep : ∀ s l s', Reach sys ok s → P s → ok s l → sys.step s l s' → P s')
    {s : σ} (h : Reach sys ok s) : P s := by
  induction h with
  | init h0 => exact hinit _ h0
  | step hr hl hs ih => exact hstep _ _ _ hr ih hl hs

/-- A step that another system takes unseen, or as one of its own steps with a
label that has the property `M`. -/
def Follows (step : τ → α → τ → Prop) (M : α → Prop) (a a' : τ) : Prop :=
  a' = a ∨ ∃ m, M m ∧ step a m a'

theorem Follows.stay {step : τ → α → τ → Prop} {M : α → Prop} {a a' : τ} (h : a' = a) :
    Follows step M a a' :=
  Or.inl h

theorem Follows.move {step : τ → α → τ → Prop} {M : α → Prop} {a a' b : τ} {m : α}
    (hst : step a m b) (hm : M m) (hb : a' = b) : Follows step M a a' :=
  Or.inr ⟨m, hm, hb ▸ hst⟩

theorem Reach.simulate {sys : System σ ℓ} {ok : σ → ℓ → Prop}
    {abst : System τ α} {ok' : τ → α → Prop} {f : σ → τ}
    (hinit : ∀ s, sys.init s → abst.init (f s))
    (hstep : ∀ s l s', Reach sys ok s → Reach abst ok' (f s) → ok s l → sys.step s l s' →
      Follows abst.step (ok' (f s)) (f s) (f s'))
    {s : σ} (h : Reach sys ok s) : Reach abst ok' (f s) := by
  induction h with
  | init h0 => exact .init (hinit _ h0)
  | step hr hl hs ih =>
    rcases hstep _ _ _ hr ih hl hs with heq | ⟨a, ha, hst⟩
    · rwa [heq]
    · exact .step ih ha hst

section

variable (next : σ → ℓ → Option σ)

/-- Execute a list of labels, failing when one of them is not enabled. -/
def exec : σ → List ℓ → Option σ
  | s, [] => some s
  | s, l :: ls => (next s l).bind fun s' => exec s' ls

/-- Execute a list of labels, failing also when a step does not meet `ok`. -/
def execWhile (ok : σ → ℓ → Prop) [∀ s l, Decidable (ok s l)] : σ → List ℓ → Option σ
  | s, [] => some s
  | s, l :: ls => if ok s l then (next s l).bind fun s' => execWhile ok s' ls else none

variable {next} {sys : System σ ℓ} {s s' : σ} {ok : σ → ℓ → Prop} [∀ s l, Decidable (ok s l)]
  (hnext : ∀ s l s', next s l = some s' → sys.step s l s')

include hnext

theorem Reach.exec {ls : List ℓ} (h : Reach sys anyStep s) (hrun : exec next s ls = some s') : Reach sys anyStep s' := by
  induction ls generalizing s with
  | nil => exact Option.some.inj hrun ▸ h
  | cons l ls ih =>
    obtain ⟨s₁, h₁, hrest⟩ := Option.bind_eq_some_iff.mp hrun
    exact ih (h.step trivial (hnext _ _ _ h₁)) hrest

theorem Reach.execWhile {ls : List ℓ} (h : Reach sys ok s) (hrun : execWhile next ok s ls = some s') : Reach sys ok s' := by
  induction ls generalizing s with
  | nil => exact Option.some.inj hrun ▸ h
  | cons l ls ih =>
    simp only [Transition.execWhile] at hrun
    split at hrun
    · next hl =>
      obtain ⟨s₁, h₁, hrest⟩ := Option.bind_eq_some_iff.mp hrun
      exact ih (h.step hl (hnext _ _ _ h₁)) hrest
    · cases hrun

theorem Reach.exists_of_exec (h0 : sys.init s) (ls : List ℓ) (P : σ → Prop) [DecidablePred P]
    (h : (Transition.exec next s ls).any (fun s => P s) = true) :
    ∃ s', Transition.exec next s ls = some s' ∧ Reach sys anyStep s' ∧ P s' := by
  obtain ⟨s', hs', hP⟩ := (Option.any_eq_true _ _).mp h
  exact ⟨s', hs', .exec hnext (.init h0) hs', of_decide_eq_true hP⟩

theorem Reach.exists_of_execWhile (h0 : sys.init s) (ok : σ → ℓ → Prop)
    [∀ s l, Decidable (ok s l)] (ls : List ℓ) (P : σ → Prop) [DecidablePred P]
    (h : (Transition.execWhile next ok s ls).any (fun s => P s) = true) :
    ∃ s', Transition.execWhile next ok s ls = some s' ∧ Reach sys ok s' ∧ P s' := by
  obtain ⟨s', hs', hP⟩ := (Option.any_eq_true _ _).mp h
  exact ⟨s', hs', .execWhile hnext (.init h0) hs', of_decide_eq_true hP⟩

end

section

variable {η : Type*}

/-- A system that keeps a history of its run: the history is updated from the state
before each step and the label of the step, and no step depends on it. -/
def System.recording (sys : System σ ℓ) (h₀ : η) (record : η → σ → ℓ → η) : System (σ × η) ℓ where
  init x := sys.init x.1 ∧ x.2 = h₀
  step x l x' := sys.step x.1 l x'.1 ∧ x'.2 = record x.2 x.1 l

variable {sys : System σ ℓ} {ok : σ → ℓ → Prop} {h₀ : η} {record : η → σ → ℓ → η}

theorem Reach.of_recording {x : σ × η}
    (h : Reach (sys.recording h₀ record) (fun x l => ok x.1 l) x) : Reach sys ok x.1 := by
  induction h with
  | init h0 => exact .init h0.1
  | step _ hl hstep ih => exact .step ih hl hstep.1

/-- The executable step of a recorded system. -/
def recordNext (next : σ → ℓ → Option σ) (record : η → σ → ℓ → η) (x : σ × η) (l : ℓ) :
    Option (σ × η) :=
  (next x.1 l).map fun s' => (s', record x.2 x.1 l)

theorem recordNext_step {next : σ → ℓ → Option σ}
    (hnext : ∀ s l s', next s l = some s' → sys.step s l s') (x : σ × η) (l : ℓ) (x' : σ × η)
    (h : recordNext next record x l = some x') : (sys.recording h₀ record).step x l x' := by
  obtain ⟨s', hs', rfl⟩ := Option.map_eq_some_iff.mp h
  exact ⟨hnext _ _ _ hs', rfl⟩

end

end KThreads.Transition
