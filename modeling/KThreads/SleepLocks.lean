import Mathlib
import KThreads.Lib.Interleaving

/-!
# Sleep locks

`acquiresleep` and `releasesleep` on one lock, with `sleep` and `wakeup` cut into
their sections under the inner spinlock and under `ptable.lock`. A thread that finds
the lock taken gives the inner spinlock back only when it has `ptable.lock`, without
which nobody can wake it; so a wakeup comes before it has looked, or finds it asleep.
Threads may be woken by `kill` and `unpark` at any time as well.
-/

namespace KThreads.SleepLock

open Function (update update_of_ne update_self)
open Transition (Reach anyStep)

/-- What the slot of a thread says about the channel of the lock. -/
structure Rest where
  /-- `state == SLEEPING` -/
  sleeping : Bool
  /-- `chan == lk` -/
  onLock : Bool
  deriving DecidableEq

namespace Rest

/-- `wakeup1(lk)` -/
def wakeup (r : Rest) : Rest := { r with sleeping := r.sleeping && !r.onLock }

/-- `kill` -/
def kill (r : Rest) : Rest := { r with sleeping := false }

/-- `unpark` with the address of the lock as its channel -/
def unpark (r : Rest) : Rest := if r.sleeping && r.onLock then ⟨false, false⟩ else r

end Rest

/-- `struct sleeplock`, with `ptable.lock` and what the process table says about the
lock. -/
structure Shared (τ : Type*) where
  /-- `lk->lk` -/
  inner : Option τ
  /-- `ptable.lock` -/
  ptable : Option τ
  locked : Bool
  pid : Option τ
  rest : τ → Rest
  /-- History: the lock has been given back, and `wakeup` has not been called yet. -/
  due : Bool

/-- Where a thread is. -/
inductive Pc
  | user
  /-- `acquire(&lk->lk)` in `acquiresleep`, or at the end of `sleep` -/
  | spin
  /-- `while (lk->locked)` -/
  | test
  /-- `acquire(&ptable.lock)` in `sleep` -/
  | sleep
  /-- `release(lk)` in `sleep` -/
  | unlock
  /-- The assignments of `sleep`, and `sched` -/
  | settle
  /-- In `sched` -/
  | asleep
  /-- Behind `sched`, with `ptable.lock` -/
  | tidy
  | take
  /-- `release(&lk->lk)` at the end of `acquiresleep` -/
  | leave
  /-- Between `acquiresleep` and `releasesleep` -/
  | held
  /-- `acquire(&lk->lk)` in `releasesleep` -/
  | respin
  | clear
  /-- `wakeup(lk)` -/
  | wake
  /-- `release(&lk->lk)` at the end of `releasesleep` -/
  | done
  deriving DecidableEq

namespace Pc

/-- A thread has the inner spinlock. -/
def hasInner : Pc → Bool
  | .test | .sleep | .unlock | .take | .leave | .clear | .wake | .done => true
  | _ => false

/-- A thread has `ptable.lock` between two steps. -/
def hasPtable : Pc → Bool
  | .unlock | .settle | .tidy => true
  | _ => false

/-- A thread has the lock. -/
def owns : Pc → Bool
  | .leave | .held | .respin | .clear => true
  | _ => false

/-- A thread has found the lock taken and is about to sleep. -/
def retires : Pc → Bool
  | .sleep | .unlock | .settle => true
  | _ => false

end Pc

/-- What a thread does next. `kill` and `unpark` may come at any time. -/
inductive Event (τ : Type*)
  | acquiresleep
  | releasesleep
  | run
  | kill (u : τ)
  | unpark (u : τ)

variable {τ : Type*} [DecidableEq τ]

namespace Shared

variable (s : Shared τ)

/-- Give a slot another rest. -/
def rouse (u : τ) (f : Rest → Rest) : Shared τ :=
  { s with rest := update s.rest u (f (s.rest u)) }

/-- The next step of the thread `t` in its call. -/
def run (t : τ) : Pc → Option (Shared τ × Pc)
  | .user | .held => none
  | .spin => some (if s.inner = none then ({ s with inner := some t }, .test) else (s, .spin))
  | .test => some (s, if s.locked then .sleep else .take)
  | .sleep => some (if s.ptable = none then ({ s with ptable := some t }, .unlock) else (s, .sleep))
  | .unlock => some ({ s with inner := none }, .settle)
  -- The scheduler releases `ptable.lock` behind `sched`.
  | .settle => some ({ s.rouse t fun _ => ⟨true, true⟩ with ptable := none }, .asleep)
  -- The scheduler switches to a runnable thread with `ptable.lock` held.
  | .asleep =>
      if (s.rest t).sleeping = false ∧ s.ptable = none then some ({ s with ptable := some t }, .tidy)
      else none
  | .tidy => some ({ s.rouse t fun r => { r with onLock := false } with ptable := none }, .spin)
  | .take => some ({ s with locked := true, pid := some t }, .leave)
  | .leave => some ({ s with inner := none }, .held)
  | .respin => some (if s.inner = none then ({ s with inner := some t }, .clear) else (s, .respin))
  | .clear => some ({ s with locked := false, pid := none, due := true }, .wake)
  | .wake =>
      some (if s.ptable = none then
          ({ s with rest := fun u => (s.rest u).wakeup, due := false }, .done)
        else (s, .wake))
  | .done => some ({ s with inner := none }, .user)

end Shared

/-- The step of the thread `t`. -/
def act (s : Shared τ) (t : τ) (pc : Pc) : Event τ → Option (Shared τ × Pc)
  | .acquiresleep => if pc = .user then some (s, .spin) else none
  | .releasesleep => if pc = .held then some (s, .respin) else none
  | .run => s.run t pc
  | .kill u => if s.ptable = none then some (s.rouse u .kill, pc) else none
  | .unpark u => if s.ptable = none then some (s.rouse u .unpark, pc) else none

/-- The threads that use a lock. -/
abbrev Threads (τ : Type*) := Interleaving.Config τ (Shared τ) Pc

omit [DecidableEq τ] in
/-- `initsleeplock`, before the first call. -/
structure Threads.initial (c : Threads τ) : Prop where
  inner : c.shared.inner = none
  ptable : c.shared.ptable = none
  locked : c.shared.locked = false
  pid : c.shared.pid = none
  awake : ∀ t, (c.shared.rest t).sleeping = false
  due : c.shared.due = false
  user : ∀ t, c.loc t = .user

/-- The threads as a transition system. -/
abbrev lock (τ : Type*) [DecidableEq τ] : Transition.System (Threads τ) (τ × Event τ) :=
  Interleaving.system Threads.initial act

omit [DecidableEq τ] in
/-- The lock is taken, or its release has still to be announced. -/
def Shared.Shut (s : Shared τ) : Prop := s.locked = true ∨ s.due = true

omit [DecidableEq τ] in
/-- The assertion of a thread. -/
structure Local (s : Shared τ) (t : τ) (pc : Pc) : Prop where
  inner : pc.hasInner = true ↔ s.inner = some t
  ptable : pc.hasPtable = true ↔ s.ptable = some t
  owner : pc.owns = true ↔ s.pid = some t
  free : pc = .take → s.locked = false
  waker : s.due = true → s.inner = some t → pc = .wake
  sleeping : (s.rest t).sleeping = true → pc = .asleep ∧ (s.rest t).onLock = true ∧ s.Shut
  retires : pc.retires = true → s.Shut

omit [DecidableEq τ] in
/-- What holds of the shared state. -/
structure Global (s : Shared τ) : Prop where
  locked : s.locked = true ↔ s.pid ≠ none
  due : s.due = true → s.inner ≠ none
  released : s.due = true → s.locked = false

omit [DecidableEq τ] in
/-- What a step of the thread `t` may do to the others: it may wake them, and it ends
the announcement of a release only when none of them sleeps or is about to. -/
structure Spares (s s' : Shared τ) (t : τ) : Prop where
  inner : ∀ u, u ≠ t → (s'.inner = some u ↔ s.inner = some u)
  ptable : ∀ u, u ≠ t → (s'.ptable = some u ↔ s.ptable = some u)
  pid : ∀ u, u ≠ t → (s'.pid = some u ↔ s.pid = some u)
  rest : ∀ u, u ≠ t → (s'.rest u).sleeping = true →
    (s.rest u).sleeping = true ∧ (s'.rest u).onLock = (s.rest u).onLock
  locked : s'.locked = s.locked ∨ s.inner = some t
  due : s'.due = true → s.due = true ∨ s'.inner = some t
  shut : s.Shut → s'.Shut ∨ s.inner = some t ∧ s.ptable = none ∧
    ∀ u, (s'.rest u).sleeping = true → (s.rest u).onLock = false

section

variable {s s' : Shared τ} {t u : τ} {pc pc' : Pc}

omit [DecidableEq τ] in
theorem Local.spared (h : Local s u pc) (hu : u ≠ t) (hs : Spares s s' t) : Local s' u pc := by
  have hshut : (s.inner = some t → s.ptable = none →
      (∀ u, (s'.rest u).sleeping = true → (s.rest u).onLock = false) → False) →
      s.Shut → s'.Shut := fun hno h =>
    (hs.shut h).resolve_right fun ⟨hinner, hptable, hrest⟩ => hno hinner hptable hrest
  constructor
  · rw [hs.inner u hu]
    exact h.inner
  · rw [hs.ptable u hu]
    exact h.ptable
  · rw [hs.pid u hu]
    exact h.owner
  · intro hpc
    rcases hs.locked with hsame | hinner
    · rw [hsame]
      exact h.free hpc
    · -- The thread at `take` has the inner spinlock itself.
      have hown : s.inner = some u := h.inner.mp (by rw [hpc]; rfl)
      exact absurd (Option.some.inj (hown.symm.trans hinner)) hu
  · intro hdue hinner
    rcases hs.due hdue with hdue | hnew
    · exact h.waker hdue ((hs.inner u hu).mp hinner)
    · exact absurd (Option.some.inj (hinner.symm.trans hnew)) hu
  · intro hsleep
    obtain ⟨hsleep₀, hsame⟩ := hs.rest u hu hsleep
    obtain ⟨hpc, hon, hreason⟩ := h.sleeping hsleep₀
    refine ⟨hpc, hsame.trans hon, hshut (fun _ _ hrest => ?_) hreason⟩
    simp [hrest u hsleep] at hon
  · intro hretires
    refine hshut (fun hinner hptable _ => ?_) (h.retires hretires)
    -- A thread that is about to sleep has one of the two locks.
    have hone : pc.hasInner = true ∨ pc.hasPtable = true := by
      cases pc <;> simp_all [Pc.retires, Pc.hasInner, Pc.hasPtable]
    rcases hone with hin | hpt
    · exact hu (Option.some.inj ((h.inner.mp hin).symm.trans hinner))
    · simp [h.ptable.mp hpt] at hptable

omit [DecidableEq τ] in
theorem spares_of_same (hlocked : s'.locked = s.locked) (hpid : s'.pid = s.pid)
    (hdue : s'.due = s.due) (hrest : s'.rest = s.rest)
    (hinner : ∀ u, u ≠ t → (s'.inner = some u ↔ s.inner = some u))
    (hptable : ∀ u, u ≠ t → (s'.ptable = some u ↔ s.ptable = some u)) : Spares s s' t where
  inner := hinner
  ptable := hptable
  pid u _ := by rw [hpid]
  rest u _ h := by
    rw [hrest] at h ⊢
    exact ⟨h, rfl⟩
  locked := Or.inl hlocked
  due h := Or.inl (hdue ▸ h)
  shut h := Or.inl (by rwa [Shared.Shut, hlocked, hdue])

theorem spares_rouse {f : Rest → Rest}
    (hf : ∀ r, (f r).sleeping = true → f r = r) : Spares s (s.rouse u f) t := by
  have hrest : ∀ v, ((s.rouse u f).rest v).sleeping = true →
      (s.rouse u f).rest v = s.rest v := by
    intro v hv
    by_cases hvu : v = u
    · subst hvu
      simp only [Shared.rouse, update_self] at hv ⊢
      exact hf _ hv
    · exact update_of_ne hvu _ _
  refine ⟨fun _ _ => .rfl, fun _ _ => .rfl, fun _ _ => .rfl, fun v _ hv => ?_, .inl rfl, .inl,
    .inl⟩
  have hsame := hrest v hv
  rw [hsame] at hv ⊢
  exact ⟨hv, rfl⟩

theorem Rest.kill_of_sleeping (r : Rest) (h : r.kill.sleeping = true) : r.kill = r := by
  cases h

theorem Rest.unpark_of_sleeping (r : Rest) (h : r.unpark.sleeping = true) : r.unpark = r := by
  unfold Rest.unpark at h ⊢
  split at h
  · cases h
  · next hnot => rw [if_neg hnot]

theorem run_spares (hG : Global s) (hL : Local s t pc) (h : s.run t pc = some (s', pc')) :
    Spares s s' t := by
  have hsome : ∀ {x : Option τ} {u : τ}, x = some t → u ≠ t → (none = some u ↔ x = some u) := by
    rintro _ u rfl hu
    simpa using hu.symm
  have hnone : ∀ {x : Option τ} {u : τ}, x = none → u ≠ t → (some t = some u ↔ x = some u) := by
    rintro _ u rfl hu
    simpa using hu.symm
  cases pc with
  | user | held => cases h
  | test =>
    cases h
    exact spares_of_same rfl rfl rfl rfl (fun _ _ => .rfl) fun _ _ => .rfl
  | spin | respin =>
    simp only [Shared.run, Option.some.injEq] at h
    split at h
    · next hinner =>
      cases h
      exact spares_of_same rfl rfl rfl rfl (fun u hu => hnone hinner hu) fun _ _ => .rfl
    · cases h
      exact spares_of_same rfl rfl rfl rfl (fun _ _ => .rfl) fun _ _ => .rfl
  | unlock | leave | done =>
    cases h
    exact spares_of_same rfl rfl rfl rfl (fun u hu => hsome (hL.inner.mp rfl) hu) fun _ _ => .rfl
  | sleep =>
    simp only [Shared.run, Option.some.injEq] at h
    split at h
    · next hptable =>
      cases h
      exact spares_of_same rfl rfl rfl rfl (fun _ _ => .rfl) fun u hu => hnone hptable hu
    · cases h
      exact spares_of_same rfl rfl rfl rfl (fun _ _ => .rfl) fun _ _ => .rfl
  | asleep =>
    simp only [Shared.run] at h
    split at h
    · next hready =>
      cases h
      exact spares_of_same rfl rfl rfl rfl (fun _ _ => .rfl) fun u hu => hnone hready.2 hu
    · cases h
  | settle | tidy =>
    cases h
    refine ⟨fun _ _ => .rfl, fun u hu => hsome (hL.ptable.mp rfl) hu, fun _ _ => .rfl,
      fun u hu hsleep => ?_, .inl rfl, .inl, .inl⟩
    simp only [Shared.rouse, update_of_ne hu] at hsleep ⊢
    exact ⟨hsleep, trivial⟩
  | take =>
    cases h
    have hpid : s.pid = none := by
      by_contra hpid
      exact absurd (hG.locked.mpr hpid) (by simp [hL.free rfl])
    exact ⟨fun _ _ => .rfl, fun _ _ => .rfl, fun u hu => hnone hpid hu, fun _ _ h => ⟨h, rfl⟩,
      .inr (hL.inner.mp rfl), .inl, fun _ => .inl (.inl rfl)⟩
  | clear =>
    cases h
    exact ⟨fun _ _ => .rfl, fun _ _ => .rfl, fun u hu => hsome (hL.owner.mp rfl) hu,
      fun _ _ h => ⟨h, rfl⟩, .inr (hL.inner.mp rfl), fun _ => .inr (hL.inner.mp rfl),
      fun _ => .inl (.inr rfl)⟩
  | wake =>
    simp only [Shared.run, Option.some.injEq] at h
    split at h
    · next hptable =>
      cases h
      refine ⟨fun _ _ => .rfl, fun _ _ => .rfl, fun _ _ => .rfl, fun u _ hsleep => ?_, .inl rfl,
        nofun, fun _ => .inr ⟨hL.inner.mp rfl, hptable, fun u hsleep => ?_⟩⟩
      · exact ⟨by simp_all [Rest.wakeup], rfl⟩
      · simp_all [Rest.wakeup]
    · cases h
      exact spares_of_same rfl rfl rfl rfl (fun _ _ => .rfl) fun _ _ => .rfl

theorem run_local (hG : Global s) (hL : Local s t pc) (h : s.run t pc = some (s', pc')) :
    Global s' ∧ Local s' t pc' := by
  cases pc with
  | user | held => cases h
  | test =>
    cases h
    refine ⟨hG, ?_⟩
    cases hlocked : s.locked with
    | true =>
      exact ⟨hL.inner, hL.ptable, hL.owner, nofun, fun hd hi => (nomatch hL.waker hd hi),
        fun hs => (nomatch (hL.sleeping hs).1), fun _ => .inl hlocked⟩
    | false =>
      exact ⟨hL.inner, hL.ptable, hL.owner, fun _ => hlocked, fun hd hi => (nomatch hL.waker hd hi),
        fun hs => (nomatch (hL.sleeping hs).1), nofun⟩
  | take =>
    cases h
    exact ⟨⟨by simp, hG.due, fun hd => (nomatch hL.waker hd (hL.inner.mp rfl))⟩,
      hL.inner, hL.ptable, ⟨fun _ => rfl, fun _ => rfl⟩, nofun, fun hd hi => (nomatch hL.waker hd hi),
      fun hs => (nomatch (hL.sleeping hs).1), nofun⟩
  | leave | done | unlock =>
    cases h
    exact ⟨⟨hG.locked, fun hd => (nomatch hL.waker hd (hL.inner.mp rfl)), hG.released⟩,
      ⟨nofun, nofun⟩, hL.ptable, hL.owner, nofun, nofun, fun hs => (nomatch (hL.sleeping hs).1),
      hL.retires⟩
  | clear =>
    cases h
    exact ⟨⟨⟨nofun, fun h => absurd rfl h⟩, fun _ h => (nomatch (hL.inner.mp rfl).symm.trans h),
      fun _ => rfl⟩, hL.inner, hL.ptable, ⟨nofun, nofun⟩, nofun, fun _ _ => rfl,
      fun hs => (nomatch (hL.sleeping hs).1), nofun⟩
  | settle =>
    cases h
    exact ⟨⟨hG.locked, hG.due, hG.released⟩, hL.inner, ⟨nofun, nofun⟩, hL.owner, nofun,
      fun hd hi => (nomatch hL.waker hd hi),
      fun _ => ⟨rfl, by simp [Shared.rouse], hL.retires rfl⟩, nofun⟩
  | tidy =>
    cases h
    refine ⟨⟨hG.locked, hG.due, hG.released⟩, hL.inner, ⟨nofun, nofun⟩, hL.owner, nofun,
      fun hd hi => (nomatch hL.waker hd hi), fun hs => ?_, nofun⟩
    simp only [Shared.rouse, update_self] at hs
    exact nomatch (hL.sleeping hs).1
  | spin | respin =>
    simp only [Shared.run, Option.some.injEq] at h
    split at h
    · next hinner =>
      cases h
      exact ⟨⟨hG.locked, fun _ => nofun, hG.released⟩, ⟨fun _ => rfl, fun _ => rfl⟩, hL.ptable,
        hL.owner, nofun, fun hd _ => absurd hinner (hG.due hd),
        fun hs => (nomatch (hL.sleeping hs).1), nofun⟩
    · cases h
      exact ⟨hG, hL⟩
  | sleep =>
    simp only [Shared.run, Option.some.injEq] at h
    split at h
    · cases h
      exact ⟨⟨hG.locked, hG.due, hG.released⟩, hL.inner, ⟨fun _ => rfl, fun _ => rfl⟩, hL.owner,
        nofun, fun hd hi => (nomatch hL.waker hd hi), fun hs => (nomatch (hL.sleeping hs).1),
        fun _ => hL.retires rfl⟩
    · cases h
      exact ⟨hG, hL⟩
  | wake =>
    simp only [Shared.run, Option.some.injEq] at h
    split at h
    · cases h
      refine ⟨⟨hG.locked, nofun, nofun⟩, hL.inner, hL.ptable, hL.owner, nofun, nofun, fun hs => ?_,
        nofun⟩
      exact nomatch (hL.sleeping (Bool.and_eq_true_iff.mp hs).1).1
    · cases h
      exact ⟨hG, hL⟩
  | asleep =>
    simp only [Shared.run] at h
    split at h
    · next hready =>
      cases h
      exact ⟨⟨hG.locked, hG.due, hG.released⟩, hL.inner, ⟨fun _ => rfl, fun _ => rfl⟩, hL.owner,
        nofun, fun hd hi => (nomatch hL.waker hd hi),
        fun hs => absurd (hready.1.symm.trans hs) Bool.false_ne_true, nofun⟩
    · cases h

theorem Local.rouse {f : Rest → Rest} (h : Local s t pc)
    (hf : ∀ r, (f r).sleeping = true → f r = r) : Local (s.rouse u f) t pc := by
  obtain ⟨hinner, hptable, howner, hfree, hwaker, hsleeping, hretires⟩ := h
  refine ⟨hinner, hptable, howner, hfree, hwaker, fun hsleep => ?_, hretires⟩
  by_cases htu : t = u
  · subst htu
    simp only [Shared.rouse, update_self] at hsleep ⊢
    have hsame := hf _ hsleep
    rw [hsame] at hsleep ⊢
    exact hsleeping hsleep
  · simp only [Shared.rouse, update_of_ne htu] at hsleep ⊢
    exact hsleeping hsleep

end

theorem local_of_reach {c : Threads τ} (h : Reach (lock τ) anyStep c) :
    Global c.shared ∧ ∀ t, Local c.shared t (c.loc t) := by
  refine Interleaving.invariant_of_all ?_ ?_ h
  · rintro c ⟨hinner, hptable, hlocked, hpid, hawake, hdue, huser⟩
    refine ⟨by constructor <;> simp [hlocked, hpid, hdue], fun t => ?_⟩
    rw [huser t]
    constructor <;> simp [hinner, hptable, hpid, hdue, hawake, Pc.hasInner, Pc.hasPtable, Pc.owns,
      Pc.retires]
  · intro c t e s' pc' hG hL _ hact
    have hothers : Spares c.shared s' t → ∀ u, u ≠ t → Local s' u (c.loc u) :=
      fun hs u hu => (hL u).spared hu hs
    have hsame : ∀ {s : Shared τ}, Spares s s t :=
      spares_of_same rfl rfl rfl rfl (fun _ _ => .rfl) fun _ _ => .rfl
    have ht := hL t
    cases e with
    | acquiresleep | releasesleep =>
      obtain ⟨hpc, hact⟩ := Option.ite_none_right_eq_some.mp hact
      cases hact
      refine ⟨hG, ?_, hothers hsame⟩
      rw [hpc] at ht
      obtain ⟨hinner, hptable, howner, hfree, hwaker, hsleeping, hretires⟩ := ht
      exact ⟨hinner, hptable, howner, nofun, fun hd hi => (nomatch hwaker hd hi),
        fun hs => (nomatch (hsleeping hs).1), nofun⟩
    | run =>
      obtain ⟨hG', ht'⟩ := run_local hG ht hact
      exact ⟨hG', ht', hothers (run_spares hG ht hact)⟩
    | kill u =>
      obtain ⟨-, hact⟩ := Option.ite_none_right_eq_some.mp hact
      cases hact
      exact ⟨⟨hG.locked, hG.due, hG.released⟩, ht.rouse Rest.kill_of_sleeping,
        hothers (spares_rouse Rest.kill_of_sleeping)⟩
    | unpark u =>
      obtain ⟨-, hact⟩ := Option.ite_none_right_eq_some.mp hact
      cases hact
      exact ⟨⟨hG.locked, hG.due, hG.released⟩, ht.rouse Rest.unpark_of_sleeping,
        hothers (spares_rouse Rest.unpark_of_sleeping)⟩

/-- **Sleep locks.** One thread at most is between `acquiresleep` and `releasesleep`; and
when the lock is free and nobody has the inner spinlock, no thread sleeps on the
lock. -/
theorem sleeplock_exclusive {c : Threads τ} (h : Reach (lock τ) anyStep c) :
    (∀ t u, (c.loc t).owns = true → (c.loc u).owns = true → t = u) ∧
      (c.shared.inner = none → c.shared.locked = false →
        ∀ t, ¬((c.shared.rest t).sleeping = true ∧ (c.shared.rest t).onLock = true)) := by
  obtain ⟨hG, hL⟩ := local_of_reach h
  constructor
  · intro t u ht hu
    have hpid := (hL t).owner.mp ht
    rw [(hL u).owner.mp hu] at hpid
    exact (Option.some.inj hpid).symm
  · rintro hinner hlocked t ⟨hsleep, -⟩
    rcases ((hL t).sleeping hsleep).2.2 with htaken | hdue
    · simp [hlocked] at htaken
    · exact hG.due hdue hinner

/-- Three threads before their first calls. -/
def start : Threads (Fin 3) :=
  ⟨⟨none, none, false, none, fun _ => ⟨false, false⟩, false⟩, fun _ => .user⟩

theorem start_initial : start.initial := by
  constructor <;> intros <;> rfl

/-- Two threads wait for the lock of a third one. One of them is killed and goes to
sleep again; both are woken when the lock is given back. -/
theorem sleeplock_exclusive_killed :
    ∃ c : Threads (Fin 3), Reach (lock (Fin 3)) anyStep c ∧ c.loc 0 = .user ∧
      c.loc 1 = .asleep ∧ c.loc 2 = .asleep ∧
      ∀ t, ¬((c.shared.rest t).sleeping = true ∧ (c.shared.rest t).onLock = true) := by
  obtain ⟨c, -, hr, hinner, hlocked, h0, h1, h2⟩ := Interleaving.exists_of_script act start_initial
    ([(0, .acquiresleep), (0, .run), (0, .run), (0, .run), (0, .run), (1, .acquiresleep)] ++
      List.replicate 5 (1, .run) ++ (2, .acquiresleep) :: List.replicate 5 (2, .run) ++
      (0, .kill 1) :: List.replicate 7 (1, .run) ++
      (0, .releasesleep) :: List.replicate 4 (0, .run))
    (fun c => c.shared.inner = none ∧ c.shared.locked = false ∧ c.loc 0 = .user ∧
      c.loc 1 = .asleep ∧ c.loc 2 = .asleep) (by decide)
  exact ⟨c, hr, h0, h1, h2, (sleeplock_exclusive hr).2 hinner hlocked⟩

end KThreads.SleepLock
