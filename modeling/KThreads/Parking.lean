import KThreads.Signals
import KThreads.Takeover

/-!
# Park and unpark

`unpark` wakes the thread it is for if it finds it asleep on the channel, and leaves
the channel in its mailbox otherwise; `park` takes a channel it is asked to wait for
out of the mailbox instead of sleeping, and empties the mailbox. One word holds the
mailbox, and the null channel stands for an empty one.
-/

namespace KThreads

/-- The points behind the calls of `sched` in `park`, `join` and `wait`. -/
def Pc.waits : Pc → Bool
  | .wait | .joinWait _ _ | .parked => true
  | _ => false

/-- A thread that is marked does not go to sleep in `park`. -/
def Kernel.parksUnmarkedAt (k : Kernel) (t : Slot) : Prop :=
  match k.pc t with
  | .park c => (k.proc t).lostwakeup ≠ c → (k.proc t).killed = false
  | _ => True

instance (k : Kernel) (t : Slot) : Decidable (k.parksUnmarkedAt t) := by
  unfold Kernel.parksUnmarkedAt
  generalize k.pc t = c
  induction c using Pc.casesOn <;> dsimp only <;> infer_instance

/-- No thread of the run goes to sleep in `park` when it is marked. -/
abbrev parksUnmarked : Kernel → Label → Prop := onStep Kernel.parksUnmarkedAt

namespace Kernel

variable {k k' : Kernel} {np : Option Slot} {may : Prop} {t L : Slot} {e : Env}

/-- No marked thread sleeps in `park`, `join` or `wait`. -/
def NoMarkedSleeper (k : Kernel) : Prop :=
  ∀ s, (k.proc s).killed = true → (k.proc s).state = .sleeping → (k.pc s).waits = false

theorem NoMarkedSleeper.of_spares (h : NoMarkedSleeper k) (hs : Spares np may t k k')
    (ht : (k'.proc t).killed = true → (k'.proc t).state = .sleeping → (k'.pc t).waits = false) :
    NoMarkedSleeper k' := by
  intro u hkilled hasleep
  by_cases hu : u = t
  · exact hu ▸ ht (hu ▸ hkilled) (hu ▸ hasleep)
  · obtain ⟨hasleep₀, hkilled₀⟩ := hs.asleep u (fun _ => hu) hasleep
    rcases hs.pc u hu with hpc | ⟨-, -, hawake⟩
    · rw [hpc]
      exact h u (hkilled₀ ▸ hkilled) hasleep₀
    · exact absurd hasleep hawake

theorem waitStep_marked (ht : (k.proc t).state = .running)
    (hkilled : ((k.waitStep t L).proc t).killed = true) :
    ((k.waitStep t L).proc t).state ≠ .sleeping := by
  unfold waitStep at hkilled ⊢
  split
  · simp [ret, goto, ht]
  · next hguard =>
    have hunmarked : (k.proc t).killed = false := by simpa using (not_or.mp hguard).2
    rw [if_neg hguard] at hkilled
    split at hkilled
    · simp [sleep, modify, hunmarked] at hkilled
    · unfold reapGroup
      split
      · simp only [ret, goto]
        split <;> simp [reaped, ht]
      · simp [panic, halt, ht]

theorem joinLoop_marked {pid : ℤ} {p : Slot} (ht : (k.proc t).state = .running)
    (hkilled : ((k.joinLoop t L pid p).proc t).killed = true) :
    ((k.joinLoop t L pid p).proc t).state ≠ .sleeping := by
  unfold joinLoop at hkilled ⊢
  split
  · next hz =>
    rw [if_pos hz] at hkilled
    split
    · simp [ret, goto, ht]
    · next hunmarked =>
      simp [sleep, goto, modify, hunmarked] at hkilled
  · split
    · simp only [ret, goto, reapSlot, modify, Function.update_apply]
      split <;> simp [reaped, ht]
    · simp [ret, goto, ht]

theorem joinStep_marked {pid : ℤ} (ht : (k.proc t).state = .running)
    (hkilled : ((k.joinStep t L e pid).proc t).killed = true) :
    ((k.joinStep t L e pid).proc t).state ≠ .sleeping := by
  unfold joinStep at hkilled ⊢
  split
  · next p hp =>
    simp only [hp] at hkilled
    split
    · next hsame =>
      rw [if_pos hsame] at hkilled
      exact joinLoop_marked ht hkilled
    · simp [ret, goto, ht]
  · split <;> simp [ret, goto, halt, ht]

theorem callStep_marked (ht : (k.proc t).state = .running) (hok : k.parksUnmarkedAt t)
    (h : k.callStep t L e (k.pc t) = some k') (hkilled : (k'.proc t).killed = true)
    (hasleep : (k'.proc t).state = .sleeping) : (k'.pc t).waits = false := by
  by_cases hsleeps : (k.pc t).sleeps = true
  swap
  · -- a running thread that does not go to sleep is not asleep behind its step
    have := ((spares_callStep h).asleep t (fun hmay => absurd hmay hsleeps) hasleep).1
    simp [ht] at this
  generalize hpc : k.pc t = c at h hsleeps
  cases c with
  | wait =>
    cases h
    exact absurd hasleep (waitStep_marked ht hkilled)
  | join pid =>
    cases h
    exact absurd hasleep (joinStep_marked ht hkilled)
  | joinWait pid p =>
    cases h
    exact absurd hasleep (joinLoop_marked ht hkilled)
  | exec c =>
    cases c with
    | wait =>
      cases h
      simp only [execStep]
      split
      · simp [sleep, modify, hpc, Pc.waits]
      · simp [goto, Pc.waits]
    | _ => cases hsleeps
  | park ch =>
    cases h
    simp only [parksUnmarkedAt, hpc] at hok
    unfold parkStep at hkilled ⊢
    split
    · simp [ret, goto, Pc.waits]
    · next hlost =>
      simp [if_neg hlost, sleep, goto, modify, hok hlost] at hkilled
  | dead | user | ret r | trap | fork c | clone c | exit c => cases hsleeps
  | _ => cases hsleeps

theorem spares_enter {c : Call} : Spares np may t k (k.enter t c) := by
  cases c with
  | exit => exact spares_enterExit
  | _ => exact .goto .refl _

theorem proc_enter {c : Call} : (k.enter t c).proc = k.proc := by
  cases c with
  | exit =>
    simp only [enter, enterExit]
    split <;> rfl
  | _ => rfl

theorem proc_enterExit : (k.enterExit t).proc = k.proc := proc_enter (c := .exit)

theorem Pc.waits_of_mayBlock {c : Pc} (h : c.mayBlock = true) : c.waits = false := by
  unfold Pc.waits
  split
  · cases h
  · cases h
  · cases h
  · rfl

theorem NoMarkedSleeper.step {l : Label} (h : NoMarkedSleeper k) (hok : parksUnmarked k l)
    (hnext : k.next l = some k') : NoMarkedSleeper k' := by
  cases l with
  | schedule t | yield t =>
    obtain ⟨_, ⟨⟩⟩ := Option.ite_none_right_eq_some.mp hnext
    refine h.of_spares (show Spares none False t k _ from .rouse .refl (by simp)) ?_
    simp [modify]
  | syscall t c =>
    obtain ⟨⟨_, hs, _⟩, ⟨⟩⟩ := Option.ite_none_right_eq_some.mp hnext
    split
    · refine h.of_spares (show Spares none False t k _ from spares_enterExit) ?_
      simp [proc_enterExit, hs]
    · refine h.of_spares (show Spares none False t k _ from spares_enter) ?_
      simp [proc_enter, hs]
  | interrupt t =>
    obtain ⟨⟨_, hs, _⟩, ⟨⟩⟩ := Option.ite_none_right_eq_some.mp hnext
    refine h.of_spares (show Spares none False t k _ from spares_enterExit) ?_
    simp [proc_enterExit, hs]
  | fault t =>
    obtain ⟨⟨_, hs, _⟩, ⟨⟩⟩ := Option.ite_none_right_eq_some.mp hnext
    have hspares : Spares none False t k
        ((k.modify t fun q => { q with killed := true }).goto t .trap) :=
      .goto (.modify .refl fun _ hasleep => by simp [hs] at hasleep) _
    refine h.of_spares hspares ?_
    simp [goto, modify, hs]
  | step t e =>
    obtain ⟨⟨_, hs⟩, hstep⟩ := Option.ite_none_right_eq_some.mp hnext
    cases hL : (k.proc t).process with
    | none =>
      simp only [hL, Option.some.injEq] at hstep
      subst hstep
      exact h
    | some L =>
      simp only [hL] at hstep
      exact h.of_spares (spares_callStep hstep) (callStep_marked hs hok hstep)
  | block t a =>
    obtain ⟨⟨_, hs, hmay⟩, ⟨⟩⟩ := Option.ite_none_right_eq_some.mp hnext
    refine h.of_spares (show Spares none True t k _ from spares_sleep trivial) fun _ _ => ?_
    exact Pc.waits_of_mayBlock hmay
  | wakeup a =>
    obtain ⟨_, ⟨⟩⟩ := Option.ite_none_right_eq_some.mp hnext
    have hspares : Spares none False k.initproc k (k.wakeup1 (.addr a)) := .wakeup1 .refl _
    refine h.of_spares hspares fun hkilled hasleep => ?_
    obtain ⟨hasleep₀, hkilled₀⟩ := hspares.asleep _ (by simp) hasleep
    exact h _ (hkilled₀ ▸ hkilled) hasleep₀

end Kernel

variable {k : Kernel}

/-- **Marked threads** in a run in which no marked thread goes to sleep in `park`. A
thread that `kill` or `exec` has marked does not sleep in `park`, `join` or `wait`:
it is ready to run, and finds the mark. -/
theorem marked_not_asleep (h : ReachableBy parksUnmarked k) {s : Slot}
    (hkilled : (k.proc s).killed = true) (hpc : (k.pc s).waits = true) :
    (k.proc s).state ≠ .sleeping ∧
      ((k.proc s).state.isLive → (k.proc s).state = .runnable ∨ (k.proc s).state = .running) := by
  have hinv : k.NoMarkedSleeper := by
    refine h.invariant (P := Kernel.NoMarkedSleeper) ?_ fun k l k' _ hk hok hstep =>
      hk.step hok hstep
    rintro _ rfl s hs
    have : (userinit.proc s).killed = false := by
      simp only [userinit]
      split <;> rfl
    simp [this] at hs
  have hawake : (k.proc s).state ≠ .sleeping := fun hasleep => by
    simp [hinv s hkilled hasleep] at hpc
  refine ⟨hawake, fun hlive => ?_⟩
  cases hstate : (k.proc s).state <;> simp_all [ProcState.isLive]

/-- A thread that is killed in `park` is made runnable. -/
theorem marked_not_asleep_killed :
    ∃ k, runScriptBy parksUnmarked (.schedule 0 :: calls 0 (.clone 4096) 9 ++ .schedule 1 ::
        calls 1 (.park (.addr 7)) 1 ++ calls 0 (.kill 2) 1) = some k ∧
      (k.proc 1).killed = true ∧ k.pc 1 = .parked ∧ (k.proc 1).state ≠ .sleeping := by
  obtain ⟨k, hk, hr, hkilled, hpc⟩ := exists_of_runScriptBy parksUnmarked
    (.schedule 0 :: calls 0 (.clone 4096) 9 ++ .schedule 1 :: calls 1 (.park (.addr 7)) 1 ++
      calls 0 (.kill 2) 1)
    (fun k => (k.proc 1).killed = true ∧ k.pc 1 = .parked) (by decide +kernel)
  exact ⟨k, hk, hkilled, hpc, (marked_not_asleep hr hkilled (by rw [hpc]; rfl)).1⟩

set_option maxRecDepth 8000 in
/-- A thread enters `park`; another thread of its group marks it in `exec`; and it
goes to sleep. `exec` waits for it, and neither is ever woken. -/
theorem marked_sleeper_blocks_exec :
    ∃ k, Reachable k ∧ (k.proc 1).killed = true ∧ (k.proc 1).state = .sleeping ∧
      k.pc 1 = .parked ∧ (k.proc 0).state = .sleeping ∧ k.pc 0 = .exec .wait := by
  obtain ⟨k, -, hr, hobs⟩ := exists_of_runScript
    (.schedule 0 :: calls 0 (.clone 4096) 9 ++ .schedule 1 :: .syscall 1 (.park (.addr 7)) ::
      calls 0 .exec 1 ++ steps 1 1 ++ steps 0 1)
    (fun k => (k.proc 1).killed = true ∧ (k.proc 1).state = .sleeping ∧ k.pc 1 = .parked ∧
      (k.proc 0).state = .sleeping ∧ k.pc 0 = .exec .wait) (by decide)
  exact ⟨k, hr, hobs⟩

end KThreads

namespace KThreads

open Transition (Reach)

/-- The history of the mailboxes. -/
structure Mail where
  /-- The channel of the last `unpark` for a thread that did not find it asleep on its
  channel, since the last `park` of the thread or its creation. -/
  pending : Slot → Option Chan
  /-- The channel of the last `park` of a thread. -/
  last : Slot → Chan

namespace Mail

/-- Before the first call. -/
def start : Mail := ⟨fun _ => none, fun _ => .null⟩

/-- A thread counts as created when `fork` or `clone` fills in its slot. -/
def recordStep (h : Mail) (k : Kernel) (t : Slot) : Pc → Mail
  | .fork (.init np) | .clone (.init np) =>
      { h with pending := Function.update h.pending np none }
  | .park c => ⟨Function.update h.pending t none, Function.update h.last t c⟩
  | .unpark pid c =>
      { h with pending := fun s =>
          if (k.proc s).pid = pid ∧ ¬((k.proc s).state = .sleeping ∧ (k.proc s).chan = c) then some c
          else h.pending s }
  | _ => h

def record (h : Mail) (k : Kernel) : Label → Mail
  | .step t _ => h.recordStep k t (k.pc t)
  | _ => h

end Mail

namespace Kernel

variable (k : Kernel)

/-- A pid that is passed to `unpark` belongs to one slot that is alive or under
construction at most, and the scan finds that slot. -/
def DeliversAt (t : Slot) : Prop :=
  match k.pc t with
  | .unpark pid _ => ∀ s, (k.proc s).state ≠ .unused → (k.proc s).state ≠ .zombie →
      (k.proc s).pid = pid → k.findPid pid = some s
  | _ => True

instance (t : Slot) : Decidable (k.DeliversAt t) := by
  unfold DeliversAt
  generalize k.pc t = c
  induction c using Pc.casesOn <;> dsimp only <;> infer_instance

/-- A leader that calls `exec` has nothing in its mailbox. -/
def ExecsEmptyAt (t : Slot) : Prop :=
  k.pc t = .exec .setLost → (k.proc t).process = some t → (k.proc t).lostwakeup = .null

instance (t : Slot) : Decidable (k.ExecsEmptyAt t) :=
  inferInstanceAs (Decidable (_ → _ → _))

end Kernel

/-- Every `unpark` of the run is delivered, and no `exec` empties a mailbox. -/
abbrev mailKept : Kernel → Label → Prop := onStep fun k t => k.DeliversAt t ∧ k.ExecsEmptyAt t

/-- The states reached with the history of the mailboxes. -/
abbrev MailReachable (ok : Kernel → Label → Prop) : Kernel × Mail → Prop :=
  Reach (kernel.recording Mail.start Mail.record) fun x l => ok x.1 l

/-- The mailboxes agree with their history, and a thread that sleeps in `park` sleeps on
the channel it has called it with. -/
structure Mail.Kept (h : Mail) (k : Kernel) : Prop where
  lost : ∀ s, k.group.Seated s → (k.proc s).lostwakeup = (h.pending s).getD .null
  chan : ∀ s, (k.proc s).state = .sleeping → k.pc s = .parked → (k.proc s).chan = h.last s

/-- The points at which a mailbox may change. -/
def Pc.mails : Pc → Bool
  | .fork (.init _) | .clone (.init _) | .exec .setLost | .park _ | .unpark _ _ => true
  | _ => false

namespace Kernel

variable {k k' : Kernel} {t L s : Slot} {e : Env} {h : Mail}

theorem waitStep_pc (hpc : k.pc t = .wait) : (k.waitStep t L).pc t ≠ .parked := by
  unfold waitStep
  split
  · simp [ret, goto]
  · split
    · simp [sleep, modify, hpc]
    · unfold reapGroup
      split <;> simp [ret, goto, panic, halt, hpc]

theorem joinLoop_pc {pid : ℤ} {p : Slot} : (k.joinLoop t L pid p).pc t ≠ .parked := by
  unfold joinLoop
  split
  · split <;> simp [ret, goto]
  · split <;> simp [ret, goto]

theorem joinStep_pc {pid : ℤ} (hpc : k.pc t = .join pid) :
    (k.joinStep t L e pid).pc t ≠ .parked := by
  unfold joinStep
  split
  · split
    · exact joinLoop_pc
    · simp [ret, goto]
  · split <;> simp [ret, goto, halt, hpc]

theorem park_of_parked (ht : (k.proc t).state = .running)
    (hstep : k.callStep t L e (k.pc t) = some k') (hasleep : (k'.proc t).state = .sleeping)
    (hpc' : k'.pc t = .parked) : ∃ c, k.pc t = .park c := by
  by_cases hsleeps : (k.pc t).sleeps = true
  swap
  · -- a running thread that does not go to sleep is not asleep behind its step
    have := ((spares_callStep hstep).asleep t (fun hmay => absurd hmay hsleeps) hasleep).1
    simp [ht] at this
  generalize hpc : k.pc t = c at hstep hsleeps
  cases c with
  | park c => exact ⟨c, rfl⟩
  | wait => exact absurd hpc' (Option.some.inj hstep ▸ waitStep_pc hpc)
  | join pid => exact absurd hpc' (Option.some.inj hstep ▸ joinStep_pc hpc)
  | joinWait pid p => exact absurd hpc' (Option.some.inj hstep ▸ joinLoop_pc)
  | exec c =>
    cases c with
    | wait =>
      cases hstep
      simp only [execStep] at hpc'
      split at hpc' <;> simp [sleep, goto, modify, hpc] at hpc'
    | _ => cases hsleeps
  | dead | user | ret r | trap | fork c | clone c | exit c => cases hsleeps
  | _ => cases hsleeps

theorem findPid_eq_none {pid : ℤ} (hnone : k.findPid pid = none) (s : Slot) :
    (k.proc s).pid ≠ pid := by
  unfold findPid at hnone
  simpa using Fin.find?_eq_none_iff.mp hnone s

theorem sent_keepsMail {c : Pc} (hc : c.mails = false) :
    ∀ x ∈ k.sent t L e k' c, x.keepsMail = true := by
  intro x hx
  unfold sent at hx
  split at hx
  · cases hc
  · cases hc
  · obtain ⟨ch, -, rfl⟩ := List.mem_map.mp hx
    rfl
  · split at hx <;> simp_all [Signal.keepsMail]
  · split at hx <;> simp_all [Signal.keepsMail]
  · split at hx <;> simp_all [Signal.keepsMail]
  · split at hx <;> simp_all [Signal.keepsMail]
  · split at hx
    · cases hx
    · obtain ⟨p, -, rfl⟩ := List.mem_map.mp hx
      rfl
  · cases hc
  · obtain ⟨p, -, rfl⟩ := List.mem_map.mp hx
    rfl
  · cases hc
  · cases hc
  · cases hx

theorem recordStep_of_mails {c : Pc} (hc : c.mails = false) : h.recordStep k t c = h := by
  unfold Mail.recordStep
  split
  · cases hc
  · cases hc
  · cases hc
  · cases hc
  · rfl

theorem lost_callStep (hinv : Group.Inv k.group) (hs : k.group.Seated s)
    (hlost : (k.proc s).lostwakeup = (h.pending s).getD .null)
    (hok : k.DeliversAt t ∧ k.ExecsEmptyAt t) (hL : (k.proc t).process = some L)
    (hsent : Sends (k.sent t L e k' (k.pc t)) k k') :
    (k'.proc s).lostwakeup = ((h.recordStep k t (k.pc t)).pending s).getD .null := by
  have hlost' : (k'.proc s).lostwakeup =
      (Signal.applyAll s (k.proc s).seat (k.sent t L e k' (k.pc t))).lost :=
    congrArg Seat.lost (hsent s)
  have hphase := hinv.phase_of_seated hs
  obtain ⟨hdeliver, hempty⟩ := hok
  by_cases hmails : (k.pc t).mails = true
  swap
  · rw [Bool.not_eq_true] at hmails
    rw [hlost', Signal.lost_applyAll (sent_keepsMail hmails), recordStep_of_mails hmails]
    exact hlost
  rw [hlost']
  unfold DeliversAt at hdeliver
  unfold ExecsEmptyAt at hempty
  -- A slot that has a group is not the one that is being given it.
  have hraw : ∀ np kd, (k.pc t).job = .build kd .raw np → s ≠ np := by
    rintro np kd hj rfl
    exact hinv.not_seated_raw hj hs
  generalize hpc : k.pc t = c at hmails hdeliver hempty hraw
  cases c with
  | fork c | clone c =>
    cases c with
    | init np =>
      have hne := hraw np _ rfl
      simp only [sent, Mail.recordStep, Function.update_of_ne hne]
      split
      · exact hlost
      · simpa [Signal.apply, hne] using hlost
    | _ => cases hmails
  | exec c =>
    cases c with
    | setLost =>
      simp only [sent, Mail.recordStep, Signal.applyAll_singleton, Signal.apply]
      split
      · next hsL =>
        subst hsL
        by_cases hst : s = t
        · subst hst
          rw [← hlost, hempty rfl hL]
        · -- The leader slot of a group that is taken over is a zombie.
          have hj : k.group.job t = .exec .taken := by simp [group, hpc, Pc.job]
          have hz := hinv.zombie_of_alone hj (by simp) hL hst
          simp [hz] at hphase
      · exact hlost
    | _ => cases hmails
  | park c =>
    simp only [sent, Mail.recordStep, Signal.applyAll_singleton, Signal.apply]
    by_cases hst : s = t
    · simp [hst]
    · simpa [hst] using hlost
  | unpark pid c =>
    simp only [sent, Mail.recordStep]
    have hstate : (k.proc s).state ≠ .unused ∧ (k.proc s).state ≠ .zombie := by
      constructor <;> (intro hstate; simp [group, hstate, ProcState.phase] at hphase)
    cases hfind : k.findPid pid with
    | none => simpa [findPid_eq_none hfind s] using hlost
    | some p =>
      by_cases hpid : (k.proc s).pid = pid
      · have hps : p = s := Option.some.inj (hfind.symm.trans (hdeliver s hstate.1 hstate.2 hpid))
        subst hps
        by_cases hasleep : (k.proc p).state = .sleeping ∧ (k.proc p).chan = c
        · simpa [Signal.apply, Proc.seat, hasleep] using hlost
        · have hseat : (k.proc p).seat.asleep ≠ some c := by
            intro heq
            by_cases hsleep : (k.proc p).state = .sleeping
            · exact hasleep ⟨hsleep, by simpa [Proc.seat, hsleep] using heq⟩
            · simp [Proc.seat, hsleep] at heq
          simp [Signal.apply, hseat, hpid, hasleep]
      · have hps : s ≠ p := by
          rintro rfl
          exact hpid (findPid_pid hfind)
        simpa [Signal.apply, hps, hpid] using hlost
  | dead | user | ret r | trap | exit c | wait | join pid | joinWait pid p => cases hmails
  | _ => cases hmails

theorem lost_of_group {kd : Group.Kind} (hinv' : Group.Inv k'.group) (hs' : k'.group.Seated s)
    (hmakes : k.Makes t (k.pc t) (.group t s kd)) (hstep : k.callStep t L e (k.pc t) = some k')
    (hsent : Sends (k.sent t L e k' (k.pc t)) k k') :
    (k'.proc s).lostwakeup = ((h.recordStep k t (k.pc t)).pending s).getD .null := by
  have hlost' : (k'.proc s).lostwakeup =
      (Signal.applyAll s (k.proc s).seat (k.sent t L e k' (k.pc t))).lost :=
    congrArg Seat.lost (hsent s)
  have hphase := hinv'.phase_of_seated hs'
  -- Without memory for a kernel stack the slot would have been given back.
  have hmem : ∀ {fields : Proc → Proc} {next : Pc},
      k' = k.allocKstack t s e fields next → e.mem ≠ 0 := by
    rintro fields next rfl hmem
    simp [allocKstack, hmem, group, ret, goto, modify, ProcState.phase] at hphase
  rw [hlost']
  generalize k.pc t = c at hmakes hstep
  cases hmakes with
  | forkGroup | cloneGroup =>
    simp only [callStep, forkStep, cloneStep, Option.some.injEq] at hstep
    simp [sent, Mail.recordStep, Signal.apply, hmem hstep.symm]

theorem lost_next {l : Label} (hkept : h.Kept k) (hinv : Group.Inv k.group)
    (hinv' : Group.Inv k'.group) (hok : mailKept k l) (hnext : k.next l = some k')
    (hs' : k'.group.Seated s) :
    (k'.proc s).lostwakeup = ((h.record k l).pending s).getD .null := by
  have hsends := sends_next hinv hnext
  have hbefore : k.group.Seated s ∨ ∃ t kd, k.Enacts (.group t s kd) l := by
    rcases next_follows hinv hnext with hstay | ⟨m, hm, hst⟩
    · exact Or.inl (hstay ▸ hs')
    · rcases hst.seated hinv hs' with ⟨hs, -⟩ | ⟨t, kd, rfl⟩
      · exact Or.inl hs
      · exact Or.inr ⟨t, kd, hm⟩
  cases l with
  | step t e =>
    obtain ⟨-, L, hL, hstep⟩ := callStep_of_next hinv hnext
    have hsent : Sends (k.sent t L e k' (k.pc t)) k k' := by simpa [signals, hL] using hsends
    rcases hbefore with hs | ⟨u, kd, hmakes⟩
    · exact lost_callStep hinv hs (hkept.lost s hs) hok hL hsent
    · replace hmakes : k.Makes t (k.pc t) (.group u s kd) := hmakes
      have hu : u = t := by
        generalize k.pc t = c at hmakes
        cases hmakes <;> rfl
      subst hu
      exact lost_of_group hinv' hs' hmakes hstep hsent
  | _ =>
    have hs : k.group.Seated s := by
      rcases hbefore with hs | ⟨u, kd, hmakes⟩
      · exact hs
      · simp [Enacts] at hmakes
    have hlost : (k'.proc s).lostwakeup = (k.proc s).lostwakeup :=
      (congrArg Seat.lost (hsends s)).trans
        (Signal.lost_applyAll fun x hx => by simp_all [signals, Signal.keepsMail])
    rw [hlost]
    exact hkept.lost s hs

theorem sent_lulls {c : Pc} (hs : s ≠ t) : ∀ x ∈ k.sent t L e k' c, x.lulls ≠ some s := by
  intro x hx
  unfold sent at hx
  split at hx
  · split at hx <;> simp_all [Signal.lulls]
  · split at hx <;> simp_all [Signal.lulls]
  · obtain ⟨ch, -, rfl⟩ := List.mem_map.mp hx
    nofun
  · split at hx <;> simp_all [Signal.lulls, hs.symm]
  · split at hx <;> simp_all [Signal.lulls, hs.symm]
  · split at hx <;> simp_all [Signal.lulls, hs.symm]
  · split at hx <;> simp_all [Signal.lulls, hs.symm]
  · split at hx
    · cases hx
    · obtain ⟨p, -, rfl⟩ := List.mem_map.mp hx
      nofun
  · simp_all [Signal.lulls]
  · obtain ⟨p, -, rfl⟩ := List.mem_map.mp hx
    nofun
  · simp_all [Signal.lulls, hs.symm]
  · obtain ⟨p, -, rfl⟩ := List.mem_map.mp hx
    nofun
  · cases hx

theorem parked_next {l : Label} (hinv : Group.Inv k.group) (hnext : k.next l = some k')
    (hs' : (k'.proc s).state = .sleeping) (hpc' : k'.pc s = .parked) :
    ((k.proc s).state = .sleeping ∧ (k.proc s).chan = (k'.proc s).chan ∧ k.pc s = .parked) ∧
        (∀ e, l ≠ .step s e) ∨
      ∃ e, l = .step s e ∧ k.pc s = .park (k'.proc s).chan := by
  have hsends := sends_next hinv hnext
  have hasleep' : (k'.proc s).seat.asleep = some (k'.proc s).chan := by simp [Proc.seat, hs']
  rw [hsends s] at hasleep'
  have hbefore : (∀ x ∈ k.signals k' l, x.lulls ≠ some s) →
      (k.proc s).state = .sleeping ∧ (k.proc s).chan = (k'.proc s).chan := by
    intro h
    have hasleep := Signal.asleep_applyAll h hasleep'
    by_cases hs : (k.proc s).state = .sleeping
    · exact ⟨hs, by simpa [Proc.seat, hs] using hasleep⟩
    · simp [Proc.seat, hs] at hasleep
  -- A running thread that enters the kernel does not move the thread that sleeps.
  have hawake : ∀ t, (k.proc t).state = .running → (∀ x ∈ k.signals k' l, x.lulls ≠ some s) →
      Spares none False t k k' →
      (k.proc s).state = .sleeping ∧ (k.proc s).chan = (k'.proc s).chan ∧ k.pc s = .parked := by
    intro t ht hlulls hspares
    obtain ⟨hs, hchan⟩ := hbefore hlulls
    have hst : s ≠ t := by
      rintro rfl
      simp [ht] at hs
    rcases hspares.pc s hst with hpc | ⟨hnone, -⟩
    · exact ⟨hs, hchan, hpc ▸ hpc'⟩
    · cases hnone
  cases l with
  | step t e =>
    obtain ⟨ht, L, hL, hstep⟩ := callStep_of_next hinv hnext
    have hsignals : k.signals k' (.step t e) = k.sent t L e k' (k.pc t) := by simp [signals, hL]
    by_cases hst : s = t
    · subst hst
      obtain ⟨c, hc⟩ := park_of_parked ht hstep hs' hpc'
      refine Or.inr ⟨e, rfl, ?_⟩
      have hchan : (k.proc s).lostwakeup ≠ c ∧ c = (k'.proc s).chan := by
        simpa [hsignals, hc, sent, Signal.apply, Proc.seat, ht] using hasleep'
      rw [hc, hchan.2]
    · obtain ⟨hs, hchan⟩ := hbefore (hsignals ▸ sent_lulls hst)
      refine Or.inl ⟨⟨hs, hchan, ?_⟩, fun e' h => hst (by cases h; rfl)⟩
      rcases (spares_callStep hstep).pc s hst with hpc | ⟨-, -, hawake⟩
      · exact hpc ▸ hpc'
      · exact absurd hs' hawake
  | block t a =>
    obtain ⟨⟨_, _, hmay⟩, ⟨⟩⟩ := Option.ite_none_right_eq_some.mp hnext
    have hst : s ≠ t := by
      rintro rfl
      rw [show k.pc s = .parked from hpc'] at hmay
      cases hmay
    obtain ⟨hs, hchan⟩ := hbefore (by simp [signals, Signal.lulls, hst.symm])
    exact Or.inl ⟨⟨hs, hchan, hpc'⟩, by simp⟩
  | schedule t | yield t =>
    obtain ⟨_, ⟨⟩⟩ := Option.ite_none_right_eq_some.mp hnext
    obtain ⟨hs, hchan⟩ := hbefore (by simp [signals])
    exact Or.inl ⟨⟨hs, hchan, hpc'⟩, by simp⟩
  | syscall t c =>
    obtain ⟨⟨_, ht, _⟩, ⟨⟩⟩ := Option.ite_none_right_eq_some.mp hnext
    refine Or.inl ⟨hawake t ht (by simp [signals]) ?_, by simp⟩
    split
    · exact spares_enterExit
    · exact spares_enter
  | interrupt t =>
    obtain ⟨⟨_, ht, _⟩, ⟨⟩⟩ := Option.ite_none_right_eq_some.mp hnext
    exact Or.inl ⟨hawake t ht (by simp [signals]) spares_enterExit, by simp⟩
  | fault t =>
    obtain ⟨⟨_, ht, _⟩, ⟨⟩⟩ := Option.ite_none_right_eq_some.mp hnext
    exact Or.inl ⟨hawake t ht (by simp [signals]) (.goto (.rouse .refl (by simp [ht])) _), by simp⟩
  | wakeup a =>
    obtain ⟨_, ⟨⟩⟩ := Option.ite_none_right_eq_some.mp hnext
    obtain ⟨hs, hchan⟩ := hbefore (by simp [signals, Signal.lulls])
    exact Or.inl ⟨⟨hs, hchan, hpc'⟩, by simp⟩

theorem chan_next {l : Label} (hkept : h.Kept k) (hinv : Group.Inv k.group)
    (hnext : k.next l = some k') (hs' : (k'.proc s).state = .sleeping) (hpc' : k'.pc s = .parked) :
    (k'.proc s).chan = (h.record k l).last s := by
  rcases parked_next hinv hnext hs' hpc' with ⟨⟨hs, hchan, hpc⟩, hother⟩ | ⟨e, rfl, hpc⟩
  · rw [← hchan, hkept.chan s hs hpc]
    cases l with
    | step t e =>
      have hst : s ≠ t := fun hst => hother e (by rw [hst])
      simp only [Mail.record, Mail.recordStep]
      split
      · rfl
      · rfl
      · simp [Function.update_of_ne hst]
      · rfl
      · rfl
    | _ => rfl
  · simp [Mail.record, Mail.recordStep, hpc]

end Kernel

theorem Mail.kept_of_reachable {x : Kernel × Mail} (hx : MailReachable mailKept x) : x.2.Kept x.1 := by
  refine hx.invariant (P := fun x => x.2.Kept x.1) (fun x h0 => ?_)
    fun x l x' hr hkept hok hstep => ?_
  · obtain ⟨hk, hm⟩ := h0
    rw [hm, show x.1 = userinit from hk]
    refine ⟨fun s _ => ?_, fun s hs => ?_⟩
    · simp only [userinit, Mail.start]
      split <;> rfl
    · simp only [userinit] at hs
      split at hs <;> simp [initcode] at hs
  · have hinv := Kernel.inv_of_reachable (Reach.of_recording hr)
    have hinv' := Kernel.inv_of_reachable (Reach.of_recording (hr.step hok hstep))
    rw [hstep.2]
    exact ⟨fun s hs => Kernel.lost_next hkept hinv hinv' hok hstep.1 hs,
      fun s hs hpc => Kernel.chan_next hkept hinv hstep.1 hs hpc⟩

theorem Kernel.park_step {k k' : Kernel} {t : Slot} {e : Env} {c : Chan} (hinv : Group.Inv k.group)
    (hpc : k.pc t = .park c) (hnext : k.next (.step t e) = some k') :
    (k.proc t).lostwakeup = c ∧ (k'.proc t).state = .running ∧ k'.pc t = .ret 0 ∨
      (k.proc t).lostwakeup ≠ c ∧ (k'.proc t).state = .sleeping ∧ k'.pc t = .parked := by
  obtain ⟨ht, L, -, hstep⟩ := Kernel.callStep_of_next hinv hnext
  rw [hpc] at hstep
  cases hstep
  by_cases hlost : (k.proc t).lostwakeup = c
  · simp [Kernel.parkStep, hlost, Kernel.ret, Kernel.goto, Kernel.modify, ht]
  · simp [Kernel.parkStep, hlost, Kernel.sleep, Kernel.goto, Kernel.modify]

/-- **Park and unpark.** In a run in which every `unpark` is delivered and no `exec`
empties a mailbox, `park` on a channel returns at once exactly when the last `unpark`
that the thread has missed since its last `park` was on this channel, except that `park`
on the null channel also does so when the thread has missed none. A thread that sleeps
in `park` is made runnable by the first `unpark` on its channel. -/
theorem park_returns_iff_unparked {x : Kernel × Mail} (hx : MailReachable mailKept x) {t : Slot}
    {c : Chan} :
    (∀ e k', x.1.pc t = .park c → x.1.next (.step t e) = some k' →
      c ≠ .null ∨ x.2.pending t ≠ none →
      ((k'.proc t).state = .running ∧ k'.pc t = .ret 0 ↔ x.2.pending t = some c) ∧
        ((k'.proc t).state = .sleeping ∧ k'.pc t = .parked ↔ x.2.pending t ≠ some c)) ∧
    (∀ u e k', (x.1.proc t).state = .sleeping → x.1.pc t = .parked → x.2.last t = c →
      x.1.pc u = .unpark (x.1.proc t).pid c → mailKept x.1 (.step u e) →
      x.1.next (.step u e) = some k' → (k'.proc t).state = .runnable) := by
  have hinv := Kernel.inv_of_reachable (Reach.of_recording hx)
  have hkept := Mail.kept_of_reachable hx
  constructor
  · intro e k' hpc hnext hnull
    obtain ⟨ht, -⟩ := Kernel.callStep_of_next hinv hnext
    have hlost := hkept.lost t (Or.inl (Kernel.phase_of_running ht))
    have hiff : (x.1.proc t).lostwakeup = c ↔ x.2.pending t = some c := by
      rw [hlost]
      cases hpending : x.2.pending t with
      | none => simpa [hpending, eq_comm] using hnull
      | some c' => simp
    rcases Kernel.park_step hinv hpc hnext with ⟨heq, hrunning, hret⟩ | ⟨hne, hasleep, hparked⟩
    · simp [hiff.mp heq, hrunning, hret]
    · simp [mt hiff.mpr hne, hasleep, hparked]
  · intro u e k' hasleep hpc hlast hunpark hok hnext
    have hchan : (x.1.proc t).chan = c := (hkept.chan t hasleep hpc).trans hlast
    have hdeliver := hok.1
    simp only [Kernel.DeliversAt, hunpark] at hdeliver
    have hfind := hdeliver t (by simp [hasleep]) (by simp [hasleep]) rfl
    obtain ⟨-, L, -, hstep⟩ := Kernel.callStep_of_next hinv hnext
    rw [hunpark] at hstep
    cases hstep
    simp [Kernel.unparkStep, hfind, hasleep, hchan, Kernel.ret, Kernel.goto, Kernel.modify]

/-- The first thread forks a child, which wakes it twice on a channel: once before it has
parked and once when it sleeps. -/
def wakeTwice : List Label :=
  haveI := neZero_nproc
  .schedule 0 :: calls 0 .fork 9 ++ .schedule 1 :: calls 1 (.unpark 1 (.addr 5)) 2 ++
    [.syscall 0 (.park (.addr 5))]

theorem park_returns_iff_unparked_twice :
    (∃ x k', MailReachable mailKept x ∧ x.1.pc 0 = .park (.addr 5) ∧
      x.1.next (.step 0 {}) = some k' ∧ (k'.proc 0).state = .running ∧ k'.pc 0 = .ret 0) ∧
    ∃ x k', MailReachable mailKept x ∧ (x.1.proc 0).state = .sleeping ∧ x.1.pc 0 = .parked ∧
      x.1.next (.step 1 {}) = some k' ∧ (k'.proc 0).state = .runnable := by
  constructor
  · obtain ⟨x, -, hr, hpc, hpending, hnext⟩ := exists_of_runRecordedBy Mail.start Mail.record
      mailKept wakeTwice
      (fun x => x.1.pc 0 = .park (.addr 5) ∧ x.2.pending 0 = some (.addr 5) ∧
        (x.1.next (.step 0 {})).isSome) (by decide +kernel)
    obtain ⟨k', hk'⟩ := Option.isSome_iff_exists.mp hnext
    have hpark := (park_returns_iff_unparked hr).1 {} k' hpc hk' (Or.inl nofun)
    exact ⟨x, k', hr, hpc, hk', hpark.1.mpr hpending⟩
  · obtain ⟨x, -, hr, hasleep, hpc, hlast, hunpark, hok, hnext⟩ := exists_of_runRecordedBy
      Mail.start Mail.record mailKept
      (wakeTwice ++ steps 0 2 ++ calls 0 (.park (.addr 5)) 1 ++ [.syscall 1 (.unpark 1 (.addr 5))])
      (fun x => (x.1.proc 0).state = .sleeping ∧ x.1.pc 0 = .parked ∧ x.2.last 0 = .addr 5 ∧
        x.1.pc 1 = .unpark (x.1.proc 0).pid (.addr 5) ∧ mailKept x.1 (.step 1 {}) ∧
        (x.1.next (.step 1 {})).isSome) (by decide +kernel)
    obtain ⟨k', hk'⟩ := Option.isSome_iff_exists.mp hnext
    exact ⟨x, k', hr, hasleep, hpc, hk',
      (park_returns_iff_unparked hr).2 1 {} k' hasleep hpc hlast hunpark hok hk'⟩

/-- `park` on the null channel returns at once although nobody has called `unpark`. -/
theorem park_null_returns :
    ∃ x k', MailReachable Transition.anyStep x ∧ x.1.pc 0 = .park .null ∧
      x.2.pending 0 = none ∧ x.1.next (.step 0 {}) = some k' ∧ (k'.proc 0).state = .running ∧
      k'.pc 0 = .ret 0 := by
  obtain ⟨x, -, hr, hpc, hpending, hnext⟩ := exists_of_runRecordedBy Mail.start Mail.record
    Transition.anyStep [.schedule 0, .syscall 0 (.park .null)]
    (fun x => x.1.pc 0 = .park .null ∧ x.2.pending 0 = none ∧
      ∃ k' ∈ x.1.next (.step 0 {}), (k'.proc 0).state = .running ∧ k'.pc 0 = .ret 0)
    (by decide)
  obtain ⟨k', hk', hobs⟩ := hnext
  exact ⟨x, k', hr, hpc, hpending, hk', hobs⟩

end KThreads
