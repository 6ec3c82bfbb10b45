import KThreads.Frame
import KThreads.Threads

/-!
# Kill and unused slots

`kill` looks for a pid in all slots, the unused ones included, whose pid is zero or
left over from a creation that failed. `allocproc` does not clear the mark of the
slot that it takes, so that a mark in an unused slot is found by the next thread that
gets the slot.

Whether a slot has been named by a `kill`, or its group by an `exec`, since it was
allocated is kept as a history.
-/

namespace KThreads

open Transition (Reach)

/-- Which slots have been named since they were allocated: by a `kill` of their pid,
or by an `exec` of their group. -/
def touch (touched : Slot → Bool) (k : Kernel) (l : Label) (s : Slot) : Bool :=
  match l with
  | .step t _ =>
      match k.pc t with
      | .fork .alloc | .clone .alloc =>
          touched s && (Fin.find? fun p => (k.proc p).state = .unused) ≠ some s
      | .kill pid => touched s || (k.proc s).pid = pid
      | .exec .mark =>
          touched s || ((k.proc t).killed = false && (k.proc s).process = (k.proc t).process)
      | _ => touched s
  | _ => touched s

/-- `copyuvm` in `fork` runs out of memory. -/
def Kernel.copyFails (k : Kernel) (t L : Slot) (e : Env) : Bool :=
  match copyuvm (k.dir t) (k.proc L).sz e.mem with
  | .ok none => true
  | _ => false

/-- `kill` does not find an unused slot, and a slot that `fork` or `clone` gives back
has not been marked. -/
def Kernel.keepsClean (k : Kernel) (t : Slot) (e : Env) : Prop :=
  match k.pc t with
  | .kill pid => ∀ p ∈ k.findPid pid, (k.proc p).state ≠ .unused
  | .fork (.init np) | .clone (.init np) => e.mem = 0 → (k.proc np).killed = false
  | .fork (.copy np) =>
      ∀ L ∈ (k.proc t).process, k.copyFails t L e = true → (k.proc np).killed = false
  | _ => True

instance (k : Kernel) (t : Slot) (e : Env) : Decidable (k.keepsClean t e) := by
  unfold Kernel.keepsClean
  generalize k.pc t = c
  induction c using Pc.casesOn with
  | fork c => induction c using ForkPc.casesOn <;> dsimp only <;> infer_instance
  | clone c => induction c using ClonePc.casesOn <;> dsimp only <;> infer_instance
  | _ => dsimp only; infer_instance

/-- No step of the run leaves a mark in an unused slot. -/
def keepsUnusedClean (k : Kernel) : Label → Prop
  | .step t e => k.keepsClean t e
  | _ => True

instance (k : Kernel) (l : Label) : Decidable (keepsUnusedClean k l) :=
  match l with
  | .step t e => inferInstanceAs (Decidable (k.keepsClean t e))
  | .schedule _ | .yield _ | .syscall _ _ | .interrupt _ | .fault _ | .block _ _ | .wakeup _ =>
      inferInstanceAs (Decidable True)

/-- The kernel with the history of the slots that have been named. -/
abbrev touching : Transition.System (Kernel × (Slot → Bool)) Label :=
  kernel.recording (fun _ => false) touch

namespace Kernel

variable {k k' : Kernel} {touched : Slot → Bool} {l : Label} {e : Env}

/-- Unused slots are not marked, and marked slots under construction have been
named. -/
structure Clean (k : Kernel) (touched : Slot → Bool) : Prop where
  unused : ∀ s, k.group.phase s = .unused → k.group.killed s = false
  embryo : ∀ s, k.group.phase s = .embryo → k.group.killed s = true → touched s = true

theorem touch_of_touched {s : Slot} (hs : k.group.phase s ≠ .unused) (h : touched s = true) :
    touch touched k l s = true := by
  have hfound : (Fin.find? fun p => decide ((k.proc p).state = .unused)) ≠ some s := by
    intro hfind
    have hstate := (Fin.find?_eq_some_iff.mp hfind).1
    simp_all [group, ProcState.phase]
  unfold touch
  split
  · split <;> simp [h, hfound]
  · exact h

theorem Clean.of_group {touched' : Slot → Bool} (h : Clean k touched)
    (hmono : ∀ s, k.group.phase s ≠ .unused → touched s = true → touched' s = true)
    (hgroup : k'.group = k.group) : Clean k' touched' where
  unused s hs := by
    rw [hgroup] at hs ⊢
    exact h.unused s hs
  embryo s hs hk := by
    rw [hgroup] at hs hk
    exact hmono s (by simp [hs]) (h.embryo s hs hk)

theorem process_of_mark (hinv : Group.Inv k.group) {t s : Slot} (ht : k.group.phase t = .live)
    (hs : k.group.tgid s = k.group.tgid t) :
    k.group.phase s ≠ .unused ∧ k.group.process s = k.group.process t := by
  have hsame := hinv.tgid_process s t (Or.inl ht) hs
  refine ⟨fun hunused => ?_, hsame⟩
  obtain ⟨L, hL, hpub, -⟩ := hinv.leader t (Or.inl ht)
  rcases hinv.unused_process s hunused with hnone | hself
  · simp [hsame, hL] at hnone
  · rw [hsame, hL] at hself
    cases hself
    simp [Group.Table.Published, hunused] at hpub

theorem unmarked_of_release (hinv : Group.Inv k.group) (hok : keepsUnusedClean k l)
    (hnext : k.next l = some k') {t np : Slot} (hm : k.Enacts (.release t np) l)
    (hnp : k'.group.phase np = .unused) : k.group.killed np = false := by
  obtain ⟨u, e, rfl, hmakes⟩ := hm.step nofun nofun
  obtain ⟨-, L, hL, hstep⟩ := callStep_of_next hinv hnext
  have hclean : k.keepsClean u e := hok
  -- the slot stays under construction where there is memory
  have hbuilt : ∀ kd st, k.group.job u = .build kd st np → k.group.phase np ≠ .unused :=
    fun kd st hj => by simp [hinv.build_embryo u kd st np hj]
  generalize hpc : k.pc u = c at hmakes hstep
  cases hmakes with
  | forkNoStack =>
    simp only [keepsClean, hpc] at hclean
    refine hclean (by_contra fun hmem => ?_)
    simp only [callStep, forkStep, allocKstack, if_neg hmem, Option.some.injEq] at hstep
    subst hstep
    refine hbuilt .fork .raw (by simp only [group, hpc, Pc.job]) ?_
    simpa [group, modify, goto] using hnp
  | cloneNoStack =>
    simp only [keepsClean, hpc] at hclean
    refine hclean (by_contra fun hmem => ?_)
    simp only [callStep, cloneStep, allocKstack, if_neg hmem, Option.some.injEq] at hstep
    subst hstep
    refine hbuilt .clone .raw (by simp only [group, hpc, Pc.job]) ?_
    simpa [group, modify, goto] using hnp
  | forkNoMemory =>
    simp only [keepsClean, hpc] at hclean
    refine hclean L hL (by_contra fun hfails => ?_)
    have hphase := hbuilt .fork .grouped (by simp only [group, hpc, Pc.job])
    simp only [callStep, forkStep, Option.some.injEq] at hstep
    subst hstep
    unfold copyFails at hfails
    split at hfails
    · exact hfails rfl
    · next hcopy =>
      split at hnp
      · exact hphase hnp
      · next hnone => exact hcopy hnone
      · exact hphase (by simpa [group, modify, goto] using hnp)

theorem Clean.kill (h : Clean k touched) {t : Slot} {pid : ℤ} (hpc : k.pc t = .kill pid)
    (hok : k.keepsClean t e) : Clean (k.killStep t pid) (touch touched k (.step t e)) := by
  have hmono : ∀ s, k.group.phase s ≠ .unused → touched s = true →
      touch touched k (.step t e) s = true := fun s hs ht => touch_of_touched hs ht
  have hj : k.group.job t = .none := by simp only [group, hpc, Pc.job]
  simp only [keepsClean, hpc] at hok
  cases hfind : k.findPid pid with
  | none =>
    refine h.of_group hmono ?_
    simp only [killStep, hfind]
    exact group_goto_same hj.symm
  | some p =>
    have hgroup : (k.killStep t pid).group =
        { k.group with killed := Function.update k.group.killed p true } := by
      simp only [killStep, hfind]
      rw [group_ret, group_modify_marked]
      simp only [job_update_none hj]
    have hused : k.group.phase p ≠ .unused := fun hunused =>
      hok p hfind (ProcState.phase_eq_unused.mp hunused)
    have hnamed : touch touched k (.step t e) p = true := by
      simp [touch, hpc, findPid_pid hfind]
    constructor
    · intro s hs
      rw [hgroup] at hs ⊢
      have hne : s ≠ p := fun heq => hused (heq ▸ hs)
      simpa [hne] using h.unused s hs
    · intro s hs hk
      by_cases hsp : s = p
      · exact hsp ▸ hnamed
      · rw [hgroup] at hs hk
        have hembryo : k.group.phase s = .embryo := hs
        simp only [Function.update_of_ne hsp] at hk
        exact hmono s (by simp [hembryo]) (h.embryo s hembryo hk)

theorem Clean.step (h : Clean k touched) (hinv : Group.Inv k.group) (hok : keepsUnusedClean k l)
    (hnext : k.next l = some k') : Clean k' (touch touched k l) := by
  have hmono : ∀ s, k.group.phase s ≠ .unused → touched s = true → touch touched k l s = true :=
    fun s hs ht => touch_of_touched hs ht
  rcases next_follows hinv hnext with hstay | ⟨m, hm, hst⟩
  · exact h.of_group hmono hstay
  by_cases hkill : ∃ t e pid, l = .step t e ∧ k.pc t = .kill pid
  · obtain ⟨t, e, pid, rfl, hpc⟩ := hkill
    obtain ⟨-, L, hL, hstep⟩ := callStep_of_next hinv hnext
    rw [hpc] at hstep
    cases hstep
    exact h.kill hpc hok
  -- a mark from elsewhere meets a running thread
  have hlive : ∀ s, m = .kill s → k.group.phase s = .live := by
    rintro s rfl
    cases l with
    | fault t =>
      cases hm
      obtain ⟨⟨_, hs, _⟩, -⟩ := Option.ite_none_right_eq_some.mp hnext
      exact phase_of_running hs
    | step t e =>
      have hmakes : k.Makes t (k.pc t) (.kill s) := hm
      generalize hpc : k.pc t = c at hmakes
      cases hmakes
      exact absurd ⟨t, e, _, rfl, hpc⟩ hkill
    | syscall t c | interrupt t => cases hm
    | _ => exact hm.elim
  constructor
  · intro s hs
    by_contra hk
    rw [Bool.not_eq_false] at hk
    rcases hst.unused hs with hunused | hcleared | ⟨t, rfl⟩
    · rcases hst.killed hk with hk₀ | rfl | ⟨t, rfl, ht, -, htgid⟩
      · simp [h.unused s hunused] at hk₀
      · simp [hlive s rfl] at hunused
      · exact (process_of_mark hinv ht htgid).1 hunused
    · simp [hcleared] at hk
    · rcases hst.killed hk with hk₀ | hmove | ⟨u, hmove, -⟩
      · simp [unmarked_of_release hinv hok hnext hm hs] at hk₀
      · cases hmove
      · cases hmove
  · intro s hs hk
    rcases hst.killed hk with hk₀ | rfl | ⟨t, rfl, ht, hunmarked, htgid⟩
    · rcases hst.embryo hinv hs with ⟨hembryo, -⟩ | ⟨hunused, -⟩
      · exact hmono s (by simp [hembryo]) (h.embryo s hembryo hk₀)
      · simp [h.unused s hunused] at hk₀
    · rcases hst.embryo hinv hs with ⟨hphase, -⟩ | ⟨hphase, -⟩ <;> simp [hlive s rfl] at hphase
    · obtain ⟨u, e, rfl, hmakes⟩ := hm.step nofun nofun
      generalize hpc : k.pc u = c at hmakes
      cases hmakes
      have hsame : (k.proc s).process = (k.proc t).process := (process_of_mark hinv ht htgid).2
      have hk₁ : (k.proc t).killed = false := hunmarked
      simp [touch, hpc, hk₁, hsame]

end Kernel

variable {k : Kernel} {touched : Slot → Bool}

/-- **Kill** in a run in which it finds no unused slot, and in which no marked slot is
given back by a creation that fails. Unused slots are not marked; a thread that is
published with a mark has been named by its pid in a `kill`, or by its group in an
`exec`, since its slot was allocated; and `kill` returns 0 only for the pid of a slot
in use. -/
theorem killed_needs_cause
    (h : Reach touching (fun x l => keepsUnusedClean x.1 l) (k, touched)) :
    (∀ s, (k.proc s).state = .unused → (k.proc s).killed = false) ∧
    (∀ l k', k.next l = some k' → ∀ s, (k.proc s).state = .embryo →
      (k'.proc s).state ≠ .embryo → (k'.proc s).state ≠ .unused → (k'.proc s).killed = true →
      touched s = true) ∧
    (∀ t e pid k', k.pc t = .kill pid → keepsUnusedClean k (.step t e) →
      k.next (.step t e) = some k' → k'.pc t = .ret 0 →
      ∃ s, (k.proc s).pid = pid ∧ (k.proc s).state ≠ .unused) := by
  have hinv := Kernel.inv_of_reachable h.of_recording
  have hclean : k.Clean touched := by
    refine h.invariant (P := fun x => x.1.Clean x.2) ?_ ?_
    · rintro ⟨_, _⟩ ⟨rfl, rfl⟩
      have hunmarked : ∀ s, userinit.group.killed s = false := fun s => by
        rw [Kernel.group_userinit]
        rfl
      exact ⟨fun s _ => hunmarked s, fun s _ hs => by simp [hunmarked s] at hs⟩
    · rintro ⟨k, touched⟩ l ⟨k', _⟩ hr hk hok ⟨hstep, rfl⟩
      exact hk.step (Kernel.inv_of_reachable hr.of_recording) hok hstep
  refine ⟨fun s hs => ?_, fun l k' hnext s hs hs' hs'' hk => ?_, ?_⟩
  · exact hclean.unused s (ProcState.phase_eq_unused.mpr hs)
  · have hembryo : k.group.phase s = .embryo := ProcState.phase_eq_embryo.mpr hs
    have hleft : k'.group.phase s ≠ k.group.phase s := by
      rw [hembryo]
      exact fun heq => hs' (ProcState.phase_eq_embryo.mp heq)
    rcases Kernel.next_follows hinv hnext with hstay | ⟨m, -, hst⟩
    · exact absurd (by rw [hstay]) hleft
    · -- a move that marks a slot does not publish it
      rcases hst.killed hk with hk₀ | rfl | ⟨t, rfl, -⟩
      · exact hclean.embryo s hembryo hk₀
      · generalize k'.group = a at hst hleft
        cases hst
        exact absurd rfl hleft
      · generalize k'.group = a at hst hleft
        cases hst
        exact absurd rfl hleft
  · intro t e pid k' hpc hok hnext hret
    obtain ⟨-, L, -, hstep⟩ := Kernel.callStep_of_next hinv hnext
    have hclean : k.keepsClean t e := hok
    simp only [Kernel.keepsClean, hpc] at hclean
    rw [hpc] at hstep
    cases hstep
    unfold Kernel.killStep at hret
    split at hret
    · simp [Kernel.ret, Kernel.goto] at hret
    · next p hp => exact ⟨p, Kernel.findPid_pid hp, hclean p hp⟩

/-- A thread kills the process that another one is about to publish. -/
theorem killed_needs_cause_embryo :
    ∃ k touched, runRecordedBy (fun _ => false) touch keepsUnusedClean
        (.schedule 0 :: calls 0 (.clone 4096) 9 ++ .schedule 1 :: calls 0 .fork 7 ++
          calls 1 (.kill 3) 1) = some (k, touched) ∧
      (k.proc 2).killed = true ∧ touched 2 = true ∧
      ∀ s, (k.proc s).state = .unused → (k.proc s).killed = false := by
  obtain ⟨⟨k, touched⟩, hk, hr, hkilled, hstate, hnext, hpub⟩ :=
    exists_of_runRecordedBy (fun _ => false) touch keepsUnusedClean
      (.schedule 0 :: calls 0 (.clone 4096) 9 ++ .schedule 1 :: calls 0 .fork 7 ++
        calls 1 (.kill 3) 1)
      (fun x => (x.1.proc 2).killed = true ∧ (x.1.proc 2).state = .embryo ∧
        (x.1.next (.step 0 {})).isSome = true ∧
        (x.1.next (.step 0 {})).all fun k' => (k'.proc 2).state = .runnable ∧
          (k'.proc 2).killed = true) (by decide +kernel)
  obtain ⟨k', hk'⟩ := Option.isSome_iff_exists.mp hnext
  simp only [hk', Option.all_some, decide_eq_true_eq] at hpub
  obtain ⟨hclean, hcause, -⟩ := killed_needs_cause hr
  exact ⟨k, touched, hk, hkilled,
    hcause _ k' hk' 2 hstate (by simp [hpub.1]) (by simp [hpub.1]) hpub.2, hclean⟩

/-- `kill(0)` marks an unused slot and returns 0. The next thread gets the slot, and
starts with the mark. -/
theorem killed_by_pid_zero :
    ∃ k, runScript (.schedule 0 :: calls 0 (.kill 0) 1) = some k ∧ Reachable k ∧
      k.pc 0 = .ret 0 ∧ (k.proc 1).state = .unused ∧ (k.proc 1).killed = true ∧
      ∃ k', runScript (.schedule 0 :: calls 0 (.kill 0) 2 ++ calls 0 (.clone 4096) 8) = some k' ∧
        Reachable k' ∧ (k'.proc 1).state = .runnable ∧ (k'.proc 1).pid = 2 ∧
        (k'.proc 1).killed = true := by
  obtain ⟨k, hk, hr, hret, hunused, hkilled⟩ := exists_of_runScript
    (.schedule 0 :: calls 0 (.kill 0) 1)
    (fun k => k.pc 0 = .ret 0 ∧ (k.proc 1).state = .unused ∧ (k.proc 1).killed = true)
    (by decide +kernel)
  refine ⟨k, hk, hr, hret, hunused, hkilled, ?_⟩
  exact exists_of_runScript (.schedule 0 :: calls 0 (.kill 0) 2 ++ calls 0 (.clone 4096) 8)
    (fun k => (k.proc 1).state = .runnable ∧ (k.proc 1).pid = 2 ∧ (k.proc 1).killed = true)
    (by decide +kernel)

end KThreads
