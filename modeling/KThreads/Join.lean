import KThreads.Threads

/-!
# Join

`join` remembers the slot that its scan has found and looks only at its state
when it wakes up. The slot still holds the thread it waits for as long as no
other joiner reaps it in between; and the scan stays inside the table as long as
some slot has the pid.
-/

namespace KThreads.Group

open Function (update_apply)

variable {ι : Type*} [DecidableEq ι] [Fintype ι] {a a' : Table ι} {m : Move ι}

/-- A slot is reaped by `join` only when no other thread waits for it. -/
def ReapsAlone (a : Table ι) (m : Move ι) : Prop :=
  ∀ t p, m = .joinReap t p → ∀ u pid, u ≠ t → a.job u ≠ .join pid p

/-- A slot that a thread waits for in `join` holds the thread of its own group
with the pid it was called with. -/
def JoinInv (a : Table ι) : Prop :=
  ∀ t pid p, a.job t = .join pid p →
    a.pid p = pid ∧ a.tgid p = a.tgid t ∧ a.process p = a.process t ∧ a.phase p ≠ .unused

theorem Step.job_join (hst : Step a m a') {t p : ι} {pid : ℤ} (hj : a'.job t = .join pid p) :
    a.job t = .join pid p ∨ m = .joinEnter t pid p := by
  cases hst <;> simp only [update_apply, Table.clear] at hj <;> grind

theorem Inv.target_used (hinv : Inv a) {t p : ι} (ht : a.phase t = .live)
    (hproc : a.process p = a.process t) : a.phase p ≠ .unused := by
  obtain ⟨L, hL, hpub, -, -⟩ := hinv.leader t (Or.inl ht)
  intro hp
  rcases hinv.unused_process p hp with hnone | hself
  · simp [hL, hnone] at hproc
  · cases hL.symm.trans (hproc.symm.trans hself)
    simp [Table.Published, hp] at hpub

theorem JoinInv.step (hinv : Inv a) (h : JoinInv a) (hok : ReapsAlone a m) (hst : Step a m a') :
    JoinInv a' := by
  intro t pid p hj
  rcases hst.job_join hj with hold | rfl
  · have ht := hinv.job_live t (by simp [hold])
    obtain ⟨hpid, htgid, hproc, hused⟩ := h t pid p hold
    obtain ⟨L, hL, hpub, hlead, -⟩ := hinv.leader t (Or.inl ht)
    have hlive := hinv.job_live
    have hbuild := hinv.build_embryo
    have hraw := hinv.raw_process
    have hfork := hinv.fork_group
    have halone := hinv.exec_alone
    have hof := @Inv.leader_of _ _ _ _ hinv
    unfold ReapsAlone at hok
    cases hst with
    | mapFork | mapClone | read | rootFork | rootClone | exitEnter | joinEnter | joinLeave | mark
    | alone | settle | load | giveUp | commit | kill => exact ⟨hpid, htgid, hproc, hused⟩
    | _ =>
      simp only [update_apply, Table.clear, Table.Published] at *
      grind
  · cases hst with
    | joinEnter ht _ hpid htgid hproc => exact ⟨hpid, htgid, hproc, hinv.target_used ht hproc⟩

theorem JoinInv.of_reach {i : ι} (h : Transition.Reach (machine i) ReapsAlone a) : JoinInv a := by
  refine h.invariant (fun a h0 => ?_) fun a m a' hr hinv hok hst =>
    hinv.step (Inv.of_reach hr) hok hst
  cases h0
  simp [JoinInv, Table.initial]

end KThreads.Group

namespace KThreads

open Function (update)

variable {k k' : Kernel} {t L p : Slot} {e : Env} {pid : ℤ}

namespace Kernel

variable (k)

/-- The slot that a join step of the thread `t` looks at. -/
def joinTarget (t : Slot) : Option Slot :=
  match k.pc t with
  | .join pid => k.findPid pid
  | .joinWait _ p => some p
  | _ => none

/-- The slot that a thread asleep in `join` waits for. -/
def waitsFor (t : Slot) : Option Slot :=
  match k.pc t with
  | .joinWait _ p => some p
  | _ => none

/-- `join` is called with the pid of some slot. -/
def joinsPresent (t : Slot) : Prop :=
  match k.pc t with
  | .join pid => k.findPid pid ≠ none
  | _ => True

instance (t : Slot) : Decidable (k.joinsPresent t) := by
  unfold joinsPresent
  split <;> infer_instance

/-- A slot is a dead thread that `join` gives back. -/
def joinReaps (p : Slot) : Prop :=
  (k.proc p).state = .zombie ∧ (k.proc p).tgid ≠ (k.proc p).pid ∧ (k.proc p).process ≠ some p

instance (p : Slot) : Decidable (k.joinReaps p) := inferInstanceAs (Decidable (_ ∧ _))

end Kernel

/-- `join` is called with the pid of some slot, and gives a slot back only when
no other thread waits for it. -/
abbrev joinsAlone : Kernel → Label → Prop := onStep fun k t =>
  k.joinsPresent t ∧
    ∀ p ∈ k.joinTarget t, k.joinReaps p → ∀ u, u ≠ t → k.waitsFor u ≠ some p

theorem Kernel.waitsFor_of_job {u : Slot} (h : k.group.job u = .join pid p) :
    k.waitsFor u = some p := by
  have hjob : (k.pc u).job = .join pid p := h
  unfold Kernel.waitsFor
  revert hjob
  generalize k.pc u = c
  intro hjob
  unfold Pc.job at hjob
  split at hjob <;> simp_all

theorem joinInv_of_joinsAlone (h : ReachableBy joinsAlone k) : Group.JoinInv k.group := by
  refine .of_reach (Kernel.reach_group (fun k l m a hok hm hst => ?_) h)
  rintro t p rfl u pid hne hu
  obtain ⟨v, e, rfl, hmakes⟩ := hm.step (by simp) (by simp)
  have hreaps : k.joinReaps p := by
    cases hst with
    | joinReap _ _ hp hpid hproc => exact ⟨ProcState.phase_eq_zombie.mp hp, hpid, hproc⟩
  have htarget : t = v ∧ k.joinTarget v = some p := by
    generalize hpc : k.pc v = c at hmakes
    cases hmakes with
    | joinNow hp => exact ⟨rfl, by simp [Kernel.joinTarget, hpc, hp]⟩
    | joinReap => exact ⟨rfl, by simp [Kernel.joinTarget, hpc]⟩
  obtain ⟨rfl, htarget⟩ := htarget
  exact hok.2 p htarget hreaps u hne (Kernel.waitsFor_of_job hu)

/-- A slot holds the thread of the group of `t` with a given pid. -/
def Kernel.Holds (k : Kernel) (t : Slot) (pid : ℤ) (p : Slot) : Prop :=
  (k.proc p).pid = pid ∧ (k.proc p).tgid = (k.proc t).tgid ∧
    (k.proc p).process = (k.proc t).process ∧ (k.proc p).state ≠ .unused

/-- How a step of `join` can end: it fails because its caller was killed or the
pid belongs to another group, it waits for the thread that it was called for, or
it reports that this thread is dead and gives back at most its slot. -/
inductive JoinOutcome (k : Kernel) (t : Slot) (pid : ℤ) (k' : Kernel) : Prop
  | fails (hwhy : (k.proc t).killed = true ∨
        ∃ p, k.findPid pid = some p ∧ ¬k.Holds t pid p)
      (hpc : k'.pc t = .ret (-1)) (hproc : k'.proc = k.proc)
  | waits {p : Slot} (hp : k.Holds t pid p) (hstate : (k.proc p).state ≠ .zombie)
      (hpc : k'.pc t = .joinWait pid p) (hproc : ∀ s, s ≠ t → k'.proc s = k.proc s)
  | reports {p : Slot} (hp : k.Holds t pid p) (hstate : (k.proc p).state = .zombie)
      (hpc : k'.pc t = .ret pid)
      (hproc : k'.proc = k.proc ∨ k'.proc = update k.proc p (Kernel.reaped (k.proc p)))

theorem joinLoop_outcome (hp : k.Holds t pid p) : JoinOutcome k t pid (k.joinLoop t L pid p) := by
  unfold Kernel.joinLoop
  split
  · next hz =>
    split
    · next hk => exact .fails (.inl hk) (by simp [Kernel.ret, Kernel.goto]) rfl
    · refine .waits hp hz (by simp [Kernel.goto]) fun s hs => ?_
      simp [Kernel.goto, Kernel.sleep, Kernel.modify, hs]
  · next hz =>
    have hzombie := not_not.mp hz
    split
    · exact .reports hp hzombie (by simp [Kernel.ret, Kernel.goto]) (.inr rfl)
    · exact .reports hp hzombie (by simp [Kernel.ret, Kernel.goto]) (.inl rfl)

theorem holds_of_same_group (hinv : Group.Inv k.group) (ht : k.group.phase t = .live)
    (hpid : (k.proc p).pid = pid) (htgid : (k.proc p).tgid = (k.proc t).tgid)
    (hprocess : (k.proc p).process = (k.proc t).process) : k.Holds t pid p := by
  refine ⟨hpid, htgid, hprocess, fun hunused => ?_⟩
  have hphase : k.group.phase p = .unused := ProcState.phase_eq_unused.mpr hunused
  obtain ⟨M, hM, hpub, -⟩ := hinv.leader t (Or.inl ht)
  have hpM : k.group.process p = some M := hprocess.trans hM
  rcases hinv.unused_process p hphase with hnone | hself
  · simp [hnone] at hpM
  · cases hself.symm.trans hpM
    rcases hpub with hpub | hpub <;> simp [hphase] at hpub

theorem joinStep_outcome (hinv : Group.Inv k.group) (ht : k.group.phase t = .live)
    (hp : k.findPid pid = some p) : JoinOutcome k t pid (k.joinStep t L e pid) := by
  simp only [Kernel.joinStep, hp]
  split
  · next hsame =>
    exact joinLoop_outcome (holds_of_same_group hinv ht (Kernel.findPid_pid hp) hsame.1 hsame.2)
  · next hother =>
    exact .fails (.inr ⟨p, hp, fun hholds => hother ⟨hholds.2.1, hholds.2.2.1⟩⟩)
      (by simp [Kernel.ret, Kernel.goto]) rfl

/-- **Join** in a run in which it is called with pids that some slot has, and no
slot is given back while another joiner waits for it. The slot that a sleeping
joiner waits for holds the thread it was called for and has not been given back.
A step of `join` fails, waits for that thread, or reports that it is dead and
gives back at most its slot; it does not depend on memory behind the table. -/
theorem join_reports_own_thread (h : ReachableBy joinsAlone k) :
    (∀ t pid p, k.pc t = .joinWait pid p → k.Holds t pid p) ∧
      ∀ t e pid k', (k.pc t = .join pid ∨ ∃ p, k.pc t = .joinWait pid p) →
        joinsAlone k (.step t e) → k.next (.step t e) = some k' →
        JoinOutcome k t pid k' ∧ k.next (.step t {}) = some k' := by
  have hinv := Kernel.inv_of_reachable h
  have hholds : ∀ t pid p, k.pc t = .joinWait pid p → k.Holds t pid p := by
    intro t pid p hpc
    obtain ⟨h1, h2, h3, h4⟩ := joinInv_of_joinsAlone h t pid p (by simp [Kernel.group, hpc, Pc.job])
    exact ⟨h1, h2, h3, mt ProcState.phase_eq_unused.mpr h4⟩
  refine ⟨hholds, fun t e pid k' hpc hok hstep => ?_⟩
  obtain ⟨hguard, hcall⟩ := Option.ite_none_right_eq_some.mp hstep
  have ht := Kernel.phase_of_running hguard.2
  obtain ⟨L, hL, -⟩ := hinv.leader t (Or.inl ht)
  have hprocess : (k.proc t).process = some L := hL
  rcases hpc with hpc | ⟨p, hpc⟩
  · obtain ⟨p, hp⟩ : ∃ p, k.findPid pid = some p := by
      have hpresent := hok.1
      simp only [Kernel.joinsPresent, hpc] at hpresent
      exact Option.ne_none_iff_exists'.mp hpresent
    simp only [hprocess, hpc, Kernel.callStep, Option.some.injEq] at hcall
    subst hcall
    refine ⟨joinStep_outcome hinv ht hp, ?_⟩
    simp [Kernel.next, hguard, hprocess, hpc, Kernel.callStep, Kernel.joinStep, hp]
  · simp only [hprocess, hpc, Kernel.callStep, Option.some.injEq] at hcall
    subst hcall
    refine ⟨joinLoop_outcome (hholds t pid p hpc), ?_⟩
    simp [Kernel.next, hguard, hprocess, hpc, Kernel.callStep]

/-- A thread that joins a sibling that has exited gets its pid. -/
theorem join_reports_exited_clone :
    ∃ k k', runScriptBy joinsAlone (.schedule 0 :: calls 0 (.clone 4096) 9 ++ .schedule 1 ::
        calls 1 .exit 3 ++ [.syscall 0 (.join 2)]) = some k ∧
      k.next (.step 0 {}) = some k' ∧ JoinOutcome k 0 2 k' := by
  obtain ⟨k, hk, hr, hpc, hok, hsome⟩ := exists_of_runScriptBy joinsAlone
    (.schedule 0 :: calls 0 (.clone 4096) 9 ++ .schedule 1 :: calls 1 .exit 3 ++
      [.syscall 0 (.join 2)])
    (fun k => k.pc 0 = .join 2 ∧ joinsAlone k (.step 0 {}) ∧ (k.next (.step 0 {})).isSome = true)
    (by decide +kernel)
  obtain ⟨k', hk'⟩ := Option.isSome_iff_exists.mp hsome
  exact ⟨k, k', hk, hk', ((join_reports_own_thread hr).2 0 {} 2 k' (.inl hpc) hok hk').1⟩

/-- Of two threads that join the same one, the second stays asleep on a slot that
the first has given back; and a scan for a pid that no slot has goes on with the
memory behind the table. -/
theorem join_loses_target :
    (∃ k, Reachable k ∧ k.pc 2 = .joinWait 2 1 ∧ (k.proc 2).state = .sleeping ∧
        (k.proc 1).state = .unused) ∧
      ∃ k, Reachable k ∧ k.halted = some .pastTable := by
  constructor
  · obtain ⟨k, -, hr, hobs⟩ := exists_of_runScript
      (.schedule 0 :: calls 0 (.clone 4096) 9 ++ calls 0 (.clone 4096) 9 ++
        .schedule 2 :: calls 2 (.join 2) 1 ++ calls 0 (.join 2) 1 ++
        .schedule 1 :: calls 1 .exit 3 ++ .schedule 0 :: steps 0 1 ++ .schedule 2 :: steps 2 1)
      (fun k => k.pc 2 = .joinWait 2 1 ∧ (k.proc 2).state = .sleeping ∧
        (k.proc 1).state = .unused) (by decide +kernel)
    exact ⟨k, hr, hobs⟩
  · obtain ⟨k, -, hr, hobs⟩ := exists_of_runScript
      [.schedule 0, .syscall 0 (.join 99), .step 0 { past := 99 }]
      (fun k => k.halted = some .pastTable) (by decide +kernel)
    exact ⟨k, hr, hobs⟩

end KThreads
