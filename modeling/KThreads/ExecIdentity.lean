import KThreads.Takeover
import KThreads.Signals

/-!
# The process behind exec

`exec` writes the size of the new image to the slot of its caller, and empties the mailbox of
the leader slot. When the caller is the leader, the two are one slot: it has the number of the
process, the new size and no wakeup for the old image, and its parent is told the number of the
process. A caller that is not the leader leaves the old size with the process, and keeps a
wakeup that was sent to the old image.
-/

namespace KThreads

open Group (Inv Step Takeover)
open Transition (Reach)

variable {k k' : Kernel} {t : Slot} {e : Env}

/-- The points of `exec` behind the exchange of the pids. -/
def Pc.loading : Pc → Bool
  | .exec .load | .exec (.commit _ _) => true
  | _ => false

theorem Pc.loading_iff {c : Pc} :
    c.loading = true ↔ c.job = .exec .swapped ∨ ∃ x, c.job = .exec (.loaded x) := by
  cases c with
  | exec c => cases c <;> simp [loading, job]
  | fork c | clone c => cases c <;> simp [loading, job]
  | _ => simp [loading, job]

/-- The thread that an `unpark` of the thread `t` finds. -/
def Kernel.unparked (k : Kernel) (t : Slot) : Option Slot :=
  match k.pc t with
  | .unpark pid _ => k.findPid pid
  | _ => none

/-- Only the leader of a group gets behind the waiting loop of `exec`, and no `unpark` finds a
thread that is loading its image. -/
abbrev leaderExecsAlone : Kernel → Label → Prop := onStep fun k t =>
  (k.pc t = .exec .swap → (k.proc t).process = some t) ∧
    ∀ p ∈ k.unparked t, (k.pc p).loading = false

theorem leaderExecs_of_alone {l : Label} (h : leaderExecsAlone k l) : leaderExecs k l := by
  cases l with
  | step t e => exact h.1
  | _ => trivial

theorem Group.Step.job_loads {ι : Type*} [DecidableEq ι] [Fintype ι] {a a' : Group.Table ι}
    {m : Group.Move ι} {s : ι} (hst : Step a m a')
    (hs : a'.job s = .exec .swapped ∨ ∃ x, a'.job s = .exec (.loaded x)) :
    (a.job s = .exec .swapped ∨ ∃ x, a.job s = .exec (.loaded x)) ∨ m = .settle s := by
  cases hst <;> simp only [Function.update_apply, Group.Table.clear] at hs <;> grind

theorem loading_of_next {l : Label} {s : Slot} (hinv : Inv k.group) (hnext : k.next l = some k')
    (hs : (k'.pc s).loading = true) :
    (k.pc s).loading = true ∨ ∃ e, l = .step s e ∧ k.pc s = .exec .setLost := by
  rcases Kernel.next_follows hinv hnext with heq | ⟨m, hm, hst⟩
  · have hjob : k'.group.job s = k.group.job s := by rw [heq]
    have hloads := Pc.loading_iff.mp hs
    simp only [show (k'.pc s).job = (k.pc s).job from hjob] at hloads
    exact .inl (Pc.loading_iff.mpr hloads)
  · rcases hst.job_loads (Pc.loading_iff.mp hs) with hbefore | rfl
    · exact .inl (Pc.loading_iff.mpr hbefore)
    · obtain ⟨t, e, rfl, hmakes⟩ := hm.step (by simp) (by simp)
      generalize hpc : k.pc t = c at hmakes
      cases hmakes
      exact .inr ⟨e, rfl, hpc⟩

theorem Signal.lost_null {ν : Type*} [DecidableEq ν] {s : ν} {r : Seat} {σ : List (Signal ν)}
    (h : ∀ x ∈ σ, ∀ c, x ≠ .unpark s c) (hr : r.lost = .null) : (applyAll s r σ).lost = .null := by
  induction σ generalizing r with
  | nil => exact hr
  | cons x σ ih =>
    refine ih (fun y hy => h y (List.mem_cons_of_mem _ hy)) ?_
    have hx := h x List.mem_cons_self
    cases x with
    | wake c => exact hr
    | rouse p | doze p c =>
      simp only [apply]
      split <;> exact hr
    | unpark p c =>
      have hp : s ≠ p := fun heq => hx c (heq ▸ rfl)
      simpa [apply, hp] using hr
    | park p c | forget p =>
      simp only [apply]
      split
      · rfl
      · exact hr

theorem Kernel.unparked_of_signals {l : Label} {s : Slot} {c : Chan}
    (h : .unpark s c ∈ k.signals k' l) : ∃ t e, l = .step t e ∧ s ∈ k.unparked t := by
  cases l with
  | step t e =>
    refine ⟨t, e, rfl, ?_⟩
    simp only [Kernel.signals, List.mem_flatMap] at h
    obtain ⟨L, -, h⟩ := h
    unfold Kernel.unparked
    unfold Kernel.sent at h
    split at h <;> simp_all
  | _ => simp [Kernel.signals] at h

theorem mailbox_of_loading (h : ReachableBy leaderExecsAlone k) :
    ∀ t, (k.pc t).loading = true → (k.proc t).lostwakeup = .null := by
  refine h.invariant (P := fun k => ∀ t, (k.pc t).loading = true → (k.proc t).lostwakeup = .null)
    ?_ fun k l k' hr hmail hok hnext s hs => ?_
  · rintro k rfl t ht
    simp only [userinit] at ht
    split at ht <;> cases ht
  · have hinv := Kernel.inv_of_reachable hr
    have hseat := Kernel.sends_next hinv hnext s
    rw [← Proc.seat_lost, hseat]
    rcases loading_of_next hinv hnext hs with hbefore | ⟨e, rfl, hpc⟩
    · refine Signal.lost_null (fun x hx c heq => ?_) (hmail s hbefore)
      obtain ⟨t, e, rfl, hs'⟩ := Kernel.unparked_of_signals (heq ▸ hx)
      simp [hok.2 s hs'] at hbefore
    · -- The caller is the leader, so the mailbox that is emptied is its own.
      have hdir := dirInv_of_leaderExecs (hr.mono fun _ _ => leaderExecs_of_alone)
      have hL : (k.proc s).process = some s :=
        hdir.exec_leads s .taken (by simp [Kernel.group, hpc, Pc.job]) trivial
      simp [Kernel.signals, hL, Kernel.sent, hpc, Signal.apply]

/-- The runs that begin in a state. -/
abbrev onwards (k : Kernel) : Transition.System Kernel Label :=
  ⟨(· = k), fun k l k' => k.next l = some k'⟩

/-- The slot is not given back. -/
abbrev keepsSlot (t : Slot) : Kernel → Label → Prop := fun k _ => (k.proc t).state ≠ .unused

theorem Group.Step.published_stays {ι : Type*} [DecidableEq ι] [Fintype ι] {a a' : Group.Table ι}
    {m : Group.Move ι} {s : ι} (hinv : Inv a) (hst : Step a m a') (hs : a.Published s)
    (huse : a'.phase s ≠ .unused) :
    a'.Published s ∧ a'.tgid s = a.tgid s ∧ a'.process s = a.process s := by
  cases hphase : a'.phase s with
  | unused => exact absurd hphase huse
  | embryo =>
    rcases hst.embryo hinv hphase with ⟨h, -⟩ | ⟨h, -⟩ <;> simp [Group.Table.Published, h] at hs
  | live =>
    refine ⟨.inl hphase, ?_⟩
    rcases hst.live hinv hphase with ⟨-, htgid, hprocess⟩ | ⟨t, kd, -, -, htgid, hprocess⟩
    · exact ⟨htgid, hprocess⟩
    · exact ⟨htgid, hprocess⟩
  | zombie =>
    obtain ⟨htgid, hprocess, -⟩ := hst.zombie hinv hphase
    exact ⟨.inr hphase, htgid, hprocess⟩

theorem published_of_onwards {k₁ : Kernel} (hr : Reachable k) (hpub : k.group.Published t)
    (h : Reach (onwards k) (keepsSlot t) k₁) (huse : (k₁.proc t).state ≠ .unused) :
    Inv k₁.group ∧ k₁.group.Published t ∧ (k₁.proc t).tgid = (k.proc t).tgid ∧
      (k₁.proc t).process = (k.proc t).process := by
  have hall : Reachable k₁ ∧ ((k₁.proc t).state ≠ .unused → k₁.group.Published t ∧
      (k₁.proc t).tgid = (k.proc t).tgid ∧ (k₁.proc t).process = (k.proc t).process) := by
    refine h.invariant (P := fun k₁ => Reachable k₁ ∧ ((k₁.proc t).state ≠ .unused →
      k₁.group.Published t ∧ (k₁.proc t).tgid = (k.proc t).tgid ∧
        (k₁.proc t).process = (k.proc t).process)) ?_ ?_
    · rintro k₁ rfl
      exact ⟨hr, fun _ => ⟨hpub, rfl, rfl⟩⟩
    · rintro k₁ l k₂ - ⟨hr₁, hstays⟩ huse₁ hnext
      obtain ⟨hpub₁, htgid, hprocess⟩ := hstays huse₁
      refine ⟨hr₁.step trivial hnext, fun huse₂ => ?_⟩
      rcases Kernel.next_follows (Kernel.inv_of_reachable hr₁) hnext with heq | ⟨m, -, hst⟩
      · have hgroup : k₂.group = k₁.group := heq
        have htgid₂ : (k₂.proc t).tgid = (k₁.proc t).tgid :=
          congrFun (congrArg Group.Table.tgid hgroup) t
        have hprocess₂ : (k₂.proc t).process = (k₁.proc t).process :=
          congrFun (congrArg Group.Table.process hgroup) t
        exact ⟨hgroup ▸ hpub₁, htgid₂.trans htgid, hprocess₂.trans hprocess⟩
      · obtain ⟨hpub₂, htgid₂, hprocess₂⟩ := hst.published_stays (Kernel.inv_of_reachable hr₁) hpub₁
          (fun hphase => huse₂ (ProcState.phase_eq_unused.mp hphase))
        exact ⟨hpub₂, htgid₂.trans htgid, hprocess₂.trans hprocess⟩
  exact ⟨Kernel.inv_of_reachable hall.1, hall.2 huse⟩

theorem wait_returns_tgid {u M L : Slot} (hinv : Inv k.group) (hpub : k.group.Published t)
    (hL : (k.proc t).process = some L) (hdead : (k.proc L).threadcount = 0)
    (hhalt : k.halted = none) (hrun : (k.proc u).state = .running) (hpc : k.pc u = .wait)
    (hkilled : (k.proc u).killed = false) (hM : (k.proc u).process = some M)
    (hparent : (k.proc t).parent = some M) :
    ∃ p, k.waitFound M = some p ∧ ((k.proc p).tgid = (k.proc t).tgid →
      ∃ k', k.next (.step u e) = some k' ∧ k'.pc u = .ret (k.proc t).tgid) := by
  have hfound : (k.waitFound M).isSome := by
    unfold Kernel.waitFound
    rw [Fin.isSome_find?_iff]
    exact ⟨t, by simp [Kernel.childOf, hparent, Kernel.groupDead, hL, hdead]⟩
  obtain ⟨p, hp⟩ := Option.isSome_iff_exists.mp hfound
  refine ⟨p, hp, fun htgid => ⟨k.waitStep u M, ?_, ?_⟩⟩
  · simp [Kernel.next, hhalt, hrun, hM, hpc, Kernel.callStep]
  · have hzombie : ∀ s, (k.proc s).tgid = (k.proc p).tgid → (k.proc s).state = .zombie :=
      fun s hs => ProcState.phase_eq_zombie.mp
        (hinv.zombie_of_count_zero hpub hL hdead s (hs.trans htgid))
    have hkids : ∃ p, k.childOf M p := ⟨t, by simp [Kernel.childOf, hparent]⟩
    simp only [Kernel.waitStep, hkids, not_true, hkilled, Bool.false_eq_true, or_self, if_false,
      hp, Kernel.reapGroup, if_pos hzombie]
    exact (Function.update_self ..).trans (by rw [htgid])

/-- **Exec takes the process over.** In a run in which only leaders get behind the waiting loop
of `exec`, and no `unpark` finds a thread that is loading its image: when `exec` returns 0, its
caller has the number of the process as its pid, the process has the size of the new image and
one thread, and the caller has no wakeup for the old image. When the process is dead later and
a thread of its parent calls `wait`, the call returns the number of the process, unless it
finds another child first. -/
theorem exec_takes_process {image sz : ℕ} (h : ReachableBy leaderExecsAlone k)
    (hpc : k.pc t = .exec (.commit image sz)) (hnext : k.next (.step t e) = some k') :
    k'.pc t = .ret 0 ∧ ∃ L, (k'.proc t).process = some L ∧
      (k'.proc t).pid = (k'.proc t).tgid ∧ (k'.proc L).sz = sz ∧ (k'.proc L).threadcount = 1 ∧
      (k'.proc t).lostwakeup = .null ∧
      ∀ k₁, Reach (onwards k') (keepsSlot t) k₁ → (k₁.proc t).state ≠ .unused →
        (k₁.proc L).threadcount = 0 → ∀ u M e, k₁.halted = none → (k₁.proc u).state = .running →
        k₁.pc u = .wait → (k₁.proc u).killed = false → (k₁.proc u).process = some M →
        (k₁.proc t).parent = some M →
        ∃ p, k₁.waitFound M = some p ∧ ((k₁.proc p).tgid = (k'.proc t).tgid →
          ∃ k₂, k₁.next (.step u e) = some k₂ ∧ k₂.pc u = .ret (k'.proc t).tgid) := by
  have hinv := Kernel.inv_of_reachable h
  have hdir := dirInv_of_leaderExecs (h.mono fun _ _ => leaderExecs_of_alone)
  have hjob : k.group.job t = .exec (.loaded image) := by simp [Kernel.group, hpc, Pc.job]
  have hleads : (k.proc t).process = some t := hdir.exec_leads t _ hjob trivial
  have hlive : k.group.phase t = .live := hinv.job_live t (by simp [hjob])
  have hpid : (k.proc t).pid = (k.proc t).tgid := hdir.lead_pid t (.inl hlive) hleads
  have hmail := mailbox_of_loading h t (by rw [hpc]; rfl)
  -- The caller is the only live thread of its group.
  have hcount : (k.proc t).threadcount = 1 := by
    have hmembers : k.group.members t = {t} := by
      ext s
      simp only [Group.Table.members, Finset.mem_filter, Finset.mem_univ, true_and,
        Finset.mem_singleton]
      constructor
      · rintro ⟨hs, hprocess⟩
        by_contra hne
        have hzombie := hinv.exec_alone t _ hjob (by simp) s hne (hprocess.trans hleads.symm)
        simp [hs] at hzombie
      · rintro rfl
        exact ⟨hlive, hleads⟩
    have hcard := hinv.count t hleads
    rwa [hmembers, Finset.card_singleton] at hcard
  obtain ⟨hrun, L, -, hcall⟩ := Kernel.callStep_of_next hinv hnext
  rw [hpc] at hcall
  have hproc : k'.proc t = { k.proc t with pgdir := some image, sz := sz } := by
    cases hcall
    exact Function.update_self ..
  have hret : k'.pc t = .ret 0 := by
    cases hcall
    exact Function.update_self ..
  have hr' : Reachable k' := (h.mono fun _ _ _ => trivial).step trivial hnext
  have hpub' : k'.group.Published t := .inl (by simpa [Kernel.group, hproc] using hlive)
  refine ⟨hret, t, by rw [hproc]; exact hleads, by rw [hproc]; exact hpid, by rw [hproc],
    by rw [hproc]; exact hcount, by rw [hproc]; exact hmail, ?_⟩
  intro k₁ hk₁ huse hdead u M e hhalt hrun hwait hkilled hM hparent
  obtain ⟨hinv₁, hpub₁, htgid, hprocess⟩ := published_of_onwards hr' hpub' hk₁ huse
  have hL₁ : (k₁.proc t).process = some t := hprocess.trans (by rw [hproc]; exact hleads)
  rw [← htgid]
  exact wait_returns_tgid hinv₁ hpub₁ hL₁ hdead hhalt hrun hwait hkilled hM hparent

set_option maxRecDepth 8000 in
/-- A process with one thread calls `exec`. -/
theorem exec_takes_process_forked : ∃ k k', runScriptBy leaderExecsAlone (.schedule 0 ::
      calls 0 .fork 9 ++ .schedule 1 :: calls 1 .exec 6 ++ [.step 1 { elf := some tinyElf }]) =
        some k ∧
      k.next (.step 1 {}) = some k' ∧ k'.pc 1 = .ret 0 ∧
      ∃ L, (k'.proc 1).process = some L ∧ (k'.proc L).sz = 12288 := by
  obtain ⟨k, hk, hr, hpc, hhalt, hrun, hL⟩ := exists_of_runScriptBy leaderExecsAlone
    (.schedule 0 :: calls 0 .fork 9 ++ .schedule 1 :: calls 1 .exec 6 ++
      [.step 1 { elf := some tinyElf }])
    (fun k => k.pc 1 = .exec (.commit 4 12288) ∧ k.halted = none ∧ (k.proc 1).state = .running ∧
      (k.proc 1).process = some 1) (by decide)
  have hnext : k.next (.step 1 {}) = some (k.execStep 1 1 {} (.commit 4 12288)) := by
    simp [Kernel.next, hhalt, hrun, hL, hpc, Kernel.callStep]
  obtain ⟨hret, L, hprocess, -, hsz, -⟩ := exec_takes_process hr hpc hnext
  exact ⟨k, _, hk, hnext, hret, L, hprocess, hsz⟩

/-- A thread that is not the leader calls `exec`, with a wakeup in its mailbox. When `exec`
returns 0, the process has the size of the old image, and the wakeup is still there. -/
theorem exec_leaves_old_size :
    ∃ k, Reachable k ∧ k.pc 2 = .ret 0 ∧ (k.proc 2).process = some 1 ∧ (k.proc 2).sz = 12288 ∧
      (k.proc 1).sz = 4096 ∧ (k.proc 2).lostwakeup = .addr 7 := by
  obtain ⟨k, -, hr, hobs⟩ := exists_of_runScript
    (.schedule 0 :: calls 0 .fork 9 ++ .schedule 1 :: calls 1 (.clone 4096) 9 ++
      calls 1 (.unpark 3 (.addr 7)) 2 ++ .schedule 2 :: calls 2 .exec 1 ++
      .interrupt 1 :: steps 1 3 ++ steps 2 5 ++ .step 2 { elf := some tinyElf } :: steps 2 1)
    (fun k => k.pc 2 = .ret 0 ∧ (k.proc 2).process = some 1 ∧ (k.proc 2).sz = 12288 ∧
      (k.proc 1).sz = 4096 ∧ (k.proc 2).lostwakeup = .addr 7) (by decide +kernel)
  exact ⟨k, hr, hobs⟩

end KThreads
