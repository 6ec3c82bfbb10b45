import KThreads.Group.Refinement

/-!
# Live threads and exec

What the group bookkeeping says about the kernel in every state of every run:
the counter of a leader is the number of live threads of its group, and a
thread past the killed check of `exec` has the group for itself.
-/

namespace KThreads

/-- The states of a thread that is alive. -/
def ProcState.isLive : ProcState → Bool
  | .sleeping | .runnable | .running => true
  | .unused | .embryo | .zombie => false

theorem ProcState.phase_eq_live {q : ProcState} : q.phase = .live ↔ q.isLive = true := by
  cases q <;> simp [phase, isLive]

theorem ProcState.phase_eq_zombie {q : ProcState} : q.phase = .zombie ↔ q = .zombie := by
  cases q <;> simp [phase]

theorem ProcState.phase_eq_unused {q : ProcState} : q.phase = .unused ↔ q = .unused := by
  cases q <;> simp [phase]

theorem ProcState.phase_eq_embryo {q : ProcState} : q.phase = .embryo ↔ q = .embryo := by
  cases q <;> simp [phase]

/-- The live threads of the process with the leader slot `L`. -/
def Kernel.liveThreads (k : Kernel) (L : Slot) : Finset Slot :=
  Finset.univ.filter fun s => (k.proc s).process = some L ∧ (k.proc s).state.isLive

variable {k : Kernel}

theorem Kernel.members_group (L : Slot) : k.group.members L = k.liveThreads L := by
  ext s
  simp [Group.Table.members, Kernel.liveThreads, Kernel.group, ProcState.phase_eq_live, and_comm]

/-- **Thread counter.** In every reachable state the counter of a leader slot is
the number of live threads of its group. It is positive whenever a thread is
about to decrement it, far from the largest `uint`, and zero exactly when the
group has no live thread. -/
theorem threadcount_eq_card_liveThreads (h : Reachable k) {s L : Slot}
    (hL : (k.proc s).process = some L) :
    (k.proc L).threadcount = (k.liveThreads L).card ∧
      (∀ t, k.pc t = .exit .zombie → (k.proc t).process = some L →
        0 < (k.proc L).threadcount) ∧
      (k.proc L).threadcount ≤ NPROC ∧
      ((k.proc L).threadcount = 0 ↔
        ∀ t, (k.proc t).process = some L → (k.proc t).state.isLive = false) := by
  have hinv := Kernel.inv_of_reachable h
  have hcard : (k.proc L).threadcount = (k.liveThreads L).card := by
    rw [← Kernel.members_group]
    by_cases hs : s = L
    · exact hinv.count L (hs ▸ hL)
    · exact hinv.count L (hinv.leader_of hL hs).2.1
  refine ⟨hcard, fun t hpc ht => ?_, ?_, ?_⟩
  · have hlive := hinv.job_live t (by simp [Kernel.group, hpc, Pc.job])
    exact hinv.threadcount_pos hlive ht
  · exact (hinv.threadcount_le hL).trans (by simp)
  · rw [hcard, Finset.card_eq_zero, Kernel.liveThreads, Finset.filter_eq_empty_iff]
    simp

/-- After the first process has cloned a thread, its counter is two. -/
theorem threadcount_after_clone :
    ∃ k, runScript (.schedule 0 :: calls 0 (.clone 4096) 9) = some k ∧
      (k.proc 0).threadcount = 2 ∧ (k.liveThreads 0).card = 2 := by
  obtain ⟨k, hk, hr, hprocess, hcount⟩ := exists_of_runScript
    (.schedule 0 :: calls 0 (.clone 4096) 9)
    (fun k => (k.proc 0).process = some 0 ∧ (k.proc 0).threadcount = 2) (by decide)
  refine ⟨k, hk, hcount, ?_⟩
  rw [← (threadcount_eq_card_liveThreads hr hprocess).1, hcount]

/-- The points of `exec` behind its killed check. -/
def Pc.inExec : Pc → Bool
  | .exec .mark => false
  | .exec _ => true
  | _ => false

/-- The points of `exec` behind its waiting loop. -/
def Pc.pastLoop : Pc → Bool
  | .exec .mark | .exec .wait => false
  | .exec _ => true
  | _ => false

theorem Pc.inExec_job {c : Pc} (h : c.inExec) : ∃ x, c.job = .exec x := by
  cases c with
  | exec c => cases c <;> first | exact absurd h (by decide) | exact ⟨_, rfl⟩
  | _ => cases h

theorem Pc.pastLoop_job {c : Pc} (h : c.pastLoop) : ∃ x, c.job = .exec x ∧ x ≠ .waiting := by
  cases c with
  | exec c => cases c <;> first | exact absurd h (by decide) | exact ⟨_, rfl, by simp⟩
  | _ => cases h

/-- **Exec has the group for itself.** While a thread is behind the killed check
of `exec`, no other thread of its group is, and every other live thread of the
group has been marked; a thread that a sibling is just creating is published as
a zombie. Once the waiting loop is left, every other slot of the group is a
zombie and no other thread of the group is creating one. -/
theorem exec_excludes_siblings (h : Reachable k) {t : Slot} (ht : (k.pc t).inExec) :
    (∀ u, (k.pc u).inExec → (k.proc u).tgid = (k.proc t).tgid → u = t) ∧
      (∀ s, s ≠ t → (k.proc s).tgid = (k.proc t).tgid → (k.proc s).state.isLive →
        (k.proc s).killed = true) ∧
      (∀ u np e k', u ≠ t → (k.proc u).tgid = (k.proc t).tgid → k.pc u = .clone (.publish np) →
        k.next (.step u e) = some k' → (k'.proc np).state = .zombie) ∧
      ((k.pc t).pastLoop → ∀ s, s ≠ t →
        (k.proc s).tgid = (k.proc t).tgid ∨ (k.proc s).process = (k.proc t).process →
        (k.proc s).state = .zombie ∧ (k.pc s).job = .none) := by
  have hinv := Kernel.inv_of_reachable h
  obtain ⟨x, hx⟩ := Pc.inExec_job ht
  have hlive : k.group.phase t = .live := hinv.job_live t (by simp [Kernel.group, hx])
  -- A slot that carries the number of the group belongs to it.
  have hgroup : ∀ s, (k.proc s).tgid = (k.proc t).tgid →
      (k.proc s).process = (k.proc t).process :=
    fun s hs => hinv.tgid_process s t (Or.inl hlive) hs
  have hkilled : ∀ s, s ≠ t → (k.proc s).tgid = (k.proc t).tgid → k.group.phase s = .live →
      (k.proc s).killed = true :=
    fun s hne hs hphase => hinv.exec_killed t x hx s hne hphase (hgroup s hs)
  refine ⟨fun u hu hs => ?_, fun s hne hs hl => ?_, fun u np e k' hne hs hpc hstep => ?_,
    fun hp s hne hs => ?_⟩
  · obtain ⟨y, hy⟩ := Pc.inExec_job hu
    exact hinv.exec_unique u t y x hy hx (hgroup u hs)
  · exact hkilled s hne hs (ProcState.phase_eq_live.mpr hl)
  · have hk : (k.proc u).killed = true :=
      hkilled u hne hs (hinv.job_live u (by simp [Kernel.group, hpc, Pc.job]))
    obtain ⟨-, hcall⟩ := Option.ite_none_right_eq_some.mp hstep
    obtain ⟨L, hL, -⟩ := hinv.leader u (Or.inl (hinv.job_live u (by
      simp [Kernel.group, hpc, Pc.job])))
    have hprocess : (k.proc u).process = some L := hL
    simp only [hprocess, hpc, Kernel.callStep, Kernel.cloneStep, hk, if_true,
      Option.some.injEq] at hcall
    simp [← hcall, Kernel.ret, Kernel.goto, Kernel.modify]
  · obtain ⟨y, hy, hyne⟩ := Pc.pastLoop_job hp
    have hzombie : k.group.phase s = .zombie :=
      hinv.exec_alone t y hy hyne s hne (hs.elim (hgroup s) id)
    refine ⟨ProcState.phase_eq_zombie.mp hzombie, ?_⟩
    by_contra hjob
    simp [hinv.job_live s hjob] at hzombie

/-- A thread cloned before the first process enters `exec` has been marked when
the process waits for it. -/
theorem exec_marks_clone :
    ∃ k, runScript (.schedule 0 :: calls 0 (.clone 4096) 9 ++ calls 0 .exec 1) = some k ∧
      k.pc 0 = .exec .wait ∧ (k.proc 1).killed = true := by
  obtain ⟨k, hk, hr, hpc, hgroup, hl⟩ := exists_of_runScript
    (.schedule 0 :: calls 0 (.clone 4096) 9 ++ calls 0 .exec 1)
    (fun k => k.pc 0 = .exec .wait ∧ (k.proc 1).tgid = (k.proc 0).tgid ∧
      (k.proc 1).state.isLive) (by decide)
  have hexec := exec_excludes_siblings hr (t := 0) (by rw [hpc]; rfl)
  exact ⟨k, hk, hpc, hexec.2.1 1 (by decide) hgroup hl⟩

end KThreads
