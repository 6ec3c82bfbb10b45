import KThreads.Threads
import KThreads.Halts

/-!
# Wait

`wait` takes a child whose counter is zero for a group whose threads are all
dead. A slot that `fork` is still filling in has a counter of zero as well, and
its parent is set before it is published, so the scan can stop at it. Whenever
it does not, the group that is reaped consists of zombies.
-/

namespace KThreads

open Group (Inv)

variable {k k' : Kernel} {t L p : Slot} {e : Env}

/-- The scan of `wait` does not stop at a slot that is under construction. -/
abbrev waitSkipsEmbryos : Kernel → Label → Prop := onStep fun k t =>
  k.pc t = .wait →
    ∀ p ∈ (k.proc t).process.bind k.waitFound, (k.proc p).state ≠ .embryo

theorem zombie_of_waitFound (hinv : Inv k.group) (hp : k.waitFound L = some p)
    (hne : (k.proc p).state ≠ .embryo) :
    ∀ s, (k.proc s).tgid = (k.proc p).tgid → (k.proc s).state = .zombie := by
  obtain ⟨hparent, M, hM, hzero⟩ := Kernel.waitFound_spec hp
  have hpub : k.group.Published p := by
    cases hphase : k.group.phase p with
    | live => exact Or.inl hphase
    | zombie => exact Or.inr hphase
    | embryo => exact absurd (ProcState.phase_eq_embryo.mp hphase) hne
    | unused =>
      have hnone : (k.proc p).parent = none := (hinv.unused_parent p hphase).1
      simp [hnone] at hparent
  exact fun s hs => ProcState.phase_eq_zombie.mp (hinv.zombie_of_count_zero hpub hM hzero s hs)

theorem not_undead (h : ReachableBy waitSkipsEmbryos k) : k.halted ≠ some (.panic .undead) := by
  refine h.invariant (P := fun k => k.halted ≠ some (.panic .undead)) ?_ ?_
  · rintro k rfl
    simp [userinit]
  · intro k l k' hr _ hok hstep hx
    obtain ⟨hk, hnull | hinit | ⟨t, L, e, rfl, -, hL, hcall, hmay⟩⟩ := Kernel.next_halted hstep hx
    · cases hnull
    · cases hinit
    · -- Only `wait` panics this way, and then it has found a slot to stop at.
      generalize hpc : k.pc t = c at hmay hcall
      cases hmay
      obtain ⟨-, p, hp, -, s, hs, hstate⟩ :=
        Kernel.waitStep_halted hk (by rw [Option.some.inj hcall]; exact hx)
      have hne := hok hpc p (by simp [hL, hp])
      exact hstate (zombie_of_waitFound (Kernel.inv_of_reachable hr) hp hne s hs)

/-- **Wait reaps dead groups.** In a run in which no scan of `wait` stops at a
slot under construction, `wait` never finds a group undead; the slots of the
group it has chosen are all zombies, and it gives back exactly these. -/
theorem wait_reaps_zombie_group (h : ReachableBy waitSkipsEmbryos k) :
    k.halted ≠ some (.panic .undead) ∧
      ∀ t L p e, k.halted = none → (k.proc t).state = .running → k.pc t = .wait →
        (k.proc t).process = some L → (k.proc t).killed = false → k.waitFound L = some p →
        waitSkipsEmbryos k (.step t e) →
        (∀ s, (k.proc s).tgid = (k.proc p).tgid → (k.proc s).state = .zombie) ∧
          ∃ k', k.next (.step t e) = some k' ∧
            ∀ s, k'.proc s =
              if (k.proc s).tgid = (k.proc p).tgid then Kernel.reaped (k.proc s) else k.proc s := by
  refine ⟨not_undead h, fun t L p e hk hrun hpc hL hkilled hp hok => ?_⟩
  have hzombie := zombie_of_waitFound (Kernel.inv_of_reachable h) hp
    (hok hpc p (by simp [hL, hp]))
  refine ⟨hzombie, k.waitStep t L, ?_, fun s => ?_⟩
  · simp [Kernel.next, hk, hrun, hL, hpc, Kernel.callStep]
  · obtain ⟨hparent, -⟩ := Kernel.waitFound_spec hp
    have hkids : ∃ p, k.childOf L p := ⟨p, by simp [Kernel.childOf, hparent]⟩
    simp only [Kernel.waitStep, hkids, not_true, hkilled, Bool.false_eq_true, or_self, if_false,
      hp, Kernel.reapGroup, if_pos hzombie]
    rfl

/-- A child that has exited is reaped by its parent, and its slot is unused. -/
theorem wait_reaps_child :
    ∃ k k', runScriptBy waitSkipsEmbryos (.schedule 0 :: calls 0 .fork 9 ++ .schedule 1 ::
        calls 1 .exit 4 ++ [.syscall 0 .wait]) = some k ∧
      k.next (.step 0 {}) = some k' ∧ (k.proc 1).state = .zombie ∧
      (k'.proc 1).state = .unused := by
  obtain ⟨k, hk, hr, hhalt, hstate, hpc, hL, hkilled, hp, hz⟩ := exists_of_runScriptBy
    waitSkipsEmbryos
    (.schedule 0 :: calls 0 .fork 9 ++ .schedule 1 :: calls 1 .exit 4 ++ [.syscall 0 .wait])
    (fun k => k.halted = none ∧ (k.proc 0).state = .running ∧ k.pc 0 = .wait ∧
      (k.proc 0).process = some 0 ∧ (k.proc 0).killed = false ∧ k.waitFound 0 = some 1 ∧
      (k.proc 1).state = .zombie) (by decide +kernel)
  have hok : waitSkipsEmbryos k (.step 0 {}) := by
    intro _ p hp'
    simp only [hL, Option.bind_some, hp, Option.mem_def, Option.some.injEq] at hp'
    simp [← hp', hz]
  obtain ⟨-, k', hnext, hproc⟩ := (wait_reaps_zombie_group hr).2 0 0 1 {} hhalt
    hstate hpc hL hkilled hp hok
  exact ⟨k, k', hk, hnext, hz, by simp [hproc, Kernel.reaped]⟩

/-- A thread that waits while its sibling is inside `fork` finds the slot that
the sibling is filling in, and panics. -/
theorem wait_undead_during_fork :
    ∃ k, Reachable k ∧ k.halted = some (.panic .undead) := by
  obtain ⟨k, -, hr, hhalt⟩ := exists_of_runScript
    (.schedule 0 :: calls 0 (.clone 4096) 9 ++ calls 0 .fork 7 ++
      .schedule 1 :: calls 1 .wait 1)
    (fun k => k.halted = some (.panic .undead)) (by decide +kernel)
  exact ⟨k, hr, hhalt⟩

end KThreads
