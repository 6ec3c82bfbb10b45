import KThreads.Group.Refinement

/-!
# What a step of one thread does to the others

A thread takes its system calls through the kernel by itself: a step of another
one neither moves it nor puts it to sleep. It may be woken or marked, and a slot
under construction may be published.
-/

namespace KThreads

/-- The slot that a thread publishes from a point of the kernel. -/
def Pc.publishes : Pc → Option Slot
  | .fork (.publish np) | .clone (.publish np) => some np
  | _ => none

/-- A thread may fall asleep in its next step from a point of the kernel. -/
def Pc.sleeps : Pc → Bool
  | .wait | .join _ | .joinWait _ _ | .exec .wait | .park _ => true
  | _ => false

namespace Kernel

/-- From `k` to `k'` the threads other than `t` stay where they are, apart from a
slot `np` that is published; and no thread falls asleep, or is marked and sleeps on,
apart from `t` where it `may` fall asleep. -/
structure Spares (np : Option Slot) (may : Prop) (t : Slot) (k k' : Kernel) : Prop where
  pc : ∀ u, u ≠ t → k'.pc u = k.pc u ∨
    np = some u ∧ k'.pc u = .user ∧ (k'.proc u).state ≠ .sleeping
  asleep : ∀ u, (may → u ≠ t) → (k'.proc u).state = .sleeping →
    (k.proc u).state = .sleeping ∧ (k'.proc u).killed = (k.proc u).killed

variable {k k₁ k' : Kernel} {np : Option Slot} {may : Prop} {t L s : Slot} {e : Env} {pid : ℤ}
  {f : Proc → Proc} {next : Kernel → Kernel}

namespace Spares

theorem of_eq (hproc : k'.proc = k.proc) (hpc : k'.pc = k.pc) : Spares np may t k k' where
  pc u _ := Or.inl (by rw [hpc])
  asleep u _ hu := by
    rw [hproc] at hu ⊢
    exact ⟨hu, rfl⟩

theorem refl : Spares np may t k k := .of_eq (by rfl) (by rfl)

theorem goto (h : Spares np may t k k₁) (c : Pc) : Spares np may t k (k₁.goto t c) where
  pc u hu := by
    have hpc : (k₁.goto t c).pc u = k₁.pc u := Function.update_of_ne hu _ _
    rw [hpc]
    exact h.pc u hu
  asleep := h.asleep

theorem ret (h : Spares np may t k k₁) (r : ℤ) : Spares np may t k (k₁.ret t r) := h.goto _

theorem procs (h : Spares np may t k k₁) (hpc : k'.pc = k₁.pc)
    (hproc : ∀ u, (may → u ≠ t) → (k'.proc u).state = .sleeping →
      (k₁.proc u).state = .sleeping ∧ (k'.proc u).killed = (k₁.proc u).killed) :
    Spares np may t k k' where
  pc u hu := by
    rw [hpc]
    refine (h.pc u hu).imp_right fun ⟨hnp, huser, hawake⟩ => ⟨hnp, huser, fun hs => ?_⟩
    exact hawake (hproc u (fun _ => hu) hs).1
  asleep u hu hs := by
    obtain ⟨hs₁, hkilled⟩ := hproc u hu hs
    obtain ⟨hs₀, hkilled₀⟩ := h.asleep u hu hs₁
    exact ⟨hs₀, hkilled.trans hkilled₀⟩

theorem modify (h : Spares np may t k k₁)
    (hf : (may → s ≠ t) → (f (k₁.proc s)).state = .sleeping →
      (k₁.proc s).state = .sleeping ∧ (f (k₁.proc s)).killed = (k₁.proc s).killed) :
    Spares np may t k (k₁.modify s f) := by
  refine h.procs rfl fun u hu hs => ?_
  by_cases hus : u = s
  · subst hus
    simp only [Kernel.modify, Function.update_self] at hs ⊢
    exact hf hu hs
  · simp only [Kernel.modify, Function.update_of_ne hus, and_true] at hs ⊢
    exact hs

theorem assign (h : Spares np may t k k₁)
    (hstate : (f (k₁.proc s)).state = (k₁.proc s).state)
    (hkilled : (f (k₁.proc s)).killed = (k₁.proc s).killed) :
    Spares np may t k (k₁.modify s f) :=
  h.modify fun _ hs => ⟨hstate ▸ hs, hkilled⟩

theorem rouse (h : Spares np may t k k₁)
    (hf : (f (k₁.proc s)).state ≠ .sleeping) : Spares np may t k (k₁.modify s f) :=
  h.modify fun _ hs => absurd hs hf

theorem wakeup1 (h : Spares np may t k k₁) (ch : Chan) : Spares np may t k (k₁.wakeup1 ch) := by
  refine h.procs rfl fun u _ hs => ?_
  simp only [Kernel.wakeup1] at hs ⊢
  split at hs
  · cases hs
  · next hne =>
    rw [if_neg hne]
    exact ⟨hs, rfl⟩

theorem reparent (h : Spares np may t k k₁) : Spares np may t k (k₁.reparent s) := by
  have hparents : ∀ p : Slot → Proc, (∀ u, (p u).state = (k₁.proc u).state ∧
      (p u).killed = (k₁.proc u).killed) → Spares np may t k { k₁ with proc := p } :=
    fun p hp => h.procs rfl fun u _ hs => ⟨(hp u).1 ▸ hs, (hp u).2⟩
  unfold Kernel.reparent
  split
  · exact (hparents _ fun u => by split <;> exact ⟨rfl, rfl⟩).wakeup1 _
  · exact hparents _ fun u => by split <;> exact ⟨rfl, rfl⟩

theorem publish (h : Spares np may t k k₁) (hnp : np = some s)
    (hs : (k₁.proc s).state ≠ .sleeping) : Spares np may t k (k₁.goto s .user) where
  pc u hu := by
    by_cases hus : u = s
    · subst hus
      exact Or.inr ⟨hnp, Function.update_self .., hs⟩
    · have hpc : (k₁.goto s .user).pc u = k₁.pc u := Function.update_of_ne hus _ _
      rw [hpc]
      exact h.pc u hu
  asleep := h.asleep

theorem setFile (h : Spares np may t k k₁) (fd : Fd) (f : Option File) :
    Spares np may t k (k₁.setFile s fd f) :=
  h.assign rfl rfl

theorem filedup {f : File}
    (hnext : ∀ r, Spares np may t k (next { k with ref := r })) :
    Spares np may t k (k.filedup f next) := by
  unfold Kernel.filedup
  split
  · exact .of_eq (by rfl) (by rfl)
  · exact hnext _

theorem fileclose {f : File}
    (hnext : ∀ r, Spares np may t k (next { k with ref := r })) :
    Spares np may t k (k.fileclose f next) := by
  unfold Kernel.fileclose
  split
  · exact .of_eq (by rfl) (by rfl)
  · exact hnext _

end Spares

theorem spares_allocproc {next : Slot → Pc} : Spares np may t k (k.allocproc t next) := by
  unfold allocproc
  split
  · exact .ret .refl _
  · split
    · exact .of_eq (by rfl) (by rfl)
    · refine .goto (.rouse (.of_eq (by rfl) (by rfl)) (by nofun)) _

theorem spares_allocKstack {p : Slot} {fields : Proc → Proc} {next : Pc}
    (hstate : ∀ q, (fields q).state = q.state) (hkilled : ∀ q, (fields q).killed = q.killed) :
    Spares np may t k (k.allocKstack t p e fields next) := by
  unfold allocKstack
  split
  · exact .ret (.rouse .refl (by nofun)) _
  · exact .goto (.assign (.of_eq (by rfl) (by rfl)) (by exact hstate _) (by exact hkilled _)) _

theorem spares_dupFiles {fds : List Fd} {store : Fd → File → List Fd → Pc} {done : Pc} :
    Spares np may t k (k.dupFiles t fds store done) := by
  unfold dupFiles
  split
  · exact .goto .refl _
  · exact .filedup fun r => .goto (.of_eq (by rfl) (by rfl)) _

theorem spares_forkStep {c : ForkPc} :
    Spares (Pc.fork c).publishes may t k (k.forkStep t L e c) := by
  cases c with
  | alloc => exact spares_allocproc
  | init p =>
    rw [forkStep]
    exact spares_allocKstack (fun _ => rfl) fun _ => rfl
  | copy p =>
    simp only [forkStep]
    split
    · exact .of_eq (by rfl) (by rfl)
    · exact .ret (.rouse (.of_eq (by rfl) (by rfl)) (by simp)) _
    · exact .goto (.assign (.of_eq (by rfl) (by rfl)) (by rfl) (by rfl)) _
  | parent p => exact .goto (.assign (.of_eq (by rfl) (by rfl)) (by rfl) (by rfl)) _
  | files p fds => exact spares_dupFiles
  | file p fd f fds => exact .goto (.setFile .refl _ _) _
  | cwd p => exact .goto .refl _
  | idup p cwd => exact .goto (.assign (.of_eq (by rfl) (by rfl)) (by rfl) (by rfl)) _
  | publish p =>
    refine .ret (.publish (.rouse .refl (by simp)) rfl ?_) _
    simp [modify]

theorem spares_cloneStep {c : ClonePc} :
    Spares (Pc.clone c).publishes may t k (k.cloneStep t L e c) := by
  cases c with
  | check stack =>
    simp only [cloneStep]
    split
    · exact .ret .refl _
    · exact .goto .refl _
  | alloc => exact spares_allocproc
  | init p =>
    rw [cloneStep]
    exact spares_allocKstack (fun _ => rfl) fun _ => rfl
  | pgdir p | parent p | setParent p q => exact .goto (.assign .refl (by rfl) (by rfl)) _
  | files p fds => exact spares_dupFiles
  | file p fd f fds => exact .goto (.setFile .refl _ _) _
  | publish p =>
    simp only [cloneStep]
    split
    · exact .ret (.rouse .refl (by simp)) _
    · refine .ret (.publish (.assign (.rouse .refl (by simp)) rfl rfl) rfl ?_) _
      simp only [modify, Function.update_apply]
      split <;> simp_all

theorem spares_enterExit : Spares np may t k (k.enterExit t) := by
  unfold enterExit
  split
  · exact .of_eq (by rfl) (by rfl)
  · exact .goto .refl _

theorem spares_exitStep {c : ExitPc} : Spares np may t k (k.exitStep t L c) := by
  cases c with
  | close fds =>
    simp only [exitStep]
    split
    · exact .goto .refl _
    · exact .fileclose fun r => .goto (.of_eq (by rfl) (by rfl)) _
  | clear fd fds => exact .goto (.setFile .refl _ _) _
  | count => exact .goto .refl _
  | iput => exact .goto (.assign (.of_eq (by rfl) (by rfl)) (by rfl) (by rfl)) _
  | zombie =>
    refine .goto (.rouse (.reparent (.assign (.wakeup1 (.wakeup1 .refl _) _) rfl rfl)) (by simp)) _

theorem spares_sleep {ch : Chan} (hmay : may) : Spares np may t k (k.sleep t ch) :=
  .modify .refl fun ht => absurd rfl (ht hmay)

theorem spares_waitStep (hmay : may) : Spares np may t k (k.waitStep t L) := by
  unfold waitStep
  split
  · exact .ret .refl _
  · split
    · exact spares_sleep hmay
    · unfold reapGroup
      split
      · refine .ret (.procs .refl (by rfl) fun u _ hs => ?_) _
        simp only at hs ⊢
        split at hs
        · cases hs
        · next hne =>
          rw [if_neg hne]
          exact ⟨hs, rfl⟩
      · exact .of_eq (by rfl) (by rfl)

theorem spares_joinLoop {p : Slot} (hmay : may) :
    Spares np may t k (k.joinLoop t L pid p) := by
  unfold joinLoop
  split
  · split
    · exact .ret .refl _
    · exact .goto (spares_sleep hmay) _
  · split
    · exact .ret (.rouse (.of_eq (by rfl) (by rfl)) (by nofun)) _
    · exact .ret .refl _

theorem spares_joinStep (hmay : may) : Spares np may t k (k.joinStep t L e pid) := by
  unfold joinStep
  split
  · split
    · exact spares_joinLoop hmay
    · exact .ret .refl _
  · split
    · exact .ret .refl _
    · exact .of_eq (by rfl) (by rfl)

theorem marked_asleep {q : Proc} : (marked q).state ≠ .sleeping := by
  cases hq : q.state <;> simp [marked, hq]

theorem spares_execStep {c : ExecPc} (hmay : (Pc.exec c).sleeps = true → may) :
    Spares np may t k (k.execStep t L e c) := by
  cases c with
  | mark =>
    simp only [execStep, execMark]
    split
    · exact .ret .refl _
    · refine .goto (.procs .refl (by rfl) fun u _ hs => ?_) _
      simp only at hs ⊢
      split at hs
      · exact absurd hs marked_asleep
      · next hne =>
        rw [if_neg hne]
        exact ⟨hs, rfl⟩
  | wait =>
    simp only [execStep]
    split
    · exact spares_sleep (hmay rfl)
    · exact .goto .refl _
  | swap | take | setCount | setLost => exact .goto (.assign .refl (by rfl) (by rfl)) _
  | load =>
    simp only [execStep]
    split
    · exact .ret .refl _
    · split
      · exact .of_eq (by rfl) (by rfl)
      · exact .ret .refl _
      · exact .goto (.of_eq (by rfl) (by rfl)) _
  | commit image sz => exact .ret (.assign (.of_eq (by rfl) (by rfl)) (by rfl) (by rfl)) _

theorem spares_killStep : Spares np may t k (k.killStep t pid) := by
  unfold killStep
  split
  · exact .ret .refl _
  · exact .ret (.rouse .refl marked_asleep) _

theorem spares_parkStep {c : Chan} (hmay : may) : Spares np may t k (k.parkStep t c) := by
  unfold parkStep
  split
  · exact .ret (.assign .refl (by rfl) (by rfl)) _
  · exact .goto (.assign (spares_sleep hmay) (by rfl) (by rfl)) _

theorem spares_unparkStep {c : Chan} : Spares np may t k (k.unparkStep t e pid c) := by
  unfold unparkStep
  split
  · split
    · exact .ret (.rouse .refl (by nofun)) _
    · exact .ret (.assign .refl (by rfl) (by rfl)) _
  · split
    · exact .ret .refl _
    · exact .of_eq (by rfl) (by rfl)

theorem Spares.setDir {d : Pgdir} : Spares np may t k (k.setDir s d) := by
  unfold Kernel.setDir
  split
  · exact .of_eq (by rfl) (by rfl)
  · exact .refl

theorem spares_growprocStep {n : ℤ} {addr : ℕ} :
    Spares np may t k (k.growprocStep t L e n addr) := by
  simp only [growprocStep]
  split
  · split
    · exact .of_eq (by rfl) (by rfl)
    · split
      · exact .ret .setDir _
      · exact .ret (.assign .setDir (by rfl) (by rfl)) _
  · split
    · split
      · exact .ret .setDir _
      · exact .ret (.assign .setDir (by rfl) (by rfl)) _
    · exact .ret (.assign .refl (by rfl) (by rfl)) _

theorem Spares.filealloc {f : File} (h : k.filealloc = some (f, k')) : Spares np may t k k' := by
  unfold Kernel.filealloc at h
  obtain ⟨_, _, heq⟩ := Option.map_eq_some_iff.mp h
  cases heq
  exact .of_eq (by rfl) (by rfl)

theorem spares_fileStep {c : FilePc} : Spares np may t k (k.fileStep t e c) := by
  cases c with
  | «open» =>
    simp only [fileStep]
    split
    · split
      · exact .ret .refl _
      · next h => exact .goto (.filealloc h) _
    · exact .ret .refl _
  | openFd f =>
    simp only [fileStep]
    split
    · exact .goto .refl _
    · exact .ret (.setFile .refl _ _) _
  | dup fd =>
    simp only [fileStep]
    split
    · exact .goto (.setFile .refl _ _) _
    · exact .ret .refl _
  | dupped f fd =>
    rw [fileStep]
    refine Spares.filedup fun r => ?_
    exact .ret (.of_eq (by rfl) (by rfl)) _
  | close fd =>
    simp only [fileStep]
    split
    · exact .ret .refl _
    · exact .goto (.setFile .refl _ _) _
  | closing fs r =>
    cases fs with
    | nil => exact .ret .refl _
    | cons f fs =>
      rw [fileStep, closeFiles]
      refine Spares.fileclose fun r => ?_
      exact .goto (.of_eq (by rfl) (by rfl)) _
  | pipe =>
    simp only [fileStep]
    split
    · exact .ret .refl _
    · next h => exact .goto (.filealloc h) _
  | pipeWrite rf =>
    simp only [fileStep]
    split
    · exact .goto .refl _
    · next h => exact .goto (.filealloc h) _
  | pipeFds rf wf =>
    simp only [fileStep]
    split
    · exact .goto .refl _
    · unfold pipeFds
      split
      · exact .goto .refl _
      · split
        · exact .goto (.setFile (.setFile .refl _ _) _ _) _
        · exact .ret (.setFile (.setFile .refl _ _) _ _) _

theorem spares_callStep (h : k.callStep t L e (k.pc t) = some k') :
    Spares (k.pc t).publishes ((k.pc t).sleeps = true) t k k' := by
  generalize k.pc t = c at h
  cases c with
  | dead | user => simp [callStep] at h
  | ret r | trap =>
    simp only [callStep, Option.some.injEq] at h
    split at h <;> subst h
    · exact spares_enterExit
    · exact .goto .refl _
  | fork c => exact Option.some.inj h ▸ spares_forkStep
  | clone c => exact Option.some.inj h ▸ spares_cloneStep
  | exit c => exact Option.some.inj h ▸ spares_exitStep
  | wait => exact Option.some.inj h ▸ spares_waitStep rfl
  | join pid => exact Option.some.inj h ▸ spares_joinStep rfl
  | joinWait pid p => exact Option.some.inj h ▸ spares_joinLoop rfl
  | exec c => exact Option.some.inj h ▸ spares_execStep id
  | kill pid => exact Option.some.inj h ▸ spares_killStep
  | park ch => exact Option.some.inj h ▸ spares_parkStep rfl
  | parked => exact Option.some.inj h ▸ .ret .refl _
  | unpark pid ch => exact Option.some.inj h ▸ spares_unparkStep
  | sbrk n => exact Option.some.inj h ▸ .goto .refl _
  | growproc n addr => exact Option.some.inj h ▸ spares_growprocStep
  | file c => exact Option.some.inj h ▸ spares_fileStep

theorem callStep_of_next (hinv : Group.Inv k.group)
    (hnext : k.next (.step t e) = some k') :
    (k.proc t).state = .running ∧
      ∃ L, (k.proc t).process = some L ∧ k.callStep t L e (k.pc t) = some k' := by
  obtain ⟨⟨_, hs⟩, hstep⟩ := Option.ite_none_right_eq_some.mp hnext
  obtain ⟨L, hL, -⟩ := hinv.leader t (.inl (phase_of_running hs))
  have hL' : (k.proc t).process = some L := hL
  simp only [hL'] at hstep
  exact ⟨hs, L, hL, hstep⟩

end Kernel

end KThreads
