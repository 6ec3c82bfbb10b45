import KThreads.Machine

/-!
# Where the kernel can stop

A table of the stops that each point of the kernel can cause, and the proof
that no other step stops the machine. A panic is then shown unreachable by
looking at the points of its row only.
-/

namespace KThreads

/-- The stops that the step of a thread at a point of the kernel can cause. -/
inductive Pc.MayHalt : Pc → Halt → Prop
  | ret {r} : MayHalt (.ret r) (.panic .initExiting)
  | trap : MayHalt .trap (.panic .initExiting)
  | forkAlloc : MayHalt (.fork .alloc) .pidOverflow
  | cloneAlloc : MayHalt (.clone .alloc) .pidOverflow
  | forkCopy {np p} : MayHalt (.fork (.copy np)) (.panic (.vm p))
  | forkFiles {np fds} : MayHalt (.fork (.files np fds)) (.panic .filedup)
  | cloneFiles {np fds} : MayHalt (.clone (.files np fds)) (.panic .filedup)
  | exitClose {fds} : MayHalt (.exit (.close fds)) (.panic .fileclose)
  | wait : MayHalt .wait (.panic .undead)
  | join {pid} : MayHalt (.join pid) .pastTable
  | unpark {pid c} : MayHalt (.unpark pid c) .pastTable
  | execLoad {p} : MayHalt (.exec .load) (.panic (.vm p))
  | growproc {n addr p} : MayHalt (.growproc n addr) (.panic (.vm p))
  | dupped {f fd} : MayHalt (.file (.dupped f fd)) (.panic .filedup)
  | closing {fs r} : MayHalt (.file (.closing fs r)) (.panic .fileclose)

namespace Kernel

variable {k k' : Kernel} {t L s : Slot} {e : Env} {x : Halt}

@[simp] theorem halted_modify {f : Proc → Proc} : (k.modify s f).halted = k.halted := rfl

@[simp] theorem halted_goto {c : Pc} : (k.goto t c).halted = k.halted := rfl

@[simp] theorem halted_ret {r : ℤ} : (k.ret t r).halted = k.halted := rfl

@[simp] theorem halted_halt : (k.halt x).halted = some x := rfl

@[simp] theorem halted_panic {p : Panic} : (k.panic p).halted = some (.panic p) := rfl

@[simp] theorem halted_sleep {c : Chan} : (k.sleep t c).halted = k.halted := rfl

@[simp] theorem halted_wakeup1 {c : Chan} : (k.wakeup1 c).halted = k.halted := rfl

@[simp] theorem halted_setFile {fd : Fd} {f : Option File} :
    (k.setFile s fd f).halted = k.halted := rfl

@[simp] theorem halted_setDir {d : Pgdir} : (k.setDir s d).halted = k.halted := by
  unfold setDir
  split <;> rfl

@[simp] theorem halted_reparent : (k.reparent t).halted = k.halted := by
  unfold reparent
  split <;> rfl

theorem halted_filealloc {f : File} (h : k.filealloc = some (f, k')) : k'.halted = k.halted := by
  unfold filealloc at h
  obtain ⟨_, _, heq⟩ := Option.map_eq_some_iff.mp h
  cases heq
  rfl

variable (hk : k.halted = none)

include hk in
theorem enterExit_halted (hx : (k.enterExit t).halted = some x) : x = .panic .initExiting := by
  unfold enterExit at hx
  split at hx
  · simpa using hx.symm
  · simp [hk] at hx

include hk in
theorem allocproc_halted {next : Slot → Pc} (hx : (k.allocproc t next).halted = some x) :
    x = .pidOverflow := by
  unfold allocproc at hx
  split at hx
  · simp [hk] at hx
  · split at hx
    · simpa using hx.symm
    · simp [hk] at hx

include hk in
theorem allocKstack_halted {np : Slot} {f : Proc → Proc} {c : Pc} :
    (k.allocKstack t np e f c).halted = none := by
  unfold allocKstack
  split <;> simp [hk]

theorem filedup_halted {f : File} {next : Kernel → Kernel}
    (hnext : ∀ r, (next { k with ref := r }).halted = none)
    (hx : (k.filedup f next).halted = some x) : x = .panic .filedup := by
  unfold filedup at hx
  split at hx
  · simpa using hx.symm
  · simp [hnext] at hx

theorem fileclose_halted {f : File} {next : Kernel → Kernel}
    (hnext : ∀ r, (next { k with ref := r }).halted = none)
    (hx : (k.fileclose f next).halted = some x) : x = .panic .fileclose := by
  unfold fileclose at hx
  split at hx
  · simpa using hx.symm
  · simp [hnext] at hx

include hk in
theorem dupFiles_halted {fds : List Fd} {store : Fd → File → List Fd → Pc} {done : Pc}
    (hx : (k.dupFiles t fds store done).halted = some x) : x = .panic .filedup := by
  unfold dupFiles at hx
  split at hx
  · simp [hk] at hx
  · exact filedup_halted (fun r => by simp [hk]) hx

include hk in
theorem forkStep_halted {c : ForkPc} (hx : (k.forkStep t L e c).halted = some x) :
    Pc.MayHalt (.fork c) x := by
  cases c with
  | alloc => exact allocproc_halted hk hx ▸ .forkAlloc
  | init np => simp [forkStep, allocKstack_halted hk] at hx
  | copy np =>
    simp only [forkStep] at hx
    split at hx
    · cases hx
      exact .forkCopy
    all_goals simp [hk] at hx
  | files np fds => exact dupFiles_halted hk hx ▸ .forkFiles
  | parent np | file np fd f fds | cwd np | idup np c | publish np => simp [forkStep, hk] at hx

include hk in
theorem cloneStep_halted {c : ClonePc} (hx : (k.cloneStep t L e c).halted = some x) :
    Pc.MayHalt (.clone c) x := by
  cases c with
  | alloc => exact allocproc_halted hk hx ▸ .cloneAlloc
  | init np => simp [cloneStep, allocKstack_halted hk] at hx
  | files np fds => exact dupFiles_halted hk hx ▸ .cloneFiles
  | check stack | publish np =>
    simp only [cloneStep] at hx
    split at hx <;> simp [hk] at hx
  | pgdir np | parent np | setParent np p | file np fd f fds => simp [cloneStep, hk] at hx

include hk in
theorem exitStep_halted {c : ExitPc} (hx : (k.exitStep t L c).halted = some x) :
    Pc.MayHalt (.exit c) x := by
  cases c with
  | close fds =>
    simp only [exitStep] at hx
    split at hx
    · simp [hk] at hx
    · exact fileclose_halted (fun r => by simp [hk]) hx ▸ .exitClose
  | clear fd fds | count | iput | zombie => simp [exitStep, hk] at hx

include hk in
theorem waitStep_halted (hx : (k.waitStep t L).halted = some x) :
    x = .panic .undead ∧ ∃ p, k.waitFound L = some p ∧ (k.proc t).killed = false ∧
      ∃ s, (k.proc s).tgid = (k.proc p).tgid ∧ (k.proc s).state ≠ .zombie := by
  unfold waitStep at hx
  split at hx
  · simp [hk] at hx
  · next hkids =>
    split at hx
    · simp [hk] at hx
    · next p hp =>
      unfold reapGroup at hx
      split at hx
      · simp [hk] at hx
      · next hz =>
        simp only [not_or, Bool.not_eq_true] at hkids
        simp only [not_forall] at hz
        obtain ⟨s, hs, hstate⟩ := hz
        exact ⟨by simpa using hx.symm, p, hp, hkids.2, s, hs, hstate⟩

include hk in
theorem joinLoop_halted {pid : ℤ} {p : Slot} : (k.joinLoop t L pid p).halted = none := by
  unfold joinLoop
  split
  · split <;> simp [hk]
  · split <;> simp [hk, reapSlot]

include hk in
theorem joinStep_halted {pid : ℤ} (hx : (k.joinStep t L e pid).halted = some x) :
    x = .pastTable := by
  unfold joinStep at hx
  split at hx
  · split at hx <;> simp [hk, joinLoop_halted hk] at hx
  · split at hx
    · simp [hk] at hx
    · simpa using hx.symm

include hk in
theorem execStep_halted {c : ExecPc} (hx : (k.execStep t L e c).halted = some x) :
    Pc.MayHalt (.exec c) x := by
  cases c with
  | load =>
    simp only [execStep] at hx
    split at hx
    · simp [hk] at hx
    · split at hx
      · cases hx
        exact .execLoad
      all_goals simp [hk] at hx
  | mark =>
    simp only [execStep, execMark] at hx
    split at hx <;> simp [hk] at hx
  | wait =>
    simp only [execStep] at hx
    split at hx <;> simp [hk] at hx
  | swap | take | setCount | setLost | commit image sz => simp [execStep, hk] at hx

include hk in
theorem growprocStep_halted {n : ℤ} {addr : ℕ}
    (hx : (k.growprocStep t L e n addr).halted = some x) : ∃ p, x = .panic (.vm p) := by
  simp only [growprocStep] at hx
  split at hx
  · split at hx
    · exact ⟨_, by simpa using hx.symm⟩
    · split at hx <;> simp [hk] at hx
  · split at hx
    · split at hx <;> simp [hk] at hx
    · simp [hk] at hx

include hk in
theorem fileStep_halted {c : FilePc} (hx : (k.fileStep t e c).halted = some x) :
    Pc.MayHalt (.file c) x := by
  cases c with
  | «open» =>
    simp only [fileStep] at hx
    split at hx
    · split at hx
      · simp [hk] at hx
      · next h => simp [halted_filealloc h, hk] at hx
    · simp [hk] at hx
  | dupped f fd => exact filedup_halted (fun r => by simp [hk]) hx ▸ .dupped
  | closing fs r =>
    cases fs with
    | nil => simp [fileStep, closeFiles, hk] at hx
    | cons f fs => exact fileclose_halted (fun r => by simp [hk]) hx ▸ .closing
  | pipe | pipeWrite rf =>
    simp only [fileStep] at hx
    split at hx
    · simp [hk] at hx
    · next h => simp [halted_filealloc h, hk] at hx
  | openFd f | dup fd | close fd =>
    simp only [fileStep] at hx
    split at hx <;> simp [hk] at hx
  | pipeFds rf wf =>
    simp only [fileStep, pipeFds] at hx
    split at hx
    · simp [hk] at hx
    · split at hx
      · simp [hk] at hx
      · split at hx <;> simp [hk] at hx

include hk in
theorem callStep_halted {c : Pc} (h : k.callStep t L e c = some k') (hx : k'.halted = some x) :
    c.MayHalt x := by
  cases c with
  | dead | user => simp [callStep] at h
  | ret r | trap =>
    simp only [callStep, Option.some.injEq] at h
    subst h
    split at hx
    · rw [enterExit_halted hk hx]
      constructor
    · simp [hk] at hx
  | fork c => exact forkStep_halted hk (Option.some.inj h ▸ hx)
  | clone c => exact cloneStep_halted hk (Option.some.inj h ▸ hx)
  | exit c => exact exitStep_halted hk (Option.some.inj h ▸ hx)
  | wait => exact (waitStep_halted hk (Option.some.inj h ▸ hx)).1 ▸ .wait
  | join pid => exact joinStep_halted hk (Option.some.inj h ▸ hx) ▸ .join
  | joinWait pid p => simp [← Option.some.inj h, joinLoop_halted hk] at hx
  | exec c => exact execStep_halted hk (Option.some.inj h ▸ hx)
  | kill pid =>
    simp only [callStep, Option.some.injEq, killStep] at h
    split at h <;> simp [← h, hk] at hx
  | park c =>
    simp only [callStep, Option.some.injEq, parkStep] at h
    split at h <;> simp [← h, hk] at hx
  | parked | sbrk n => simp [← Option.some.inj h, hk] at hx
  | unpark pid c =>
    simp only [callStep, Option.some.injEq, unparkStep] at h
    subst h
    split at hx
    · split at hx <;> simp [hk] at hx
    · split at hx
      · simp [hk] at hx
      · cases hx
        exact .unpark
  | growproc n addr =>
    obtain ⟨p, rfl⟩ := growprocStep_halted hk (Option.some.inj h ▸ hx)
    exact .growproc
  | file c => exact fileStep_halted hk (Option.some.inj h ▸ hx)

theorem next_halted {l : Label} (h : k.next l = some k') (hx : k'.halted = some x) :
    k.halted = none ∧ (x = .nullProcess ∨ x = .panic .initExiting ∨
      ∃ t L e, l = .step t e ∧ (k.proc t).state = .running ∧ (k.proc t).process = some L ∧
        k.callStep t L e (k.pc t) = some k' ∧ (k.pc t).MayHalt x) := by
  cases l with
  | schedule t | yield t | block t a | wakeup a | fault t =>
    obtain ⟨hguard, ⟨⟩⟩ := Option.ite_none_right_eq_some.mp h
    simp_all
  | syscall t c =>
    obtain ⟨hguard, ⟨⟩⟩ := Option.ite_none_right_eq_some.mp h
    refine ⟨hguard.1, .inr (.inl ?_)⟩
    split at hx
    · exact enterExit_halted hguard.1 hx
    · cases c with
      | exit => exact enterExit_halted hguard.1 hx
      | _ => simp [enter, hguard.1] at hx
  | interrupt t =>
    obtain ⟨hguard, ⟨⟩⟩ := Option.ite_none_right_eq_some.mp h
    exact ⟨hguard.1, .inr (.inl (enterExit_halted hguard.1 hx))⟩
  | step t e =>
    obtain ⟨hguard, hstep⟩ := Option.ite_none_right_eq_some.mp h
    refine ⟨hguard.1, ?_⟩
    cases hL : (k.proc t).process with
    | none =>
      simp only [hL, Option.some.injEq] at hstep
      subst hstep
      exact .inl (by simpa using hx.symm)
    | some L =>
      simp only [hL] at hstep
      exact .inr (.inr ⟨t, L, e, rfl, hguard.2, hL, hstep, callStep_halted hguard.1 hstep hx⟩)

end Kernel

end KThreads
