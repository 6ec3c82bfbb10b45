import KThreads.Takeover
import KThreads.Halts
import KThreads.Paging

/-!
# Address spaces

The size of a process is kept in its leader slot, its pages in a directory that
every live thread of the group points to. The two are changed by five steps of
the kernel only; each of them leaves the directory covering exactly the size, if
only leaders replace the image of their process and no process is shrunk to
nothing.
-/

namespace KThreads

open Function (update update_apply update_eq_self update_of_ne update_self)
open Group (Inv DirInv)

/-- The image that a thread in `exec` is about to commit, with its size. -/
def Pc.image : Pc → Option (ℕ × ℕ)
  | .exec (.commit x sz) => some (x, sz)
  | _ => none

/-- The points whose step changes a size or a directory. -/
inductive Pc.Remaps : Pc → Prop
  | copy {np} : Remaps (.fork (.copy np))
  | share {np} : Remaps (.clone (.pgdir np))
  | load : Remaps (.exec .load)
  | commit {x sz} : Remaps (.exec (.commit x sz))
  | grow {n addr} : Remaps (.growproc n addr)

/-- The sizes, the contents of the directories, and the images not yet
committed. -/
@[ext]
structure Space where
  sz : Slot → ℕ
  vm : ℕ → Pgdir
  image : Slot → Option (ℕ × ℕ)

namespace Kernel

/-- The address spaces of a kernel state. -/
def space (k : Kernel) : Space where
  sz s := (k.proc s).sz
  vm := k.vm
  image t := (k.pc t).image

variable {k k' : Kernel} {t L s : Slot} {e : Env} {np : Slot} {pid : ℤ} {x sz : ℕ}
  {next : Kernel → Kernel}

section

variable {c : Pc} {f : Proc → Proc}

@[simp] theorem space_goto :
    (k.goto t c).space = { k.space with image := update k.space.image t c.image } := by
  ext <;> simp only [space, goto, update_apply]
  split <;> rfl

theorem space_goto_same (h : c.image = k.space.image t) : (k.goto t c).space = k.space := by
  rw [space_goto, h, update_eq_self]

theorem space_goto_of {k₁ : Kernel} (hk : k₁.space = k.space) (h : c.image = k.space.image t) :
    (k₁.goto t c).space = k.space :=
  (space_goto_same (by rw [hk]; exact h)).trans hk

theorem space_of_proc {p : Slot → Proc} (h : ∀ s, (p s).sz = (k.proc s).sz) :
    { k with proc := p }.space = k.space := by
  ext <;> simp [space, h]

theorem space_modify (h : (f (k.proc s)).sz = (k.proc s).sz) : (k.modify s f).space = k.space :=
  space_of_proc fun u => by
    simp only [update_apply]
    split
    · next hu => rw [h, hu]
    · rfl

theorem space_wakeup1 {ch : Chan} : (k.wakeup1 ch).space = k.space :=
  space_of_proc fun u => by split <;> rfl

theorem space_reparent : (k.reparent t).space = k.space := by
  have hproc := space_of_proc (k := k) (p := fun p =>
    if (k.proc p).parent = some t then { k.proc p with parent := some k.initproc } else k.proc p)
    fun s => by split <;> rfl
  unfold reparent
  split
  · exact space_wakeup1.trans hproc
  · exact hproc

theorem space_filealloc {f : File} (h : k.filealloc = some (f, k')) : k'.space = k.space := by
  unfold filealloc at h
  obtain ⟨_, _, heq⟩ := Option.map_eq_some_iff.mp h
  cases heq
  rfl

theorem space_filedup {f : File}
    (hnext : ∀ r, (next { k with ref := r }).space = k.space) :
    (k.filedup f next).space = k.space := by
  unfold filedup
  split
  · rfl
  · exact hnext _

theorem space_fileclose {f : File}
    (hnext : ∀ r, (next { k with ref := r }).space = k.space) :
    (k.fileclose f next).space = k.space := by
  unfold fileclose
  split
  · rfl
  · exact hnext _

end

section

variable (hi : k.space.image t = none)

include hi in
theorem space_ret {r : ℤ} : (k.ret t r).space = k.space := space_goto_same hi.symm

include hi in
theorem space_allocproc {next : Slot → Pc} (hnext : ∀ np, (next np).image = none) :
    (k.allocproc t next).space = k.space := by
  unfold allocproc
  split
  · exact space_ret hi
  · split
    · rfl
    · exact space_goto_of (space_modify rfl) ((hnext _).trans hi.symm)

include hi in
theorem space_allocKstack {fields : Proc → Proc} {next : Pc}
    (hfields : ∀ q : Proc, (fields q).sz = q.sz) (hnext : next.image = none) :
    (k.allocKstack t np e fields next).space = k.space := by
  unfold allocKstack
  split
  · exact space_goto_of (space_modify rfl) hi.symm
  · exact space_goto_of (space_modify (hfields _)) (hnext.trans hi.symm)

include hi in
theorem space_dupFiles {fds : List Fd} {store : Fd → File → List Fd → Pc} {done : Pc}
    (hstore : ∀ fd f fds, (store fd f fds).image = none) (hdone : done.image = none) :
    (k.dupFiles t fds store done).space = k.space := by
  unfold dupFiles
  split
  · exact space_goto_same (hdone.trans hi.symm)
  · exact space_filedup fun r => space_goto_of rfl ((hstore _ _ _).trans hi.symm)

theorem image_of_job (h : k.group.job s = .none) : k.space.image s = none := by
  simp only [group] at h
  simp only [space]
  generalize k.pc s = c at h
  unfold Pc.image
  split
  · simp [Pc.job] at h
  · rfl

theorem image_of_build {kd : Group.Kind} {st : Group.Stage Slot} (hinv : Inv k.group)
    (hj : k.group.job t = .build kd st np) : k.space.image np = none :=
  image_of_job (hinv.job_embryo (hinv.build_embryo t kd st np hj))

include hi in
theorem space_forkStep (hinv : Inv k.group) {c : ForkPc} (hpc : k.pc t = .fork c)
    (hc : ¬(Pc.fork c).Remaps) : (k.forkStep t L e c).space = k.space := by
  cases c with
  | alloc => exact space_allocproc hi fun _ => rfl
  | init np => exact space_allocKstack hi (fun _ => rfl) rfl
  | copy np => exact absurd .copy hc
  | files np fds => exact space_dupFiles hi (fun _ _ _ => rfl) rfl
  | cwd np => exact space_goto_same hi.symm
  | parent np | file np fd f fds | idup np cwd => exact space_goto_of (space_modify rfl) hi.symm
  | publish np =>
    have hj : k.group.job t = .build .fork .rooted np := by simp only [group, hpc, Pc.job]
    exact space_goto_of (space_goto_of (space_modify rfl) (image_of_build hinv hj).symm) hi.symm

include hi in
theorem space_cloneStep (hinv : Inv k.group) {c : ClonePc} (hpc : k.pc t = .clone c)
    (hc : ¬(Pc.clone c).Remaps) : (k.cloneStep t L e c).space = k.space := by
  cases c with
  | check stack =>
    simp only [cloneStep]
    split <;> exact space_goto_same hi.symm
  | alloc => exact space_allocproc hi fun _ => rfl
  | init np => exact space_allocKstack hi (fun _ => rfl) rfl
  | pgdir np => exact absurd .share hc
  | files np fds => exact space_dupFiles hi (fun _ _ _ => rfl) rfl
  | parent np | setParent np p | file np fd f fds => exact space_goto_of (space_modify rfl) hi.symm
  | publish np =>
    have hj : k.group.job t = .build .clone .rooted np := by simp only [group, hpc, Pc.job]
    simp only [cloneStep]
    split
    · exact space_goto_of (space_modify rfl) hi.symm
    · exact space_goto_of (space_goto_of ((space_modify rfl).trans (space_modify rfl))
        (image_of_build hinv hj).symm) hi.symm

include hi in
theorem space_exitStep {c : ExitPc} : (k.exitStep t L c).space = k.space := by
  cases c with
  | close fds =>
    simp only [exitStep]
    split
    · exact space_goto_same hi.symm
    · exact space_fileclose fun r => space_goto_of rfl hi.symm
  | count => exact space_goto_same hi.symm
  | clear fd fds | iput => exact space_goto_of (space_modify rfl) hi.symm
  | zombie =>
    refine space_goto_of ?_ hi.symm
    rw [space_modify rfl, space_reparent, space_modify rfl, space_wakeup1, space_wakeup1]

include hi in
theorem space_enterExit : (k.enterExit t).space = k.space := by
  unfold enterExit
  split
  · rfl
  · exact space_goto_same hi.symm

include hi in
theorem space_waitStep : (k.waitStep t L).space = k.space := by
  unfold waitStep
  split
  · exact space_ret hi
  · split
    · exact space_modify rfl
    · unfold reapGroup
      split
      · exact space_goto_of (space_of_proc fun s => by split <;> rfl) hi.symm
      · rfl

include hi in
theorem space_joinLoop {p : Slot} : (k.joinLoop t L pid p).space = k.space := by
  unfold joinLoop
  split
  · split
    · exact space_ret hi
    · exact space_goto_of (space_modify rfl) hi.symm
  · split
    · exact space_goto_of (space_modify rfl) hi.symm
    · exact space_ret hi

include hi in
theorem space_joinStep : (k.joinStep t L e pid).space = k.space := by
  unfold joinStep
  split
  · split
    · exact space_joinLoop hi
    · exact space_ret hi
  · split
    · exact space_ret hi
    · rfl

include hi in
theorem space_execStep {c : ExecPc} (hc : ¬(Pc.exec c).Remaps) :
    (k.execStep t L e c).space = k.space := by
  cases c with
  | mark =>
    simp only [execStep, execMark]
    split
    · exact space_ret hi
    · exact space_goto_of (space_of_proc fun s => by split <;> rfl) hi.symm
  | wait =>
    simp only [execStep]
    split
    · exact space_modify rfl
    · exact space_goto_same hi.symm
  | swap | take | setCount | setLost => exact space_goto_of (space_modify rfl) hi.symm
  | load => exact absurd .load hc
  | commit x sz => exact absurd .commit hc

include hi in
theorem space_fileStep {c : FilePc} : (k.fileStep t e c).space = k.space := by
  cases c with
  | «open» =>
    simp only [fileStep]
    split
    · split
      · exact space_ret hi
      · next h => exact space_goto_of (space_filealloc h) hi.symm
    · exact space_ret hi
  | openFd f =>
    simp only [fileStep]
    split
    · exact space_goto_same hi.symm
    · exact space_goto_of (space_modify rfl) hi.symm
  | dup fd =>
    simp only [fileStep]
    split
    · exact space_goto_of (space_modify rfl) hi.symm
    · exact space_ret hi
  | dupped f fd => exact space_filedup fun r => space_goto_of rfl hi.symm
  | close fd =>
    simp only [fileStep]
    split
    · exact space_ret hi
    · exact space_goto_of (space_modify rfl) hi.symm
  | closing fs r =>
    cases fs with
    | nil => exact space_ret hi
    | cons f fs => exact space_fileclose fun r => space_goto_of rfl hi.symm
  | pipe | pipeWrite rf =>
    simp only [fileStep]
    split
    · exact space_goto_same hi.symm
    · next h => exact space_goto_of (space_filealloc h) hi.symm
  | pipeFds rf wf =>
    simp only [fileStep, pipeFds]
    split
    · exact space_goto_same hi.symm
    · split
      · exact space_goto_same hi.symm
      · split <;> exact space_goto_of ((space_modify rfl).trans (space_modify rfl)) hi.symm

include hi in
theorem space_killStep : (k.killStep t pid).space = k.space := by
  unfold killStep
  split
  · exact space_ret hi
  · exact space_goto_of (space_modify rfl) hi.symm

include hi in
theorem space_parkStep {c : Chan} : (k.parkStep t c).space = k.space := by
  unfold parkStep
  split
  · exact space_goto_of (space_modify rfl) hi.symm
  · exact space_goto_of ((space_modify rfl).trans (space_modify rfl)) hi.symm

include hi in
theorem space_unparkStep {c : Chan} : (k.unparkStep t e pid c).space = k.space := by
  unfold unparkStep
  split
  · split <;> exact space_goto_of (space_modify rfl) hi.symm
  · split
    · exact space_ret hi
    · rfl

end

theorem space_callStep (hinv : Inv k.group) (h : k.callStep t L e (k.pc t) = some k')
    (hc : ¬(k.pc t).Remaps) : k'.space = k.space := by
  have hi : k.space.image t = none := by
    simp only [space]
    unfold Pc.image
    split
    · next x sz hpc => exact absurd (hpc ▸ Pc.Remaps.commit) hc
    · rfl
  generalize hpc : k.pc t = c at h hc
  cases c with
  | dead | user => simp [callStep] at h
  | ret r | trap =>
    simp only [callStep, Option.some.injEq] at h
    split at h <;> subst h
    · exact space_enterExit hi
    · exact space_goto_same hi.symm
  | fork c => exact Option.some.inj h ▸ space_forkStep hi hinv hpc hc
  | clone c => exact Option.some.inj h ▸ space_cloneStep hi hinv hpc hc
  | exit c => exact Option.some.inj h ▸ space_exitStep hi
  | wait => exact Option.some.inj h ▸ space_waitStep hi
  | join pid => exact Option.some.inj h ▸ space_joinStep hi
  | joinWait pid p => exact Option.some.inj h ▸ space_joinLoop hi
  | exec c => exact Option.some.inj h ▸ space_execStep hi hc
  | kill pid => exact Option.some.inj h ▸ space_killStep hi
  | park ch => exact Option.some.inj h ▸ space_parkStep hi
  | parked => exact Option.some.inj h ▸ space_ret hi
  | unpark pid ch => exact Option.some.inj h ▸ space_unparkStep hi
  | sbrk n => exact Option.some.inj h ▸ space_goto_same hi.symm
  | growproc n addr => exact absurd .grow hc
  | file c => exact Option.some.inj h ▸ space_fileStep hi

theorem space_next {l : Label} (hinv : Inv k.group) (h : k.next l = some k') :
    (∃ t L e, l = .step t e ∧ (k.proc t).state = .running ∧ (k.proc t).process = some L ∧
      k.callStep t L e (k.pc t) = some k' ∧ (k.pc t).Remaps) ∨
      k'.space = k.space ∧ ∀ t e, l = .step t e → ¬(k.pc t).Remaps := by
  have huser : ∀ {t : Slot}, k.pc t = .user → k.space.image t = none := fun hpc => by
    simp only [space, hpc, Pc.image]
  cases l with
  | schedule t | yield t | block t a =>
    obtain ⟨_, ⟨⟩⟩ := Option.ite_none_right_eq_some.mp h
    exact .inr ⟨space_modify rfl, nofun⟩
  | wakeup a =>
    obtain ⟨_, ⟨⟩⟩ := Option.ite_none_right_eq_some.mp h
    exact .inr ⟨space_wakeup1, nofun⟩
  | syscall t c =>
    obtain ⟨⟨_, _, hpc⟩, ⟨⟩⟩ := Option.ite_none_right_eq_some.mp h
    refine .inr ⟨?_, nofun⟩
    split
    · exact space_enterExit (huser hpc)
    · cases c with
      | exit => exact space_enterExit (huser hpc)
      | _ => exact space_goto_same (huser hpc).symm
  | interrupt t =>
    obtain ⟨⟨_, _, hpc, _⟩, ⟨⟩⟩ := Option.ite_none_right_eq_some.mp h
    exact .inr ⟨space_enterExit (huser hpc), nofun⟩
  | fault t =>
    obtain ⟨⟨_, _, hpc⟩, ⟨⟩⟩ := Option.ite_none_right_eq_some.mp h
    exact .inr ⟨space_goto_of (space_modify rfl) (huser hpc).symm, nofun⟩
  | step t e =>
    obtain ⟨⟨_, hs⟩, hstep⟩ := Option.ite_none_right_eq_some.mp h
    obtain ⟨L, hL, -⟩ := hinv.leader t (.inl (phase_of_running hs))
    have hL' : (k.proc t).process = some L := hL
    simp only [hL'] at hstep
    by_cases hc : (k.pc t).Remaps
    · exact .inl ⟨t, L, e, rfl, hs, hL, hstep, hc⟩
    · refine .inr ⟨space_callStep hinv hstep hc, fun u e' heq => ?_⟩
      cases heq
      exact hc

/-- The directory of every leader slot covers the size kept in it, and so does
every image that is about to be committed. -/
structure Mapped (k : Kernel) : Prop where
  lead : ∀ L x, (k.proc L).process = some L → (k.proc L).pgdir = some x →
    (k.vm x).Covers (k.proc L).sz ∧ (k.proc L).sz < KERNBASE
  image : ∀ t x sz, k.pc t = .exec (.commit x sz) → (k.vm x).Covers sz ∧ sz < KERNBASE

section

variable (h : Mapped k) (hinv : Inv k.group) (hdir : DirInv k.group)
  (ht : (k.proc t).state = .running) (hL : (k.proc t).process = some L)

theorem image_eq : k.space.image t = some (x, sz) ↔ k.pc t = .exec (.commit x sz) := by
  simp only [space]
  generalize k.pc t = c
  unfold Pc.image
  split
  · simp
  · next hne => simpa using hne x sz

include hinv hdir in
theorem exists_dir (hlive : k.group.phase t = .live) :
    ∃ L x, (k.proc t).process = some L ∧ (k.proc t).pgdir = some x ∧
      (k.proc L).pgdir = some x ∧ (k.proc L).process = some L := by
  obtain ⟨L, hL, hpub, hlead, -⟩ := hinv.leader t (.inl hlive)
  obtain ⟨x, hx⟩ := Option.ne_none_iff_exists'.mp (hdir.lead_dir L hpub hlead)
  exact ⟨L, x, hL, (hdir.live_dir t L hlive hL).trans hx, hx, hlead⟩

include hinv hdir ht hL in
theorem exists_dir_of_running : ∃ x, (k.proc t).pgdir = some x ∧ (k.proc L).pgdir = some x ∧
    (k.proc L).process = some L := by
  obtain ⟨M, x, hM, hx⟩ := exists_dir hinv hdir (phase_of_running ht)
  cases hL.symm.trans hM
  exact ⟨x, hx⟩

include h hinv hdir ht hL in
theorem dir_covers : (k.dir t).Covers (k.proc L).sz ∧ (k.proc L).sz < KERNBASE := by
  obtain ⟨x, hx, hLx, hlead⟩ := exists_dir_of_running hinv hdir ht hL
  have hcov := h.lead L x hlead hLx
  simpa only [dir, hx] using hcov

include hdir in
theorem dir_lt {x : ℕ} (hlead : (k.proc L).process = some L) (hx : (k.proc L).pgdir = some x) :
    x < k.npage := by
  by_contra hge
  have hnone := hdir.owner_lt x (Nat.le_of_not_lt hge)
  simp [(hdir.owner_dir L x hlead hx).1] at hnone

include hdir in
theorem image_lt (hpc : k.pc t = .exec (.commit x sz)) : x < k.npage :=
  (hdir.loaded t x (by simp only [group, hpc, Pc.job])).2

theorem Mapped.of_space (h : Mapped k) (hs : k'.space = k.space)
    (hlead : ∀ L x, (k'.proc L).process = some L → (k'.proc L).pgdir = some x →
      (k.proc L).process = some L ∧ (k.proc L).pgdir = some x) : Mapped k' := by
  have hvm : k'.vm = k.vm := congrArg Space.vm hs
  refine ⟨fun L x hL hx => ?_, fun t x sz hpc => ?_⟩
  · have hsz : (k'.proc L).sz = (k.proc L).sz := congrFun (congrArg Space.sz hs) L
    obtain ⟨hL, hx⟩ := hlead L x hL hx
    rw [hvm, hsz]
    exact h.lead L x hL hx
  · rw [hvm]
    refine h.image t x sz (image_eq.mp ?_)
    rw [← hs]
    exact image_eq.mpr hpc

include h hinv hdir ht hL in
theorem Mapped.copy (hpc : k.pc t = .fork (.copy np)) :
    Mapped (k.forkStep t L e (.copy np)) := by
  obtain ⟨hcov, hlt⟩ := dir_covers h hinv hdir ht hL
  obtain ⟨r, hr, hcopy⟩ := hcov.copyuvm hlt.le e.mem
  simp only [forkStep, hr]
  cases r with
  | none =>
    refine h.of_space (space_goto_of (space_modify rfl) ?_) fun L' x hL' hx => ?_
    · simp only [space, hpc, Pc.image]
    · by_cases hnp : L' = np
      · simp [ret, goto, modify, hnp] at hx
      · simpa [ret, goto, modify, hnp] using And.intro hL' hx
  | some d =>
    refine ⟨fun L' x hL' hx => ?_, fun u x sz hu => ?_⟩
    · by_cases hnp : L' = np
      · subst hnp
        simp only [goto, modify, update_self, Option.some.injEq] at hx ⊢
        simpa [← hx] using ⟨hcopy d rfl, hlt⟩
      · simp only [goto, modify, update_of_ne hnp] at hL' hx ⊢
        rw [update_of_ne (dir_lt hdir hL' hx).ne]
        exact h.lead L' x hL' hx
    · simp only [goto, modify, update_apply] at hu ⊢
      split at hu
      · cases hu
      · rw [if_neg (image_lt hdir hu).ne]
        exact h.image u x sz hu

include h hinv in
theorem Mapped.share (hpc : k.pc t = .clone (.pgdir np)) :
    Mapped (k.cloneStep t L e (.pgdir np)) := by
  have hj : k.group.job t = .build .clone .grouped np := by simp only [group, hpc, Pc.job]
  -- The new slot is not the leader of its group.
  have hnp : (k.proc np).process ≠ some np := fun hself => by
    have hsame : (k.proc np).process = (k.proc t).process :=
      (hinv.clone_group t .grouped np hj (by simp)).1
    obtain ⟨M, hM, hpub, -⟩ := hinv.leader t (.inl (hinv.job_live t (by simp [hj])))
    have hself' : some np = some M := hself.symm.trans (hsame.trans hM)
    cases hself'
    simp [Group.Table.Published, hinv.build_embryo t .clone .grouped np hj] at hpub
  refine ⟨fun L' x hL' hx => ?_, fun u x sz hu => ?_⟩
  · by_cases heq : L' = np
    · simp [cloneStep, goto, modify, heq, hnp] at hL'
    · simp only [cloneStep, goto, modify, update_of_ne heq] at hL' hx ⊢
      exact h.lead L' x hL' hx
  · simp only [cloneStep, goto, modify, update_apply] at hu ⊢
    split at hu
    · cases hu
    · exact h.image u x sz hu

include h hdir in
theorem Mapped.load (hpc : k.pc t = .exec .load) : Mapped (k.execStep t L e .load) := by
  have hret : Mapped (k.ret t (-1)) := h.of_space
    (space_ret (by simp only [space, hpc, Pc.image])) fun _ _ hL' hx => ⟨hL', hx⟩
  simp only [execStep]
  split
  · exact hret
  · next elf _ =>
    obtain ⟨r, hr, himage⟩ := execImage_spec elf e.mem
    simp only [hr]
    cases r with
    | none => exact hret
    | some y =>
      obtain ⟨d, sz⟩ := y
      refine ⟨fun L' x hL' hx => ?_, fun u x n hu => ?_⟩
      · simp only [goto] at hL' hx ⊢
        rw [update_of_ne (dir_lt hdir hL' hx).ne]
        exact h.lead L' x hL' hx
      · simp only [goto, update_apply] at hu ⊢
        split at hu
        · cases hu
          simpa using himage (d, sz) rfl
        · rw [if_neg (image_lt hdir hu).ne]
          exact h.image u x n hu

include h in
theorem Mapped.commit (hpc : k.pc t = .exec (.commit x sz)) :
    Mapped (k.execStep t L e (.commit x sz)) := by
  refine ⟨fun L' y hL' hy => ?_, fun u y n hu => ?_⟩
  · by_cases heq : L' = t
    · subst heq
      simp only [execStep, ret, goto, modify, update_self, Option.some.injEq] at hy ⊢
      exact hy ▸ h.image L' x sz hpc
    · simp only [execStep, ret, goto, modify, update_of_ne heq] at hL' hy ⊢
      exact h.lead L' y hL' hy
  · simp only [execStep, ret, goto, modify, update_apply] at hu ⊢
    split at hu
    · cases hu
    · exact h.image u y n hu

include h hinv hdir hL ht in
theorem Mapped.resize {d : Pgdir} {sz : ℕ} {r : ℤ} (hcov : d.Covers sz) (hlt : sz < KERNBASE) :
    Mapped (((k.setDir t d).modify L fun q => { q with sz := sz }).ret t r) := by
  obtain ⟨x, hx, hLx, hlead⟩ := exists_dir_of_running hinv hdir ht hL
  simp only [setDir, hx]
  refine ⟨fun L' y hL' hy => ?_, fun u y n hu => ?_⟩
  · by_cases heq : L' = L
    · subst heq
      simp only [ret, goto, modify, update_self] at hy ⊢
      cases hLx.symm.trans hy
      simpa using ⟨hcov, hlt⟩
    · simp only [ret, goto, modify, update_of_ne heq] at hL' hy ⊢
      have hne : y ≠ x := fun hyx => heq (DirInv.leader_unique hinv hlead hL'
        (by simp [group, hLx]) (Option.some.inj ((hdir.owner_dir L' y hL' hy).1.symm.trans
          (hyx ▸ (hdir.owner_dir L x hlead hLx).1))))
      rw [update_of_ne hne]
      exact h.lead L' y hL' hy
  · simp only [ret, goto, modify, update_apply] at hu ⊢
    split at hu
    · cases hu
    · have hne : y ≠ x := fun hyx => by
        have hnone := (hdir.loaded u y (by simp only [group, hu, Pc.job])).1
        simp [hyx, (hdir.owner_dir L x hlead hLx).1] at hnone
      rw [if_neg hne]
      exact h.image u y n hu

include h hinv hdir ht hL in
theorem Mapped.remap {d : Pgdir} {r : ℤ} (hcov : d.Covers (k.proc L).sz) :
    Mapped ((k.setDir t d).ret t r) := by
  have hresize := h.resize hinv hdir ht hL (r := r) hcov (dir_covers h hinv hdir ht hL).2
  have hsame : ((k.setDir t d).modify L fun q => { q with sz := (k.proc L).sz }) =
      k.setDir t d := by
    have hproc : (k.setDir t d).proc = k.proc := by
      unfold setDir
      split <;> rfl
    simp only [modify, hproc, update_eq_self]
    rw [← hproc]
  rwa [hsame] at hresize

include h hinv hdir ht hL in
theorem Mapped.grow {n : ℤ} {addr : ℕ} (hpc : k.pc t = .growproc n addr)
    (hshrink : n < 0 → toUint ((k.proc L).sz + n) ≠ 0) :
    Mapped (k.growprocStep t L e n addr) := by
  obtain ⟨hcov, hlt⟩ := dir_covers h hinv hdir ht hL
  simp only [growprocStep]
  split
  · obtain ⟨d, r, mem, heq, hr⟩ := hcov.allocuvm hlt.le (toUint ((k.proc L).sz + n)) e.mem
    simp only [heq]
    split
    · next hzero =>
      refine h.remap hinv hdir ht hL ?_
      rcases hr with ⟨-, hold, -⟩ | ⟨hcov', hr | hr⟩
      · exact hold
      · exact (by omega : (k.proc L).sz = r) ▸ hcov'
      · exact hr.1 ▸ hcov'
    · next hne =>
      rcases hr with ⟨hzero, -⟩ | ⟨hcov', hr | hr⟩
      · exact absurd hzero hne
      · exact h.resize hinv hdir ht hL hcov' (by omega)
      · exact h.resize hinv hdir ht hL hcov' (by omega)
  · split
    · next hneg =>
      have hdealloc := hcov.deallocuvm hlt.le (toUint ((k.proc L).sz + n))
      have hne := hshrink hneg
      simp only [deallocuvm_snd]
      split
      · next hzero =>
        have hsame : min (k.proc L).sz (toUint ((k.proc L).sz + n)) = (k.proc L).sz := by omega
        rw [hsame] at hdealloc
        exact h.remap hinv hdir ht hL hdealloc
      · exact h.resize hinv hdir ht hL hdealloc (by omega)
    · refine h.of_space (space_goto_of (space_modify rfl) ?_) fun L' x hL' hx => ?_
      · simp only [space, hpc, Pc.image]
      · by_cases heq : L' = L
        · subst heq
          simpa [ret, goto, modify] using And.intro hL' hx
        · simpa [ret, goto, modify, heq] using And.intro hL' hx

end

theorem Mapped.step {l : Label} (h : Mapped k) (hinv : Inv k.group) (hdir : DirInv k.group)
    (hshrink : ∀ t e n addr L, l = .step t e → k.pc t = .growproc n addr →
      (k.proc t).process = some L → n < 0 → toUint ((k.proc L).sz + n) ≠ 0)
    (hstep : k.next l = some k') : Mapped k' := by
  rcases space_next hinv hstep with ⟨t, L, e, rfl, ht, hL, hcall, hremaps⟩ | ⟨hs, hpc⟩
  · generalize hpc : k.pc t = c at hcall hremaps
    cases hremaps with
    | copy => exact Option.some.inj hcall ▸ h.copy hinv hdir ht hL hpc
    | share => exact Option.some.inj hcall ▸ h.share hinv hpc
    | load => exact Option.some.inj hcall ▸ h.load hdir hpc
    | commit => exact Option.some.inj hcall ▸ h.commit hpc
    | @grow n addr =>
      exact Option.some.inj hcall ▸ h.grow hinv hdir ht hL hpc (hshrink t e n addr L rfl hpc hL)
  · refine h.of_space hs fun L x hL hx => ?_
    rcases next_follows hinv hstep with heq | ⟨m, hm, hst⟩
    · have hprocess : (k'.proc L).process = (k.proc L).process :=
        congrFun (congrArg Group.Table.process heq) L
      have hpgdir : (k'.proc L).pgdir = (k.proc L).pgdir :=
        congrFun (congrArg Group.Table.pgdir heq) L
      exact ⟨hprocess ▸ hL, hpgdir ▸ hx⟩
    · -- Leaders get another directory in `fork` and in `exec` only.
      refine DirInv.leads_before hinv hst ?_ ?_ hL hx
      · rintro t np rfl
        obtain ⟨u, e, rfl, hmakes⟩ := hm.step (by simp) (by simp)
        have hnot := hpc u e rfl
        generalize k.pc u = c at hmakes hnot
        cases hmakes
        exact hnot .copy
      · rintro t rfl
        obtain ⟨u, e, rfl, hmakes⟩ := hm.step (by simp) (by simp)
        have hnot := hpc u e rfl
        generalize k.pc u = c at hmakes hnot
        cases hmakes
        exact hnot .commit

end Kernel

end KThreads
