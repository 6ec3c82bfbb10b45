import KThreads.Machine
import KThreads.Group.Preservation

/-!
# The kernel refines the thread-group machine

The group bookkeeping of a kernel state is read off the process table and the
points at which the threads are. Every step of the kernel leaves it as it is or
makes one of the moves of the thread-group machine, and a table says which
moves a thread makes at which point. Hence the invariant of that machine holds
in every kernel state, and an invariant that holds as long as the moves meet a
condition holds in the kernel as long as its steps do.
-/

namespace KThreads

open Function (update update_apply update_eq_self update_eq_self_iff)
open Group (Phase Job Table Move Step Inv)

/-- The phase of a slot with a given state. -/
@[grind]
def ProcState.phase : ProcState → Phase
  | .unused => .unused
  | .embryo => .embryo
  | .sleeping | .runnable | .running => .live
  | .zombie => .zombie

/-- What a thread at a point of the kernel is doing that involves other slots. -/
@[grind]
def Pc.job : Pc → Job Slot
  | .fork (.init np) => .build .fork .raw np
  | .fork (.copy np) => .build .fork .grouped np
  | .fork (.parent np) => .build .fork .mapped np
  | .fork (.files np _) | .fork (.file np ..) | .fork (.cwd np) | .fork (.idup np _)
  | .fork (.publish np) => .build .fork .rooted np
  | .clone (.init np) => .build .clone .raw np
  | .clone (.pgdir np) => .build .clone .grouped np
  | .clone (.parent np) => .build .clone .mapped np
  | .clone (.setParent np p) => .build .clone (.reads p) np
  | .clone (.files np _) | .clone (.file np ..) | .clone (.publish np) =>
      .build .clone .rooted np
  | .exec .wait => .exec .waiting
  | .exec .swap => .exec .alone
  | .exec .take => .exec .swapping
  | .exec .setCount | .exec .setLost => .exec .taken
  | .exec .load => .exec .swapped
  | .exec (.commit image _) => .exec (.loaded image)
  | .joinWait pid p => .join pid p
  | .exit _ => .exit
  | _ => .none

/-- The fields of a slot that the group bookkeeping reads. -/
def Proc.thread (q : Proc) : Phase × ℤ × ℤ × Option Slot × Option Slot × ℕ × Bool × Option ℕ :=
  (q.state.phase, q.pid, q.tgid, q.process, q.parent, q.threadcount, q.killed, q.pgdir)

namespace Kernel

/-- The group bookkeeping of a kernel state. -/
def group (k : Kernel) : Table Slot where
  phase s := (k.proc s).state.phase
  pid s := (k.proc s).pid
  tgid s := (k.proc s).tgid
  process s := (k.proc s).process
  parent s := (k.proc s).parent
  threadcount s := (k.proc s).threadcount
  killed s := (k.proc s).killed
  pgdir s := (k.proc s).pgdir
  job t := (k.pc t).job
  nextpid := k.nextpid
  npage := k.npage
  initproc := k.initproc
  freevms := k.freevms
  owner := k.owner
  forker := k.forker

/-- The moves that the thread `t` makes at each point of the kernel. -/
inductive Makes (k : Kernel) (t : Slot) : Pc → Move Slot → Prop
  | forkAlloc {np} : Makes k t (.fork .alloc) (.alloc t np .fork)
  | forkNoStack {np} : Makes k t (.fork (.init np)) (.release t np)
  | forkGroup {np} : Makes k t (.fork (.init np)) (.group t np .fork)
  | forkNoMemory {np} : Makes k t (.fork (.copy np)) (.release t np)
  | forkMap {np} : Makes k t (.fork (.copy np)) (.map t np .fork)
  | forkRoot {np} : Makes k t (.fork (.parent np)) (.root t np .fork)
  | forkPublish {np} : Makes k t (.fork (.publish np)) (.publish t np .fork)
  | cloneAlloc {np} : Makes k t (.clone .alloc) (.alloc t np .clone)
  | cloneNoStack {np} : Makes k t (.clone (.init np)) (.release t np)
  | cloneGroup {np} : Makes k t (.clone (.init np)) (.group t np .clone)
  | cloneMap {np} : Makes k t (.clone (.pgdir np)) (.map t np .clone)
  | cloneRead {np} : Makes k t (.clone (.parent np)) (.read t np)
  | cloneRoot {np p} : Makes k t (.clone (.setParent np p)) (.root t np .clone)
  | clonePublish {np} : Makes k t (.clone (.publish np)) (.publish t np .clone)
  | cloneStillborn {np} : Makes k t (.clone (.publish np)) (.stillborn t np)
  | ret {r} : Makes k t (.ret r) (.exitEnter t)
  | trap : Makes k t .trap (.exitEnter t)
  | exit {L} : Makes k t (.exit .zombie) (.exit t L)
  | wait {L p} (hL : (k.proc t).process = some L) (hp : k.waitFound L = some p) :
      Makes k t .wait (.waitReap t p)
  | joinEnter {pid p} (hp : k.findPid pid = some p) : Makes k t (.join pid) (.joinEnter t pid p)
  | joinNow {pid p} (hp : k.findPid pid = some p) : Makes k t (.join pid) (.joinReap t p)
  | joinReap {pid p} : Makes k t (.joinWait pid p) (.joinReap t p)
  | joinLeave {pid p} : Makes k t (.joinWait pid p) (.joinLeave t)
  | mark : Makes k t (.exec .mark) (.mark t)
  | alone : Makes k t (.exec .wait) (.alone t)
  | swap {L} : Makes k t (.exec .swap) (.swap t L)
  | take : Makes k t (.exec .take) (.take t)
  | settle : Makes k t (.exec .setLost) (.settle t)
  | load : Makes k t (.exec .load) (.load t)
  | giveUp : Makes k t (.exec .load) (.giveUp t)
  | commit {image sz} : Makes k t (.exec (.commit image sz)) (.commit t)
  | kill {pid s} : Makes k t (.kill pid) (.kill s)

/-- The moves that a label stands for. -/
def Enacts (k : Kernel) (m : Move Slot) : Label → Prop
  | .step t _ => k.Makes t (k.pc t) m
  | .syscall t _ | .interrupt t => m = .exitEnter t
  | .fault t => m = .kill t
  | _ => False

/-- The thread-group machine follows a step of the kernel, if need be with a
move that has the property `M`. -/
def Follows (k : Kernel) (M : Move Slot → Prop) (k' : Kernel) : Prop :=
  Transition.Follows Step M k.group k'.group

variable {k k' : Kernel} {t L s : Slot} {e : Env} {M : Move Slot → Prop} {p : Slot} {pid : ℤ}
  {next : Kernel → Kernel} {ok : Kernel → Label → Prop}

section

variable {c : Pc} {f : Proc → Proc}

@[simp] theorem group_goto :
    (k.goto t c).group = { k.group with job := update k.group.job t c.job } := by
  ext <;> simp only [group, goto, update_apply]
  split <;> rfl

@[simp] theorem group_ret {r : ℤ} :
    (k.ret t r).group = { k.group with job := update k.group.job t .none } :=
  group_goto

theorem group_goto_same (h : c.job = k.group.job t) : (k.goto t c).group = k.group := by
  rw [group_goto, h, update_eq_self]

theorem group_goto_of (hk : k'.group = k.group) (h : c.job = k.group.job t) :
    (k'.goto t c).group = k.group :=
  (group_goto_same (by rw [hk]; exact h)).trans hk

@[simp] theorem group_ref {r : File → ℕ} : { k with ref := r }.group = k.group := rfl

theorem group_of_thread {p : Slot → Proc} (hproc : ∀ s, (p s).thread = (k.proc s).thread)
    (hk : k' = { k with proc := p }) : k'.group = k.group := by
  simp only [Proc.thread, Prod.mk.injEq] at hproc
  subst hk
  ext <;> simp [group, hproc]

@[simp] theorem group_modify_same (h : (f (k.proc s)).thread = (k.proc s).thread) :
    (k.modify s f).group = k.group :=
  group_of_thread (fun u => by
    simp only [update_apply]
    split
    · next hu => rw [hu, h]
    · rfl) rfl

theorem group_modify_state
    (h : { f (k.proc s) with state := (k.proc s).state }.thread = (k.proc s).thread) :
    (k.modify s f).group =
      { k.group with phase := update k.group.phase s (f (k.proc s)).state.phase } := by
  simp only [Proc.thread, Prod.mk.injEq, true_and] at h
  ext <;> simp only [group, modify, update_apply] <;> grind

theorem group_modify_threadcount (g : ℕ → ℕ) :
    (k.modify s fun q => { q with threadcount := g q.threadcount }).group = { k.group with
      threadcount := update k.group.threadcount s (g (k.group.threadcount s)) } := by
  ext <;> simp only [group, modify, update_apply] <;> grind

@[simp] theorem group_wakeup1 {ch : Chan} : (k.wakeup1 ch).group = k.group :=
  group_of_thread (fun u => by
    split
    · next hu => simp [Proc.thread, hu.1, ProcState.phase]
    · rfl) rfl

theorem group_sleep {ch : Chan} (ht : k.group.phase t = .live) : (k.sleep t ch).group = k.group :=
  group_modify_same (Prod.ext ht.symm rfl)

@[simp] theorem group_setFile {fd : Fd} {f : Option File} :
    (k.setFile t fd f).group = k.group :=
  group_modify_same rfl

@[simp] theorem group_setDir {d : Pgdir} : (k.setDir t d).group = k.group := by
  unfold setDir
  split <;> rfl

@[simp] theorem job_update_none (h : k.group.job t = .none) :
    update k.group.job t .none = k.group.job :=
  update_eq_self_iff.mpr h.symm

end

section

variable (hinv : Inv k.group) (ht : (k.proc t).state = .running)
  (hL : (k.proc t).process = some L)

include ht in
theorem phase_of_running : k.group.phase t = .live := by simp [group, ht, ProcState.phase]

include ht in
theorem allocproc_follows {kind : Group.Kind} {next : Slot → Pc} (hj : k.group.job t = .none)
    (hnext : ∀ np, (next np).job = .build kind .raw np) (hM : ∀ np, M (.alloc t np kind)) :
    Follows k M (k.allocproc t next) := by
  unfold allocproc
  split
  · exact .stay (by simp [hj])
  · next np hnp =>
    split
    · exact .stay rfl
    · have hunused : k.group.phase np = .unused := by
        have hstate := (Fin.find?_eq_some_iff.mp hnp).1
        simp_all [group, ProcState.phase]
      refine .move (.alloc (phase_of_running ht) hj hunused) (hM np) ?_
      ext <;> simp only [group, modify, goto, update_apply] <;> grind

theorem allocKstack_follows {kind : Group.Kind} {next : Pc} {np : Slot} {fields : Proc → Proc}
    {a : Table Slot} (hj : k.group.job t = .build kind .raw np) (hM : M (.release t np))
    (hM' : M (.group t np kind)) (hst : Step k.group (.group t np kind) a)
    (ha : (({ k with npage := k.npage + 1 }.modify np fun q =>
      fields { q with kstack := some k.npage }).goto t next).group = a) :
    Follows k M (k.allocKstack t np e fields next) := by
  unfold allocKstack
  split
  · refine .move (.release hj (.inl rfl)) hM ?_
    ext <;> simp only [group, modify, ret, goto, update_apply] <;> grind
  · exact .move hst hM' ha

theorem group_filedup {f : File}
    (hnext : ∀ r, (next { k with ref := r }).group = k.group) :
    (k.filedup f next).group = k.group := by
  unfold filedup
  split
  · rfl
  · exact hnext _

theorem group_fileclose {f : File}
    (hnext : ∀ r, (next { k with ref := r }).group = k.group) :
    (k.fileclose f next).group = k.group := by
  unfold fileclose
  split
  · rfl
  · exact hnext _

theorem group_dupFiles {fds : List Fd} {store : Fd → File → List Fd → Pc} {done : Pc}
    (hstore : ∀ fd f fds, (store fd f fds).job = k.group.job t)
    (hdone : done.job = k.group.job t) : (k.dupFiles t fds store done).group = k.group := by
  unfold dupFiles
  split
  · exact group_goto_same hdone
  · exact group_filedup fun r => group_goto_of rfl (hstore _ _ _)

include hinv ht hL in
theorem forkStep_follows {c : ForkPc} (hpc : k.pc t = .fork c) :
    Follows k (k.Makes t (.fork c)) (k.forkStep t L e c) := by
  have hj : k.group.job t = (Pc.fork c).job := by simp only [group, hpc]
  cases c with
  | alloc => exact allocproc_follows ht hj (fun _ => rfl) fun _ => .forkAlloc
  | init np =>
    refine allocKstack_follows hj .forkNoStack .forkGroup (.groupFork hj) ?_
    ext <;> simp only [group, modify, goto, update_apply] <;> grind
  | copy np =>
    simp only [forkStep]
    split
    · exact .stay rfl
    · refine .move (.release hj (.inr ⟨rfl, rfl⟩)) .forkNoMemory ?_
      have hpgdir := hinv.build_pgdir t .fork .grouped np hj (.inr rfl)
      ext <;> simp only [group, modify, ret, goto, update_apply] at * <;> grind
    · refine .move (.mapFork hj) .forkMap ?_
      ext <;> simp only [group, modify, goto, update_apply] <;> grind
  | parent np =>
    refine .move (.rootFork hj) .forkRoot ?_
    ext <;> simp only [group, forkStep, modify, goto, update_apply] <;> grind
  | files np fds => exact .stay (group_dupFiles (fun _ _ _ => hj.symm) hj.symm)
  | file np fd f fds => exact .stay (group_goto_of group_setFile hj.symm)
  | cwd np => exact .stay (group_goto_same hj.symm)
  | idup np cwd =>
    have hgroup := group_modify_same (k := { k with
      iref := fun i => k.iref i + if cwd = some i then 1 else 0 }) (s := np)
      (f := fun q => { q with cwd := cwd }) rfl
    exact .stay (group_goto_of hgroup hj.symm)
  | publish np =>
    have hnp := hinv.job_embryo (hinv.build_embryo t .fork .rooted np hj)
    refine .move (.publishFork hj) .forkPublish ?_
    ext <;> simp only [group, forkStep, modify, ret, goto, update_apply] at * <;> grind

include hinv ht hL in
theorem cloneStep_follows {c : ClonePc} (hpc : k.pc t = .clone c) :
    Follows k (k.Makes t (.clone c)) (k.cloneStep t L e c) := by
  have hj : k.group.job t = (Pc.clone c).job := by simp only [group, hpc]
  have hprocess : k.group.process t = some L := hL
  cases c with
  | check stack =>
    simp only [cloneStep]
    split <;> exact .stay (group_goto_same hj.symm)
  | alloc => exact allocproc_follows ht hj (fun _ => rfl) fun _ => .cloneAlloc
  | init np =>
    refine allocKstack_follows hj .cloneNoStack .cloneGroup (.groupClone hj) ?_
    ext <;> simp only [group, modify, goto, update_apply] <;> grind
  | pgdir np =>
    refine .move (.mapClone hj) .cloneMap ?_
    ext <;> simp only [group, cloneStep, modify, goto, update_apply] <;> grind
  | parent np =>
    refine .move (.read hj) .cloneRead ?_
    ext <;> simp only [group, cloneStep, modify, goto, update_apply] <;> grind
  | setParent np p =>
    refine .move (.rootClone hj) .cloneRoot ?_
    ext <;> simp only [group, cloneStep, modify, goto, update_apply] <;> grind
  | files np fds => exact .stay (group_dupFiles (fun _ _ _ => hj.symm) hj.symm)
  | file np fd f fds => exact .stay (group_goto_of group_setFile hj.symm)
  | publish np =>
    have hnp := hinv.job_embryo (hinv.build_embryo t .clone .rooted np hj)
    simp only [cloneStep]
    split
    · next hk =>
      refine .move (.stillborn hj hk) .cloneStillborn ?_
      ext <;> simp only [group, modify, ret, goto, update_apply] at * <;> grind
    · next hk =>
      have hcount : k.group.threadcount L ≤ 64 :=
        (hinv.threadcount_le hprocess).trans (by simp)
      refine .move (.publishClone hj (Bool.eq_false_iff.mpr hk) hprocess) .clonePublish ?_
      rw [group_ret, group_goto, group_modify_threadcount fun n => (n + 1) % 2 ^ 32,
        group_modify_state rfl]
      have hmod : (k.group.threadcount L + 1) % 2 ^ 32 = k.group.threadcount L + 1 := by
        omega
      simp only [hmod, Pc.job, job_update_none hnp, ProcState.phase]

theorem group_reparent : (k.reparent t).group = { k.group with
    parent := fun p =>
      if k.group.parent p = some t then some k.group.initproc else k.group.parent p } := by
  unfold reparent
  split
  · rw [group_wakeup1]
    ext <;> simp only [group] <;> grind
  · ext <;> simp only [group] <;> grind

include hinv ht hL in
theorem exitStep_follows {c : ExitPc} (hpc : k.pc t = .exit c) :
    Follows k (k.Makes t (.exit c)) (k.exitStep t L c) := by
  have hj : k.group.job t = .exit := by simp only [group, hpc, Pc.job]
  have hprocess : k.group.process t = some L := hL
  cases c with
  | close fds =>
    refine .stay ?_
    simp only [exitStep]
    split
    · exact group_goto_same hj.symm
    · exact group_fileclose fun r => group_goto_of rfl hj.symm
  | clear fd fds => exact .stay (group_goto_of group_setFile hj.symm)
  | count => exact .stay (group_goto_same (by split <;> exact hj.symm))
  | iput =>
    refine .stay ((group_goto_same ?_).trans ?_)
    · rw [group_modify_same rfl]
      exact hj.symm
    · rw [group_modify_same rfl]
      rfl
  | zombie =>
    have hcount : k.group.threadcount L ≤ 64 :=
      (hinv.threadcount_le hprocess).trans (by simp)
    have hpos := hinv.threadcount_pos (phase_of_running ht) hprocess
    refine .move (.exit hj hprocess) .exit ?_
    have hmod : (k.group.threadcount L + (2 ^ 32 - 1)) % 2 ^ 32 = k.group.threadcount L - 1 := by
      omega
    simp only [exitStep]
    rw [group_goto, group_modify_state rfl, group_reparent,
      group_modify_threadcount fun n => (n + (2 ^ 32 - 1)) % 2 ^ 32, group_wakeup1, group_wakeup1]
    simp only [hmod, Pc.job, ProcState.phase]

theorem enterExit_follows (hphase : k.group.phase t = .live) (hj : k.group.job t = .none)
    (hM : M (.exitEnter t)) : Follows k M (k.enterExit t) := by
  unfold enterExit
  split
  · exact .stay rfl
  · next hne => exact .move (.exitEnter hphase hj hne) hM group_goto

theorem waitFound_spec (h : k.waitFound L = some p) :
    (k.proc p).parent = some L ∧
      ∃ M, (k.proc p).process = some M ∧ (k.proc M).threadcount = 0 := by
  unfold waitFound at h
  obtain ⟨hp, -⟩ := Fin.find?_eq_some_iff.mp h
  simp only [Bool.and_eq_true, childOf, decide_eq_true_eq, groupDead] at hp
  refine ⟨hp.1, ?_⟩
  cases hM : (k.proc p).process with
  | none => simp [hM] at hp
  | some M => exact ⟨M, rfl, by simpa [hM] using hp.2⟩

include ht hL in
theorem waitStep_follows (hpc : k.pc t = .wait) :
    Follows k (k.Makes t .wait) (k.waitStep t L) := by
  have hj : k.group.job t = .none := by simp only [group, hpc, Pc.job]
  unfold waitStep
  split
  · exact .stay (group_goto_same hj.symm)
  · split
    · exact .stay (group_sleep (phase_of_running ht))
    · next p hp =>
      obtain ⟨hparent, M, hM, hzero⟩ := waitFound_spec hp
      unfold reapGroup
      split
      · next hz =>
        refine .move (.waitReap (phase_of_running ht) hj hL hparent hM hzero fun s hs => ?_)
          (.wait hL hp) ?_
        · have hzombie := hz s hs
          simp [group, hzombie, ProcState.phase]
        · ext <;> simp only [group, ret, goto, reaped, Table.clear, Table.freed, freesDir,
            update_apply] <;> grind
      · exact .stay rfl

theorem group_reapSlot :
    (k.reapSlot p).group = k.group.clear fun s => s = p := by
  ext <;> simp only [group, reapSlot, modify, reaped, Table.clear, update_apply] <;> grind

include ht in
theorem joinLoop_follows
    (hj : (k.group.job t = .none ∧ k.group.tgid p = k.group.tgid t ∧
        k.group.process p = k.group.process t) ∨ k.group.job t = .join pid p)
    (hstay : Follows k M (k.ret t (-1)) ∧ Follows k M (k.ret t pid))
    (hsleep : Follows k M ((k.sleep t (.slot L)).goto t (.joinWait pid p)))
    (hreap : M (.joinReap t p)) : Follows k M (k.joinLoop t L pid p) := by
  unfold joinLoop
  split
  · split
    · exact hstay.1
    · exact hsleep
  · next hz =>
    split
    · next hp =>
      have hzombie : k.group.phase p = .zombie := by
        simp only [group, not_not.mp hz, ProcState.phase]
      refine .move (.joinReap (phase_of_running ht) (hj.imp_right fun h => ⟨pid, h⟩) hzombie hp.1
        hp.2) hreap ?_
      rw [group_ret, group_reapSlot]
      rfl
    · exact hstay.2

theorem findPid_pid (h : k.findPid pid = some p) : (k.proc p).pid = pid := by
  unfold findPid at h
  simpa using (Fin.find?_eq_some_iff.mp h).1

include ht in
theorem joinStep_follows (hpc : k.pc t = .join pid) :
    Follows k (k.Makes t (.join pid)) (k.joinStep t L e pid) := by
  have hj : k.group.job t = .none := by simp only [group, hpc, Pc.job]
  have hret : ∀ {r : ℤ}, Follows k (k.Makes t (.join pid)) (k.ret t r) :=
    .stay (group_goto_same hj.symm)
  unfold joinStep
  split
  · next p hp =>
    split
    · next hsame =>
      have hpid := findPid_pid hp
      refine joinLoop_follows ht (.inl ⟨hj, hsame.1, hsame.2⟩) ⟨hret, hret⟩ ?_ (.joinNow hp)
      refine .move (.joinEnter (phase_of_running ht) hj hpid hsame.1 hsame.2)
        (.joinEnter hp) ?_
      rw [group_goto, group_sleep (phase_of_running ht)]
      rfl
    · exact hret
  · split
    · exact .stay (group_goto_same hj.symm)
    · exact .stay rfl

include ht in
theorem joinWait_follows (hpc : k.pc t = .joinWait pid p) :
    Follows k (k.Makes t (.joinWait pid p)) (k.joinLoop t L pid p) := by
  have hj : k.group.job t = .join pid p := by simp only [group, hpc, Pc.job]
  have hleave : ∀ {r : ℤ}, Follows k (k.Makes t (.joinWait pid p)) (k.ret t r) :=
    .move (.joinLeave hj) .joinLeave group_ret
  refine joinLoop_follows ht (.inr hj) ⟨hleave, hleave⟩ (.stay ?_) .joinReap
  exact group_goto_of (group_sleep (phase_of_running ht)) hj.symm

include hinv ht hL in
theorem execStep_follows {c : ExecPc} (hpc : k.pc t = .exec c) :
    Follows k (k.Makes t (.exec c)) (k.execStep t L e c) := by
  have hj : k.group.job t = (Pc.exec c).job := by simp only [group, hpc]
  cases c with
  | mark =>
    simp only [execStep, execMark]
    split
    · exact .stay (group_goto_same hj.symm)
    · next hk =>
      refine .move (.mark (phase_of_running ht) hj (Bool.eq_false_iff.mpr hk)) .mark ?_
      ext <;> simp only [group, goto, marked, update_apply] <;> grind
  | wait =>
    simp only [execStep]
    split
    · exact .stay (group_sleep (phase_of_running ht))
    · next halive =>
      refine .move (.alone hj fun s hs hne => ?_) .alone group_goto
      simp only [execAlive, decide_eq_true_eq, not_exists, not_and, not_not] at halive
      have hzombie := halive s hs hne
      simp only [group, hzombie, ProcState.phase]
  | swap =>
    refine .move (.swap hj hL) .swap ?_
    ext <;> simp only [group, execStep, modify, goto, update_apply] <;> grind
  | take =>
    refine .move (.take hj) .take ?_
    ext <;> simp only [group, execStep, modify, goto, update_apply] <;> grind
  | setCount =>
    -- The thread is the only one of its group, so the store changes nothing.
    have hcount : (k.proc L).threadcount = 1 := hinv.count_alone hj (by simp) hL
    exact .stay (group_goto_of (group_modify_same (by simp [Proc.thread, hcount])) hj.symm)
  | setLost =>
    refine .move (.settle hj) .settle ?_
    rw [execStep, group_goto, group_modify_same rfl]
    rfl
  | load =>
    simp only [execStep]
    split
    · exact .move (.giveUp hj) .giveUp group_ret
    · split
      · exact .stay rfl
      · exact .move (.giveUp hj) .giveUp group_ret
      · refine .move (.load hj) .load ?_
        ext <;> simp only [group, goto, update_apply]
        grind
  | commit image sz =>
    refine .move (.commit hj) .commit ?_
    ext <;> simp only [group, execStep, modify, ret, goto, update_apply] <;> grind

theorem group_ret_of (hj : k.group.job t = .none) {k₁ : Kernel} {r : ℤ}
    (h : k₁.group = k.group) : (k₁.ret t r).group = k.group :=
  group_goto_of h hj.symm

theorem group_growprocStep {n : ℤ} {addr : ℕ} (hj : k.group.job t = .none) :
    (k.growprocStep t L e n addr).group = k.group := by
  have hsz : ∀ {k₁ : Kernel} {r : ℤ} {sz : ℕ}, k₁.group = k.group →
      ((k₁.modify L fun q => { q with sz := sz }).ret t r).group = k.group :=
    fun h => group_ret_of hj ((group_modify_same rfl).trans h)
  simp only [growprocStep]
  split
  · split
    · rfl
    · split
      · exact group_ret_of hj group_setDir
      · exact hsz group_setDir
  · split
    · split
      · exact group_ret_of hj group_setDir
      · exact hsz group_setDir
    · exact hsz rfl

theorem group_filealloc {f : File} (h : k.filealloc = some (f, k')) : k'.group = k.group := by
  unfold filealloc at h
  obtain ⟨_, _, heq⟩ := Option.map_eq_some_iff.mp h
  cases heq
  rfl

theorem group_fileStep {c : FilePc} (hj : k.group.job t = .none) :
    (k.fileStep t e c).group = k.group := by
  have hstay : ∀ {c' : Pc}, c'.job = .none → (k.goto t c').group = k.group :=
    fun h => group_goto_same (h.trans hj.symm)
  have hgoto : ∀ {q : Kernel} {c' : Pc}, c'.job = .none → q.group = k.group →
      (q.goto t c').group = k.group :=
    fun hc h => group_goto_of h (hc.trans hj.symm)
  cases c with
  | «open» =>
    simp only [fileStep]
    split
    · split
      · exact hstay rfl
      · next h => exact hgoto rfl (group_filealloc h)
    · exact hstay rfl
  | openFd f =>
    simp only [fileStep]
    split
    · exact hstay rfl
    · exact hgoto rfl group_setFile
  | dup fd =>
    simp only [fileStep]
    split
    · exact hgoto rfl group_setFile
    · exact hstay rfl
  | dupped f fd => exact group_filedup fun r => hgoto rfl group_ref
  | close fd =>
    simp only [fileStep]
    split
    · exact hstay rfl
    · exact hgoto rfl group_setFile
  | closing fs r =>
    cases fs with
    | nil => exact hstay rfl
    | cons f fs => exact group_fileclose fun r => hgoto rfl group_ref
  | pipe =>
    simp only [fileStep]
    split
    · exact hstay rfl
    · next h => exact hgoto rfl (group_filealloc h)
  | pipeWrite rf =>
    simp only [fileStep]
    split
    · exact hstay rfl
    · next h => exact hgoto rfl (group_filealloc h)
  | pipeFds rf wf =>
    simp only [fileStep]
    split
    · exact hstay rfl
    · unfold pipeFds
      split
      · exact hstay rfl
      · split
        · exact hgoto rfl (group_setFile.trans group_setFile)
        · exact hgoto rfl (group_setFile.trans group_setFile)

theorem phase_marked {q : Proc} : (marked q).state.phase = q.state.phase := by
  cases hq : q.state <;> simp [marked, hq, ProcState.phase]

theorem group_modify_marked :
    (k.modify p marked).group = { k.group with killed := update k.group.killed p true } := by
  have hphase := phase_marked (q := k.proc p)
  ext <;> simp only [group, modify, update_apply] <;> grind [marked]

theorem killStep_follows (hpc : k.pc t = .kill pid) :
    Follows k (k.Makes t (.kill pid)) (k.killStep t pid) := by
  have hj : k.group.job t = .none := by simp only [group, hpc, Pc.job]
  unfold killStep
  split
  · exact .stay (group_ret_of hj rfl)
  · next p _ =>
    refine .move (.kill (s := p)) .kill ?_
    rw [group_ret, group_modify_marked]
    simp only [job_update_none hj]

include ht in
theorem group_parkStep {c : Chan} (hj : k.group.job t = .none) :
    (k.parkStep t c).group = k.group := by
  unfold parkStep
  split
  · exact group_ret_of hj (group_modify_same rfl)
  · have hgroup : ((k.sleep t c).modify t fun q => { q with lostwakeup := .null }).group =
        k.group := (group_modify_same rfl).trans (group_sleep (phase_of_running ht))
    exact group_goto_of hgroup hj.symm

theorem group_unparkStep {c : Chan} (hj : k.group.job t = .none) :
    (k.unparkStep t e pid c).group = k.group := by
  unfold unparkStep
  split
  · split
    · next hs =>
      exact group_ret_of hj (group_modify_same (by simp [Proc.thread, hs.1, ProcState.phase]))
    · exact group_ret_of hj (group_modify_same rfl)
  · split
    · exact group_ret_of hj rfl
    · rfl

include hinv ht hL in
theorem callStep_follows (h : k.callStep t L e (k.pc t) = some k') :
    Follows k (k.Makes t (k.pc t)) k' := by
  cases hpc : k.pc t with
  | dead | user => simp [callStep, hpc] at h
  | ret r =>
    have hj : k.group.job t = .none := by simp only [group, hpc, Pc.job]
    simp only [hpc, callStep, Option.some.injEq] at h
    split at h <;> subst h
    · exact enterExit_follows (phase_of_running ht) hj .ret
    · exact .stay (group_goto_same hj.symm)
  | trap =>
    have hj : k.group.job t = .none := by simp only [group, hpc, Pc.job]
    simp only [hpc, callStep, Option.some.injEq] at h
    split at h <;> subst h
    · exact enterExit_follows (phase_of_running ht) hj .trap
    · exact .stay (group_goto_same hj.symm)
  | fork c =>
    simp only [hpc, callStep, Option.some.injEq] at h
    exact h ▸ forkStep_follows hinv ht hL hpc
  | clone c =>
    simp only [hpc, callStep, Option.some.injEq] at h
    exact h ▸ cloneStep_follows hinv ht hL hpc
  | exit c =>
    simp only [hpc, callStep, Option.some.injEq] at h
    exact h ▸ exitStep_follows hinv ht hL hpc
  | wait =>
    simp only [hpc, callStep, Option.some.injEq] at h
    exact h ▸ waitStep_follows ht hL hpc
  | join pid =>
    simp only [hpc, callStep, Option.some.injEq] at h
    exact h ▸ joinStep_follows ht hpc
  | joinWait pid p =>
    simp only [hpc, callStep, Option.some.injEq] at h
    exact h ▸ joinWait_follows ht hpc
  | exec c =>
    simp only [hpc, callStep, Option.some.injEq] at h
    exact h ▸ execStep_follows hinv ht hL hpc
  | kill pid =>
    simp only [hpc, callStep, Option.some.injEq] at h
    exact h ▸ killStep_follows hpc
  | park c | parked | unpark pid c | sbrk n | growproc n addr | file c =>
    have hj : k.group.job t = .none := by simp only [group, hpc, Pc.job]
    simp only [hpc, callStep, Option.some.injEq] at h
    subst h
    first
    | exact .stay (group_parkStep ht hj)
    | exact .stay (group_ret_of hj rfl)
    | exact .stay (group_unparkStep hj)
    | exact .stay (group_goto_same hj.symm)
    | exact .stay (group_growprocStep hj)
    | exact .stay (group_fileStep hj)

include ht in
theorem enter_follows {c : Call} (hj : k.group.job t = .none) :
    Follows k (fun m => m = .exitEnter t) (k.enter t c) := by
  cases c with
  | exit => exact enterExit_follows (phase_of_running ht) hj rfl
  | _ => exact .stay (group_goto_same hj.symm)

end

theorem next_follows {l : Label} (hinv : Inv k.group) (h : k.next l = some k') :
    Follows k (fun m => k.Enacts m l) k' := by
  cases l with
  | schedule t | yield t =>
    obtain ⟨⟨_, hs⟩, ⟨⟩⟩ := Option.ite_none_right_eq_some.mp h
    exact .stay (group_modify_same (by simp [Proc.thread, hs, ProcState.phase]))
  | syscall t c =>
    obtain ⟨⟨_, hs, hpc⟩, heq⟩ := Option.ite_none_right_eq_some.mp h
    have hj : k.group.job t = .none := by simp only [group, hpc, Pc.job]
    cases heq
    split
    · exact enterExit_follows (phase_of_running hs) hj rfl
    · exact enter_follows hs hj
  | interrupt t =>
    obtain ⟨⟨_, hs, hpc, _⟩, ⟨⟩⟩ := Option.ite_none_right_eq_some.mp h
    have hj : k.group.job t = .none := by simp only [group, hpc, Pc.job]
    exact enterExit_follows (phase_of_running hs) hj rfl
  | fault t =>
    obtain ⟨⟨_, hs, hpc⟩, ⟨⟩⟩ := Option.ite_none_right_eq_some.mp h
    have hj : k.group.job t = .none := by simp only [group, hpc, Pc.job]
    refine .move (.kill (s := t)) rfl ?_
    ext <;> simp only [group, modify, goto, update_apply] at * <;> grind
  | step t e =>
    obtain ⟨⟨_, hs⟩, hstep⟩ := Option.ite_none_right_eq_some.mp h
    cases hL : (k.proc t).process with
    | none =>
      simp only [hL, Option.some.injEq] at hstep
      exact .stay (hstep ▸ rfl)
    | some L =>
      simp only [hL] at hstep
      exact callStep_follows hinv hs hL hstep
  | block t a =>
    obtain ⟨⟨_, hs, _⟩, ⟨⟩⟩ := Option.ite_none_right_eq_some.mp h
    exact .stay (group_sleep (phase_of_running hs))
  | wakeup a =>
    obtain ⟨_, ⟨⟩⟩ := Option.ite_none_right_eq_some.mp h
    exact .stay group_wakeup1

theorem group_userinit : userinit.group = .initial 0 := by
  ext <;> simp only [group, userinit, Table.initial] <;> grind [initcode]

theorem reach_group {ok' : Table Slot → Move Slot → Prop}
    (hok : ∀ k l m a, ok k l → k.Enacts m l → Step k.group m a → ok' k.group m)
    (h : ReachableBy ok k) : Transition.Reach (Group.machine 0) ok' k.group := by
  refine h.simulate (fun k h0 => h0 ▸ group_userinit) fun k l k' _ hr hl hstep => ?_
  rcases next_follows (Inv.of_reach hr) hstep with heq | ⟨m, hm, hst⟩
  · exact .stay heq
  · exact .move hst (hok k l m _ hl hm hst) rfl

theorem inv_of_reachable (h : ReachableBy ok k) : Inv k.group := by
  have hreach : Transition.Reach (Group.machine 0) Transition.anyStep k.group :=
    reach_group (fun _ _ _ _ _ _ _ => trivial) h
  exact .of_reach hreach

theorem Enacts.step {m : Move Slot} {l : Label} (h : k.Enacts m l) (hkill : ∀ s, m ≠ .kill s)
    (hexit : ∀ s, m ≠ .exitEnter s) : ∃ t e, l = .step t e ∧ k.Makes t (k.pc t) m := by
  cases l with
  | step t e => exact ⟨t, e, rfl, h⟩
  | syscall t c | interrupt t => exact absurd h (hexit t)
  | fault t => exact absurd h (hkill t)
  | schedule t | yield t | block t a | wakeup a => exact h.elim

/-- A kernel state that a run whose steps meet `ok` reaches. -/
abbrev RunState (ok : Kernel → Label → Prop) := {k : Kernel // ReachableBy ok k}

instance : Inhabited (RunState ok) := ⟨⟨userinit, .init rfl⟩⟩

/-- **Refinement.** The bookkeeping of a kernel state is a state of the thread-group machine, and a
step of the kernel keeps it or is a move of that machine, one that the step enacts. -/
theorem kernel_refines_group (k : RunState ok) :
    Transition.Reach (Group.machine 0) Transition.anyStep k.1.group ∧
      ∀ l, ∀ k' ∈ k.1.next l, Follows k.1 (fun m => k.1.Enacts m l) k' := by
  refine ⟨reach_group (fun _ _ _ _ _ _ _ => trivial) k.2, fun l k' hnext => ?_⟩
  exact next_follows (inv_of_reachable k.2) hnext

/-- **Construction.** A slot is an embryo exactly when one live thread, and no other, is building it
in `fork` or `clone`. -/
theorem embryo_iff_built (k : RunState ok) (np : Slot) : (k.1.proc np).state = .embryo ↔
    ∃! t, (k.1.proc t).state.phase = .live ∧ ∃ kd st, (k.1.pc t).job = .build kd st np := by
  have hinv := inv_of_reachable k.2
  have hphase : ∀ q : ProcState, q.phase = .embryo ↔ q = .embryo := by
    rintro ⟨⟩ <;> simp [ProcState.phase]
  rw [← hphase]
  constructor
  · intro h
    obtain ⟨t, kd, st, hj⟩ := hinv.embryo_build np h
    refine ⟨t, ⟨hinv.job_live t (by simp [hj]), kd, st, hj⟩, ?_⟩
    rintro u ⟨-, kd', st', hu⟩
    exact hinv.build_inj u t kd' kd st' st np hu hj
  · rintro ⟨t, ⟨-, kd, st, hj⟩, -⟩
    exact hinv.build_embryo t kd st np hj

/-- **Pids.** Slots that are live or under construction have different pids. -/
theorem live_pids_distinct (k : RunState ok) : Set.InjOn (fun s => (k.1.proc s).pid)
    {s | (k.1.proc s).state ≠ .unused ∧ (k.1.proc s).state ≠ .zombie} := by
  have hphase : ∀ q : ProcState, q ≠ .unused ∧ q ≠ .zombie → q.phase = .live ∨ q.phase = .embryo := by
    rintro ⟨⟩ <;> simp [ProcState.phase]
  intro s hs s' hs' hpid
  exact (inv_of_reachable k.2).pid_inj s s' (hphase _ hs) (hphase _ hs') hpid

end Kernel

end KThreads
