import KThreads.Threads

/-!
# What exec by a thread other than the leader does

`exec` makes its caller the process by exchanging pids with the leader slot, but
the leader slot stays the one that the rest of the kernel looks at. Two slots have
one pid between the two stores of an exchange, and from the second exchange in a
group on for good; and from the first exchange on no slot of the group is the one
whose directory `wait` frees.
-/

namespace KThreads.Group

open Function (update_apply)

variable {ι : Type*} [DecidableEq ι] [Fintype ι] {a a' : Table ι} {m : Move ι}

/-- Only the leader of a group gets behind the waiting loop of `exec`. -/
def LeaderExecs (a : Table ι) (m : Move ι) : Prop := ∀ t L, m = .swap t L → a.process t = some t

/-- A thread in `exec` that has taken over its group. -/
def Takeover.Done : Takeover → Prop
  | .waiting | .alone => False
  | .swapping | .taken | .swapped | .loaded _ => True

/-- Who holds which page directory. -/
structure DirInv (a : Table ι) : Prop where
  exec_leads : ∀ t x, a.job t = .exec x → x.Done → a.process t = some t
  lead_pid : ∀ L, a.Published L → a.process L = some L → a.pid L = a.tgid L
  lead_dir : ∀ L, a.Published L → a.process L = some L → a.pgdir L ≠ none
  fork_dir : ∀ t st np, a.job t = .build .fork st np → st ≠ .raw → st ≠ .grouped →
    a.pgdir np ≠ none
  /-- The directory of a leader is its own and has not been freed. -/
  owner_dir : ∀ L x, a.process L = some L → a.pgdir L = some x →
    a.owner x = some (a.tgid L) ∧ a.freevms x = 0
  live_dir : ∀ t L, a.phase t = .live → a.process t = some L → a.pgdir t = a.pgdir L
  clone_dir : ∀ t st np, a.job t = .build .clone st np → st ≠ .raw → st ≠ .grouped →
    a.pgdir np = a.pgdir t
  /-- A directory that was installed has been freed once, or a leader holds it. -/
  freed : ∀ x g, a.owner x = some g → a.freevms x ≠ 1 →
    a.freevms x = 0 ∧ ∃ L, a.process L = some L ∧ a.pgdir L = some x ∧ a.tgid L = g
  owner_lt : ∀ x, a.npage ≤ x → a.owner x = none
  unowned : ∀ x, a.owner x = none → a.freevms x = 0
  loaded : ∀ t x, a.job t = .exec (.loaded x) → a.owner x = none ∧ x < a.npage
  loaded_inj : ∀ t t' x, a.job t = .exec (.loaded x) → a.job t' = .exec (.loaded x) → t = t'

namespace DirInv

theorem exec_leads_step (h : DirInv a) (hinv : Inv a) (hok : LeaderExecs a m)
    (hst : Step a m a') : ∀ t x, a'.job t = .exec x → x.Done → a'.process t = some t := by
  have hlive := hinv.job_live
  have hbuild := hinv.build_embryo
  have hleads := h.exec_leads
  unfold LeaderExecs at hok
  cases hst <;> simp only [update_apply, Table.clear] at * <;> grind [Takeover.Done]

theorem lead_pid_step (h : DirInv a) (hinv : Inv a) (hok : LeaderExecs a m)
    (hst : Step a m a') : ∀ L, a'.Published L → a'.process L = some L → a'.pid L = a'.tgid L := by
  have hlive := hinv.job_live
  have hbuild := hinv.build_embryo
  have hfork := hinv.fork_group
  have hclone := hinv.clone_group
  have hof := @Inv.leader_of _ _ _ _ hinv
  have hpid := h.lead_pid
  unfold LeaderExecs at hok
  cases hst with
  | mapFork | mapClone | read | rootFork | rootClone | exitEnter | joinEnter | joinLeave | mark
  | alone | settle | load | giveUp | commit | kill => exact hpid
  | _ =>
    simp only [update_apply, Table.clear, Table.Published] at *
    grind

theorem lead_dir_step (h : DirInv a) (hinv : Inv a) (hst : Step a m a') :
    ∀ L, a'.Published L → a'.process L = some L → a'.pgdir L ≠ none := by
  have hlive := hinv.job_live
  have hbuild := hinv.build_embryo
  have hclone := hinv.clone_group
  have hof := @Inv.leader_of _ _ _ _ hinv
  have hdir := h.lead_dir
  have hfork := h.fork_dir
  cases hst with
  | read | rootFork | rootClone | exitEnter | joinEnter | joinLeave | mark | alone | swap | take
  | settle | load | giveUp | kill => exact hdir
  | _ =>
    simp only [update_apply, Table.clear, Table.Published] at *
    grind

theorem fork_dir_step (h : DirInv a) (hinv : Inv a) (hst : Step a m a') :
    ∀ t st np, a'.job t = .build .fork st np → st ≠ .raw → st ≠ .grouped →
      a'.pgdir np ≠ none := by
  have hlive := hinv.job_live
  have hbuild := hinv.build_embryo
  have hinj := hinv.build_inj
  have hfork := h.fork_dir
  cases hst <;> simp only [update_apply, Table.clear] at * <;> grind

theorem live_dir_step (h : DirInv a) (hinv : Inv a) (hst : Step a m a') :
    ∀ t L, a'.phase t = .live → a'.process t = some L → a'.pgdir t = a'.pgdir L := by
  have hlive := hinv.job_live
  have hbuild := hinv.build_embryo
  have hleader := hinv.leader
  have hfork := hinv.fork_group
  have hclone := hinv.clone_group
  have halone := hinv.exec_alone
  have hof := @Inv.leader_of _ _ _ _ hinv
  have hleads := h.exec_leads
  have hdir := h.live_dir
  have hcopy := h.clone_dir
  cases hst with
  | read | rootFork | rootClone | exitEnter | joinEnter | joinLeave | mark | alone | swap | take
  | settle | load | giveUp | kill => exact hdir
  | _ =>
    simp only [update_apply, Table.clear, Table.Published] at *
    grind [Takeover.Done]

theorem clone_dir_step (h : DirInv a) (hinv : Inv a) (hst : Step a m a') :
    ∀ t st np, a'.job t = .build .clone st np → st ≠ .raw → st ≠ .grouped →
      a'.pgdir np = a'.pgdir t := by
  have hlive := hinv.job_live
  have hbuild := hinv.build_embryo
  have hinj := hinv.build_inj
  have hcopy := h.clone_dir
  cases hst <;> simp only [update_apply, Table.clear] at * <;> grind

theorem owner_lt_step (h : DirInv a) (hst : Step a m a') :
    ∀ x, a'.npage ≤ x → a'.owner x = none := by
  have hlt := h.owner_lt
  have hloaded := h.loaded
  cases hst with
  | groupFork | groupClone | mapFork | load | commit =>
    simp only [update_apply] at *
    grind
  | _ => exact hlt

theorem loaded_step (h : DirInv a) (hst : Step a m a') :
    ∀ t x, a'.job t = .exec (.loaded x) → a'.owner x = none ∧ x < a'.npage := by
  have hlt := h.owner_lt
  have hloaded := h.loaded
  have hinj := h.loaded_inj
  cases hst <;> simp only [update_apply, Table.clear] at * <;> grind

theorem loaded_inj_step (h : DirInv a) (hst : Step a m a') :
    ∀ t t' x, a'.job t = .exec (.loaded x) → a'.job t' = .exec (.loaded x) → t = t' := by
  have hloaded := h.loaded
  have hinj := h.loaded_inj
  cases hst <;> simp only [update_apply, Table.clear] at * <;> grind

theorem card_freed (h : DirInv a) (hinv : Inv a) {p M : ι} (hp : a.Published p)
    (hM : a.process p = some M) (x : ℕ) :
    (a.freed (a.tgid p) x).card = if a.pgdir M = some x then 1 else 0 := by
  obtain ⟨N, hN, hpub, hlead, htgid⟩ := hinv.leader p hp
  cases hM.symm.trans hN
  have honly : ∀ s, a.tgid s = a.tgid p ∧ (a.pid s = a.tgid s ∧ a.process s = some s) ∧
      a.pgdir s = some x → s = M := fun s hs =>
    Option.some.inj (hs.2.1.2.symm.trans ((hinv.tgid_process s p hp hs.1).trans hM))
  split
  · next hx =>
    exact Count.card_filter_single (x := M) ⟨htgid, ⟨h.lead_pid M hpub hlead, hlead⟩, hx⟩ honly
  · next hx =>
    exact Count.card_filter_none fun s hs => hx (honly s hs ▸ hs.2.2)

theorem leader_unique (hinv : Inv a) {L L' : ι} (hL : a.process L = some L)
    (hL' : a.process L' = some L') (hdir : a.pgdir L ≠ none) (htgid : a.tgid L' = a.tgid L) :
    L' = L := by
  cases hphase : a.phase L with
  | unused => exact absurd (hinv.unused_parent L hphase).2 hdir
  | live | zombie =>
    have hsame := hinv.tgid_process L' L (by simp [Table.Published, hphase]) htgid
    exact Option.some.inj (hL'.symm.trans (hsame.trans hL))
  | embryo =>
    obtain ⟨t, kd, st, hj⟩ := hinv.embryo_build L hphase
    have hlive := hinv.job_live t (by simp [hj])
    have hpgdir := hinv.build_pgdir t kd st L hj
    have hfork := hinv.fork_group t st L
    have hclone := hinv.clone_group t st L
    have hfresh := hinv.embryo_fresh L L' hphase
    have hof := @Inv.leader_of _ _ _ _ hinv t L
    cases kd <;> grind [Table.Published]

theorem owner_dir_step (h : DirInv a) (hinv : Inv a) (hst : Step a m a') :
    ∀ L x, a'.process L = some L → a'.pgdir L = some x →
      a'.owner x = some (a'.tgid L) ∧ a'.freevms x = 0 := by
  have hlive := hinv.job_live
  have hbuild := hinv.build_embryo
  have hpgdir := hinv.build_pgdir
  have hclone := hinv.clone_group
  have hof := @Inv.leader_of _ _ _ _ hinv
  have hunique := @leader_unique _ _ _ _ hinv
  have hleads := h.exec_leads
  have hlt := h.owner_lt
  have hloaded := h.loaded
  have hunowned := h.unowned
  have hdir := h.owner_dir
  cases hst with
  | @waitReap t p L M ht hj hL hp hM hzero hz =>
    have hcard := h.card_freed hinv (Or.inr (hz p rfl)) hM
    have hleader := hinv.leader p (Or.inr (hz p rfl))
    simp only [Table.clear, hcard]
    grind
  | alloc | release | read | rootFork | rootClone | publishFork | publishClone | stillborn
  | exitEnter | exit | joinEnter | joinLeave | mark | alone | swap | take | settle | load
  | giveUp | kill => exact hdir
  | _ =>
    simp only [update_apply, Table.clear, Table.Published] at *
    grind [Takeover.Done]

theorem freed_step (h : DirInv a) (hinv : Inv a) (hst : Step a m a') :
    ∀ x g, a'.owner x = some g → a'.freevms x ≠ 1 →
      a'.freevms x = 0 ∧ ∃ L, a'.process L = some L ∧ a'.pgdir L = some x ∧ a'.tgid L = g := by
  have hlive := hinv.job_live
  have hbuild := hinv.build_embryo
  have hpgdir := hinv.build_pgdir
  have hfork := hinv.fork_group
  have hof := @Inv.leader_of _ _ _ _ hinv
  have hleads := h.exec_leads
  have hlt := h.owner_lt
  have hloaded := h.loaded
  have hunowned := h.unowned
  have hdir := h.owner_dir
  have hfreed := h.freed
  cases hst with
  | @waitReap t p L M ht hj hL hp hM hzero hz =>
    have hcard := h.card_freed hinv (Or.inr (hz p rfl)) hM
    have hleader := hinv.leader p (Or.inr (hz p rfl))
    have hgroup := fun s => hinv.tgid_process s p (Or.inr (hz p rfl))
    simp only [Table.clear, hcard]
    grind
  | alloc | release | read | rootFork | rootClone | publishFork | publishClone | stillborn
  | exitEnter | exit | joinEnter | joinLeave | mark | alone | swap | take | settle | load
  | giveUp | kill => exact hfreed
  | _ =>
    simp only [update_apply, Table.clear, Table.Published] at *
    grind [Takeover.Done]

theorem unowned_step (h : DirInv a) (hinv : Inv a) (hst : Step a m a') :
    ∀ x, a'.owner x = none → a'.freevms x = 0 := by
  have hlive := hinv.job_live
  have hleads := h.exec_leads
  have hunowned := h.unowned
  have hdir := h.owner_dir
  cases hst with
  | @waitReap t p L M ht hj hL hp hM hzero hz =>
    have hcard := h.card_freed hinv (Or.inr (hz p rfl)) hM
    have hleader := hinv.leader p (Or.inr (hz p rfl))
    simp only [Table.clear, hcard]
    grind
  | mapFork | commit =>
    simp only [update_apply] at *
    grind [Takeover.Done]
  | _ => exact hunowned

theorem step (h : DirInv a) (hinv : Inv a) (hok : LeaderExecs a m) (hst : Step a m a') :
    DirInv a' where
  exec_leads := h.exec_leads_step hinv hok hst
  lead_pid := h.lead_pid_step hinv hok hst
  lead_dir := h.lead_dir_step hinv hst
  fork_dir := h.fork_dir_step hinv hst
  owner_dir := h.owner_dir_step hinv hst
  live_dir := h.live_dir_step hinv hst
  clone_dir := h.clone_dir_step hinv hst
  freed := h.freed_step hinv hst
  owner_lt := h.owner_lt_step hst
  unowned := h.unowned_step hinv hst
  loaded := h.loaded_step hst
  loaded_inj := h.loaded_inj_step hst

theorem of_reach {i : ι} (h : Transition.Reach (machine i) LeaderExecs a) : DirInv a := by
  refine h.invariant (fun a h0 => ?_) fun a m a' hr hinv hok hst =>
    hinv.step (Inv.of_reach hr) hok hst
  cases h0
  constructor
  case freed =>
    intro x g hx _
    refine ⟨rfl, i, by simp [Table.initial], ?_⟩
    simp only [Table.initial] at *
    grind
  all_goals
    simp only [Table.initial, Table.Published]
    grind

theorem leads_before (hinv : Inv a) (hst : Step a m a') (hfork : ∀ t np, m ≠ .map t np .fork)
    (hexec : ∀ t, m ≠ .commit t) {L : ι} {x : ℕ} (hL : a'.process L = some L)
    (hx : a'.pgdir L = some x) : a.process L = some L ∧ a.pgdir L = some x := by
  have hlive := hinv.job_live
  have hbuild := hinv.build_embryo
  have hpgdir := hinv.build_pgdir
  have hclone := hinv.clone_group
  have hof := @Inv.leader_of _ _ _ _ hinv
  cases hst with
  | alloc | release | read | rootFork | rootClone | publishFork | publishClone | stillborn
  | exitEnter | exit | joinEnter | joinLeave | mark | alone | swap | take | settle | load
  | giveUp | kill => exact ⟨hL, hx⟩
  | _ =>
    simp only [update_apply, Table.clear, Table.Published] at *
    grind

theorem live_freevms (h : DirInv a) (hinv : Inv a) {t : ι} (ht : a.phase t = .live) :
    ∃ x, a.pgdir t = some x ∧ a.freevms x = 0 := by
  obtain ⟨L, hL, hpub, hlead, -⟩ := hinv.leader t (Or.inl ht)
  obtain ⟨x, hx⟩ := Option.ne_none_iff_exists'.mp (h.lead_dir L hpub hlead)
  exact ⟨x, (h.live_dir t L ht hL).trans hx, (h.owner_dir L x hlead hx).2⟩

theorem freevms_of_reaped (h : DirInv a) (hinv : Inv a) {x : ℕ} {g : ℤ} (hx : a.owner x = some g)
    (hreaped : ∀ s, a.tgid s = g → a.phase s = .unused) : a.freevms x = 1 := by
  by_contra hne
  obtain ⟨-, L, -, hdir, htgid⟩ := h.freed x g hx hne
  simp [(hinv.unused_parent L (hreaped L htgid)).2] at hdir

end DirInv

end KThreads.Group

namespace KThreads.Group

open Function (update_apply)

variable {ι : Type*} [DecidableEq ι] [Fintype ι] {a a' : Table ι} {m : Move ι}

/-- The pids of the slots in use. -/
structure PidInv (a : Table ι) : Prop where
  /-- No other slot has the pid of a slot in use. -/
  unique : ∀ s s', a.phase s ≠ .unused → a.pid s = a.pid s' → s = s'
  pos : ∀ s, a.phase s ≠ .unused → 0 < a.pid s

namespace PidInv

theorem take_keeps (hinv : Inv a) (hdir : DirInv a) {t : ι} (hst : Step a (.take t) a') :
    a'.pid = a.pid := by
  obtain ⟨hj, -, -, hpid⟩ := hst.taken
  have hlead := hdir.exec_leads t _ hj trivial
  rw [hpid, ← hdir.lead_pid t (Or.inl (hinv.job_live t (by simp [hj]))) hlead,
    Function.update_eq_self]

theorem swap_keeps {t L : ι} (hok : LeaderExecs a (.swap t L)) (hst : Step a (.swap t L) a') :
    a'.pid = a.pid := by
  cases hst with
  | swap hj hL =>
    cases hL.symm.trans (hok t L rfl)
    exact Function.update_eq_self t a.pid

theorem step (hinv : Inv a) (hdir : DirInv a) (h : PidInv a) (hok : LeaderExecs a m)
    (hst : Step a m a') : PidInv a' := by
  have hlive := hinv.job_live
  have hbuild := hinv.build_embryo
  have hlt := hinv.pid_lt
  have hnext := hinv.nextpid_pos
  have hpos := h.pos
  have hunique := h.unique
  cases m with
  | swap t L =>
    have hpid := swap_keeps hok hst
    cases hst
    exact ⟨by rw [hpid]; exact hunique, by rw [hpid]; exact hpos⟩
  | take t =>
    have hpid := take_keeps hinv hdir hst
    cases hst
    exact ⟨by rw [hpid]; exact hunique, by rw [hpid]; exact hpos⟩
  | _ =>
    cases hst <;> constructor <;> simp only [update_apply, Table.clear] <;> grind

theorem of_reach {i : ι} (h : Transition.Reach (machine i) LeaderExecs a) : PidInv a := by
  refine h.invariant (fun a h0 => ?_) fun a m a' hr hinv hok hst =>
    hinv.step (Inv.of_reach hr) (DirInv.of_reach hr) hok hst
  cases h0
  constructor <;> simp only [Table.initial] <;> grind

end PidInv

end KThreads.Group

namespace KThreads

variable {k : Kernel}

/-- Only the leader of a group gets behind the waiting loop of `exec`. -/
abbrev leaderExecs : Kernel → Label → Prop := onStep fun k t =>
  k.pc t = .exec .swap → (k.proc t).process = some t

theorem group_leaderExecs (h : ReachableBy leaderExecs k) :
    Transition.Reach (Group.machine 0) Group.LeaderExecs k.group := by
  refine Kernel.reach_group (fun k l m a hok hm hst => ?_) h
  rintro t L rfl
  obtain ⟨u, e, rfl, hmakes⟩ := hm.step (by simp) (by simp)
  generalize hpc : k.pc u = c at hmakes
  cases hmakes
  exact hok hpc

theorem dirInv_of_leaderExecs (h : ReachableBy leaderExecs k) : Group.DirInv k.group :=
  .of_reach (group_leaderExecs h)

/-- **Pids are unique** in a run in which only leaders get to the exchange of pids in
`exec`: no two slots in use have the same pid, and the scans of `kill`, `join` and
`unpark` find the slot that has it. -/
theorem pid_unique (h : ReachableBy leaderExecs k) :
    (∀ s s', (k.proc s).state ≠ .unused → (k.proc s').state ≠ .unused →
      (k.proc s).pid = (k.proc s').pid → s = s') ∧
      ∀ s, (k.proc s).state ≠ .unused → k.findPid (k.proc s).pid = some s := by
  have hpid := Group.PidInv.of_reach (group_leaderExecs h)
  have hunique : ∀ s s', (k.proc s).state ≠ .unused → (k.proc s).pid = (k.proc s').pid → s = s' :=
    fun s s' hs => hpid.unique s s' (mt ProcState.phase_eq_unused.mp hs)
  refine ⟨fun s s' hs _ => hunique s s' hs, fun s hs => ?_⟩
  unfold Kernel.findPid
  rw [Fin.find?_eq_some_iff]
  exact ⟨by simp, fun j hj => decide_eq_false fun heq => hj.ne (hunique s j hs heq.symm).symm⟩

/-- The program of the scripts: one page of code. -/
def tinyElf : Elf := { phdrs := [⟨true, 0, 4096, 4096, true⟩], argsFit := true }

theorem neZero_nproc : NeZero NPROC := ⟨by decide⟩

/-- The leader of the second process, which has cloned a thread, calls `exec`, waits until
the thread has exited, and gets behind the exchange of pids. -/
def leaderTakeover : List Label :=
  haveI := neZero_nproc
  .schedule 0 :: calls 0 .fork 9 ++ .schedule 1 :: calls 1 (.clone 4096) 9 ++
    .schedule 2 :: calls 1 .exec 1 ++ .interrupt 2 :: steps 2 3 ++ steps 1 4

set_option maxRecDepth 8000 in
/-- Behind the exchange the leader and its dead thread are found under their pids. -/
theorem pid_unique_leader :
    ∃ k, runScriptBy leaderExecs leaderTakeover = some k ∧ k.pc 1 = .exec .setLost ∧
      (k.proc 2).state = .zombie ∧ k.findPid 2 = some 1 ∧ k.findPid 3 = some 2 := by
  obtain ⟨k, hk, hr, hpc, h1, h2, hp1, hp2⟩ := exists_of_runScriptBy leaderExecs leaderTakeover
    (fun k => k.pc 1 = .exec .setLost ∧ (k.proc 1).state = .running ∧
      (k.proc 2).state = .zombie ∧ (k.proc 1).pid = 2 ∧ (k.proc 2).pid = 3) (by decide)
  have hfound := (pid_unique hr).2
  exact ⟨k, hk, hpc, h2, hp1 ▸ hfound 1 (by simp [h1]), hp2 ▸ hfound 2 (by simp [h2])⟩

/-- The second process clones a thread, which calls `exec` and waits until the
leader has exited; then it takes the group over. -/
def takeover : List Label :=
  haveI := neZero_nproc
  .schedule 0 :: calls 0 .fork 9 ++ .schedule 1 :: calls 1 (.clone 4096) 9 ++
    .schedule 2 :: calls 2 .exec 1 ++ .interrupt 1 :: steps 1 3 ++ steps 2 5

set_option maxRecDepth 8000 in
/-- A second `exec` of the same thread gives its pid to the leader slot too. -/
theorem pid_shared_after_second_exec :
    ∃ k, Reachable k ∧ (k.proc 1).state = .zombie ∧ (k.proc 2).state = .running ∧
      (k.proc 1).pid = 2 ∧ (k.proc 2).pid = 2 := by
  obtain ⟨k, -, hr, hobs⟩ := exists_of_runScript
    (takeover ++ steps 2 2 ++ calls 2 .exec 6)
    (fun k => (k.proc 1).state = .zombie ∧ (k.proc 2).state = .running ∧
      (k.proc 1).pid = 2 ∧ (k.proc 2).pid = 2) (by decide)
  exact ⟨k, hr, hobs⟩

/-- **Directories are freed once** in a run in which only leaders get behind the
waiting loop of `exec`. A directory that `fork` created or `exec` installed for a
process is passed to `freevm` at most once, not while a live thread has it, and
exactly once by the time no slot carries the number of the process. -/
theorem freevm_once (h : ReachableBy leaderExecs k) {x : ℕ} {g : ℤ} (hx : k.owner x = some g) :
    k.freevms x ≤ 1 ∧
      (∀ t, (k.proc t).state.isLive → (k.proc t).pgdir = some x → k.freevms x = 0) ∧
      ((∀ s, (k.proc s).tgid = g → (k.proc s).state = .unused) → k.freevms x = 1) := by
  have hinv := Kernel.inv_of_reachable h
  have hdir := dirInv_of_leaderExecs h
  refine ⟨?_, fun t ht hpgdir => ?_, fun hreaped => ?_⟩
  · by_contra hmore
    have hzero : k.freevms x = 0 := (hdir.freed x g hx (by
      change k.freevms x ≠ 1
      omega)).1
    omega
  · obtain ⟨y, hy, hzero⟩ := hdir.live_freevms hinv (ProcState.phase_eq_live.mpr ht)
    cases hpgdir.symm.trans hy
    exact hzero
  · exact hdir.freevms_of_reaped hinv hx fun s hs => ProcState.phase_eq_unused.mpr (hreaped s hs)

/-- A process that replaces its image and is reaped has both of its directories
freed. -/
theorem freevm_once_after_exec :
    ∃ k, runScriptBy leaderExecs (.schedule 0 :: calls 0 .fork 9 ++ .schedule 1 ::
        calls 1 .exec 6 ++ .step 1 { elf := some tinyElf } :: steps 1 2 ++ calls 1 .exit 4 ++
        calls 0 .wait 1) = some k ∧ k.freevms 3 = 1 ∧ k.freevms 4 = 1 := by
  obtain ⟨k, hk, hr, h3, h4, hreaped⟩ := exists_of_runScriptBy leaderExecs
    (.schedule 0 :: calls 0 .fork 9 ++ .schedule 1 ::
      calls 1 .exec 6 ++ .step 1 { elf := some tinyElf } :: steps 1 2 ++ calls 1 .exit 4 ++
      calls 0 .wait 1)
    (fun k => k.owner 3 = some 2 ∧ k.owner 4 = some 2 ∧
      ∀ s, (k.proc s).tgid = 2 → (k.proc s).state = .unused) (by decide +kernel)
  exact ⟨k, hk, (freevm_once hr h3).2.2 hreaped, (freevm_once hr h4).2.2 hreaped⟩

/-- When the thread that took a group over exits and is reaped, the directory
that its `exec` installed has never been freed. -/
theorem freevm_never_after_takeover :
    ∃ k, Reachable k ∧ k.owner 5 = some 2 ∧
      (∀ s, (k.proc s).tgid = 2 → (k.proc s).state = .unused) ∧ k.freevms 5 = 0 := by
  obtain ⟨k, -, hr, hobs⟩ := exists_of_runScript
    (takeover ++ .step 2 { elf := some tinyElf } :: steps 2 2 ++ calls 2 .exit 4 ++
      calls 0 .wait 1)
    (fun k => k.owner 5 = some 2 ∧ (∀ s, (k.proc s).tgid = 2 → (k.proc s).state = .unused) ∧
      k.freevms 5 = 0) (by decide +kernel)
  exact ⟨k, hr, hobs⟩

end KThreads
