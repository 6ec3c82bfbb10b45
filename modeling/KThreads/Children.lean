import KThreads.Threads

/-!
# Parents and children

The parent of a process is the leader slot of the process that forked it.
`exit` hands children to `initproc` by comparing their parent with the slot of
the exiting thread. This is right when a process that has children loses its
leader last, while no `clone` has read the leader as the parent of its own thread;
otherwise the children are handed over while their process is alive, or never.
-/

namespace KThreads.Group

open Function (update_apply update_self)

variable {ι : Type*} [DecidableEq ι] [Fintype ι] {a a' : Table ι} {m : Move ι}

/-- In a process with children the leader is the last thread to exit, and it does so
while no builder holds it as a parent it has read. -/
def LeaderExitsLast (a : Table ι) (m : Move ι) : Prop :=
  ∀ t L, m = .exit t L → (∀ s, a.parent s = some L → (t = L ↔ a.threadcount L = 1)) ∧
    ∀ u np, a.job u ≠ .build .clone (.reads (some t)) np

/-- The parent of the group led by a slot has been set. -/
def Table.Rooted (a : Table ι) (L : ι) : Prop :=
  a.process L = some L ∧ L ≠ a.initproc ∧
    (a.Published L ∨ ∃ t, a.job t = .build .fork .rooted L)

/-- A slot is the leader slot of a process with a live thread. -/
def Table.Alive (a : Table ι) (M : ι) : Prop :=
  a.process M = some M ∧ a.Published M ∧ 0 < a.threadcount M

/-- Who the parents of groups are. -/
structure ParentInv (a : Table ι) : Prop where
  init_live : a.phase a.initproc = .live
  init_leads : a.process a.initproc = some a.initproc
  parent_alive : ∀ s M, a.parent s = some M → M = a.initproc ∨ a.Alive M
  same_parent : ∀ s L, a.Published s → a.process s = some L → a.parent s = a.parent L
  clone_read : ∀ t np p, a.job t = .build .clone (.reads p) np → p = a.parent t
  clone_parent : ∀ t np, a.job t = .build .clone .rooted np → a.parent np = a.parent t
  rooted_parent : ∀ L, a.Rooted L → a.parent L ≠ none
  /-- The parent is the leader slot of the forking process, or that process has
  no live thread. -/
  forker_parent : ∀ L M, a.Rooted L → a.parent L = some M →
    a.tgid M = a.forker L ∧ a.Alive M ∨
      M = a.initproc ∧ ∀ t, a.phase t = .live → a.tgid t ≠ a.forker L
  /-- The number of the forking process is not given out again. -/
  forker_old : ∀ L, a.Rooted L → a.forker L < a.nextpid
  forker_fresh : ∀ L np, a.Rooted L → a.phase np = .embryo → a.pid np ≠ a.forker L

namespace ParentInv

theorem init_step (h : ParentInv a) (hinv : Inv a) (hst : Step a m a') :
    a'.phase a'.initproc = .live ∧ a'.process a'.initproc = some a'.initproc := by
  have hbuild := hinv.build_embryo
  have hexit := hinv.exit_init
  have hlive := h.init_live
  have hleads := h.init_leads
  cases hst with
  | mapFork | mapClone | read | rootFork | rootClone | exitEnter | joinEnter | joinLeave | mark
  | alone | swap | take | settle | load | giveUp | commit | kill => exact ⟨hlive, hleads⟩
  | _ =>
    simp only [update_apply, Table.clear]
    grind

theorem parent_alive_step (h : ParentInv a) (hinv : Inv a) (hok : LeaderExitsLast a m)
    (hst : Step a m a') : ∀ s M, a'.parent s = some M → M = a'.initproc ∨ a'.Alive M := by
  have hlive := hinv.job_live
  have hbuild := hinv.build_embryo
  have hleader := hinv.leader
  have hinit := h.init_live
  have halive := h.parent_alive
  have hread := h.clone_read
  have hpos := @Inv.threadcount_pos _ _ _ _ hinv
  have hexists := @Inv.exists_live_of_count _ _ _ _ hinv
  unfold LeaderExitsLast at hok
  cases hst with
  | mapFork | mapClone | exitEnter | joinEnter | joinLeave | mark | alone | swap | take | settle
  | load | giveUp | commit | kill => exact halive
  | _ =>
    simp only [update_apply, Table.clear, Table.Published, Table.Alive] at *
    grind

theorem same_parent_step (h : ParentInv a) (hinv : Inv a) (hst : Step a m a') :
    ∀ s L, a'.Published s → a'.process s = some L → a'.parent s = a'.parent L := by
  have hlive := hinv.job_live
  have hbuild := hinv.build_embryo
  have hleader := hinv.leader
  have hfork := hinv.fork_group
  have hclone := hinv.clone_group
  have hof := @Inv.leader_of _ _ _ _ hinv
  have hsame := h.same_parent
  have hcopy := h.clone_parent
  cases hst with
  | mapFork | mapClone | read | exitEnter | joinEnter | joinLeave | mark | alone | swap | take
  | settle | load | giveUp | commit | kill => exact hsame
  | _ =>
    simp only [update_apply, Table.clear, Table.Published] at *
    grind

theorem clone_read_step (h : ParentInv a) (hinv : Inv a) (hok : LeaderExitsLast a m)
    (hst : Step a m a') :
    ∀ t np p, a'.job t = .build .clone (.reads p) np → p = a'.parent t := by
  have hlive := hinv.job_live
  have hbuild := hinv.build_embryo
  have hread := h.clone_read
  unfold LeaderExitsLast at hok
  cases hst <;> simp only [update_apply, Table.clear] at * <;> grind

theorem clone_parent_step (h : ParentInv a) (hinv : Inv a) (hst : Step a m a') :
    ∀ t np, a'.job t = .build .clone .rooted np → a'.parent np = a'.parent t := by
  have hlive := hinv.job_live
  have hbuild := hinv.build_embryo
  have hinj := hinv.build_inj
  have hclone := hinv.clone_group
  have hread := h.clone_read
  have hcopy := h.clone_parent
  cases hst <;> simp only [update_apply, Table.clear] at * <;> grind

theorem rooted_in_use (hinv : Inv a) {L : ι} (hL : a.Rooted L) :
    a.phase L ≠ .unused ∧
      ∀ t kd st, a.job t = .build kd st L → kd = .fork ∧ st = .rooted := by
  have hbuild := hinv.build_embryo
  have hinj := hinv.build_inj
  unfold Table.Rooted Table.Published at hL
  grind

theorem rooted_step (hinv : Inv a) (hst : Step a m a') {L : ι} (hL : a'.Rooted L) :
    a.Rooted L ∨ ∃ t, m = .root t L .fork := by
  have hlive := hinv.job_live
  have hbuild := hinv.build_embryo
  have hfork := hinv.fork_group
  have hclone := hinv.clone_group
  have hof := @Inv.leader_of _ _ _ _ hinv
  unfold Table.Rooted Table.Published at *
  cases hst with
  | @rootFork t np hj =>
    by_cases hnp : L = np
    · exact .inr ⟨t, hnp ▸ rfl⟩
    · simp only [update_apply] at hL
      grind
  | _ =>
    simp only [update_apply, Table.clear] at *
    grind

theorem rooted_parent_step (h : ParentInv a) (hinv : Inv a) (hst : Step a m a') :
    ∀ L, a'.Rooted L → a'.parent L ≠ none := by
  intro L hL
  have huse := rooted_in_use (hinv.step hst) hL
  have hroot := rooted_step hinv hst hL
  have hparent := h.rooted_parent L
  have hbuilt : a.Rooted L → _ := rooted_in_use hinv
  have hlive := hinv.job_live
  have hleader := hinv.leader
  unfold Table.Published at *
  cases hst <;> simp only [update_apply, Table.clear] at * <;> grind

theorem forker_old_step (h : ParentInv a) (hinv : Inv a) (hst : Step a m a') :
    ∀ L, a'.Rooted L → a'.forker L < a'.nextpid := by
  intro L hL
  have hroot := rooted_step hinv hst hL
  have hold := h.forker_old L
  have hlt := hinv.tgid_lt
  cases hst <;> simp only [update_apply, Table.clear] at * <;> grind

theorem forker_fresh_step (h : ParentInv a) (hinv : Inv a) (hst : Step a m a') :
    ∀ L np, a'.Rooted L → a'.phase np = .embryo → a'.pid np ≠ a'.forker L := by
  intro L np hL
  have hroot := rooted_step hinv hst hL
  have hold := h.forker_old L
  have hfresh := h.forker_fresh L
  have hlive := hinv.job_live
  have hbuild := hinv.build_embryo
  have hembryo := hinv.embryo_fresh
  have hof := @Inv.leader_of _ _ _ _ hinv
  unfold Table.Published at *
  cases hst <;> simp only [update_apply, Table.clear] at * <;> grind

theorem alive_step (hinv : Inv a) (hok : LeaderExitsLast a m) (hst : Step a m a') {s M : ι}
    (hM : a.Alive M) (hs : a.parent s = some M) :
    a'.Alive M ∧ a'.tgid M = a.tgid M ∨ m = .exit M M := by
  have hlive := hinv.job_live
  have hbuild := hinv.build_embryo
  have hleader := hinv.leader
  have hexists := @Inv.exists_live_of_count _ _ _ _ hinv
  unfold Table.Alive Table.Published at *
  cases hst with
  | @exit t L hj hL =>
    have hlast := (hok t L rfl).1
    simp only [update_apply] at *
    grind
  | mapFork | mapClone | rootFork | rootClone | exitEnter | joinEnter | joinLeave | mark | alone
  | swap | take | settle | load | giveUp | commit | kill => exact .inl ⟨hM, rfl⟩
  | _ =>
    simp only [update_apply, Table.clear] at *
    grind

theorem parent_step (hinv : Inv a) (hst : Step a m a') {L : ι} (hold : a.Rooted L)
    (hL : a'.Rooted L) :
    a'.parent L = a.parent L ∧ a'.forker L = a.forker L ∧ (∀ t M, m = .exit t M →
        a.parent L ≠ some t) ∨
      ∃ t M, m = .exit t M ∧ a.parent L = some t ∧ a'.parent L = some a'.initproc ∧
        a'.forker L = a.forker L := by
  have huse := (rooted_in_use (hinv.step hst) hL).1
  have hbuilt := (rooted_in_use hinv hold).2
  cases hst <;> simp only [update_apply, Table.clear] at * <;> grind

theorem initproc_step (hst : Step a m a') : a'.initproc = a.initproc := by
  cases hst <;> rfl

theorem no_live_step (hinv : Inv a) (hst : Step a m a') {g : ℤ}
    (hnone : ∀ t, a.phase t = .live → a.tgid t ≠ g)
    (hfresh : ∀ np, a.phase np = .embryo → a.pid np ≠ g) :
    ∀ t, a'.phase t = .live → a'.tgid t ≠ g := by
  have hlive := hinv.job_live
  have hbuild := hinv.build_embryo
  have hfork := hinv.fork_group
  have hclone := hinv.clone_group
  cases hst with
  | mapFork | mapClone | read | rootFork | rootClone | exitEnter | joinEnter | joinLeave | mark
  | alone | swap | take | settle | load | giveUp | commit | kill => exact hnone
  | _ =>
    simp only [update_apply, Table.clear] at *
    grind

theorem last_exit (hinv : Inv a) (hok : LeaderExitsLast a m) {s t L : ι} (hm : m = .exit t L)
    (hst : Step a m a') (halive : a.Alive t) (hs : a.parent s = some t) :
    ∀ u, a'.phase u = .live → a'.tgid u ≠ a.tgid t := by
  subst hm
  cases hst with
  | exit hj hL =>
    cases halive.1.symm.trans hL
    have hone := ((hok t t rfl).1 s hs).mp rfl
    have ht := hinv.job_live t (by simp [hj])
    intro u hu htgid
    have hne : u ≠ t := by
      rintro rfl
      simp at hu
    have hlive : a.phase u = .live := by simpa [hne] using hu
    have hprocess := hinv.tgid_process u t (Or.inl ht) htgid
    exact hne (hinv.eq_of_count_one hone ht hL hlive (hprocess.trans hL))

theorem forker_parent_step (h : ParentInv a) (hinv : Inv a) (hok : LeaderExitsLast a m)
    (hst : Step a m a') :
    ∀ L M, a'.Rooted L → a'.parent L = some M →
      a'.tgid M = a'.forker L ∧ a'.Alive M ∨
        M = a'.initproc ∧ ∀ t, a'.phase t = .live → a'.tgid t ≠ a'.forker L := by
  intro L M hL hM
  rcases rooted_step hinv hst hL with hold | ⟨t, rfl⟩
  · have hfresh := fun np => h.forker_fresh L np hold
    rcases parent_step hinv hst hold hL with
      ⟨hsame, hforker, hkeeps⟩ | ⟨t, N, hm, ht, hinit, hforker⟩
    · rw [hsame] at hM
      rw [hforker]
      rcases h.forker_parent L M hold hM with ⟨htgid, halive⟩ | ⟨rfl, hnone⟩
      · rcases alive_step hinv hok hst halive hM with ⟨halive', htgid'⟩ | hm
        · exact .inl ⟨htgid'.trans htgid, halive'⟩
        · exact absurd hM (hkeeps M M hm)
      · exact .inr ⟨(initproc_step hst).symm, no_live_step hinv hst hnone hfresh⟩
    · rw [hinit] at hM
      cases hM
      refine .inr ⟨rfl, ?_⟩
      rw [hforker]
      rcases h.forker_parent L t hold ht with ⟨htgid, halive⟩ | ⟨-, hnone⟩
      · rw [← htgid]
        exact last_exit hinv hok hm hst halive ht
      · exact no_live_step hinv hst hnone hfresh
  · cases hst with
    | rootFork hj =>
      have ht := hinv.job_live t (by simp [hj])
      obtain ⟨N, hN, hpub, hlead, htgid⟩ := hinv.leader t (Or.inl ht)
      have hpos := hinv.threadcount_pos ht hN
      simp only [update_self, hN, Option.some.injEq] at hM
      subst hM
      exact .inl ⟨by simpa using htgid, hlead, hpub, hpos⟩

theorem step (h : ParentInv a) (hinv : Inv a) (hok : LeaderExitsLast a m) (hst : Step a m a') :
    ParentInv a' where
  init_live := (h.init_step hinv hst).1
  init_leads := (h.init_step hinv hst).2
  parent_alive := h.parent_alive_step hinv hok hst
  same_parent := h.same_parent_step hinv hst
  clone_read := h.clone_read_step hinv hok hst
  clone_parent := h.clone_parent_step hinv hst
  rooted_parent := h.rooted_parent_step hinv hst
  forker_parent := h.forker_parent_step hinv hok hst
  forker_old := h.forker_old_step hinv hst
  forker_fresh := h.forker_fresh_step hinv hst

theorem of_reach {i : ι} (h : Transition.Reach (machine i) LeaderExitsLast a) : ParentInv a := by
  refine h.invariant (fun a h0 => ?_) fun a m a' hr hinv hok hst =>
    hinv.step (Inv.of_reach hr) hok hst
  cases h0
  constructor <;>
    simp only [Table.initial, Table.Rooted, Table.Published, Table.Alive] <;> grind

end ParentInv

end KThreads.Group

namespace KThreads

variable {k : Kernel}

/-- The parent that a thread in `clone` has read and not yet stored. -/
def Pc.parentRead : Pc → Option Slot
  | .clone (.setParent _ parent) => parent
  | _ => none

theorem Pc.parentRead_of_job {c : Pc} {np : Slot} {p : Option Slot}
    (h : c.job = .build .clone (.reads p) np) : c.parentRead = p := by
  unfold Pc.job at h
  split at h <;> cases h
  rfl

/-- If the process `L` has children, then `t` is its leader exactly when `t` is
its last thread; and no `clone` is about to store `t` as a parent. -/
def Kernel.exitsInTurn (k : Kernel) (t L : Slot) : Prop :=
  ((∃ s, (k.proc s).parent = some L) → (t = L ↔ (k.proc L).threadcount = 1)) ∧
    ∀ u, (k.pc u).parentRead ≠ some t

instance (k : Kernel) (t L : Slot) : Decidable (k.exitsInTurn t L) :=
  inferInstanceAs (Decidable (_ ∧ _))

/-- In a process with children the leader is the last thread to exit, and not while a
`clone` holds it as a parent. -/
abbrev leaderExitsLast : Kernel → Label → Prop := onStep fun k t =>
  k.pc t = .exit .zombie → ∀ L ∈ (k.proc t).process, k.exitsInTurn t L

theorem parentInv_of_leaderExitsLast (h : ReachableBy leaderExitsLast k) :
    Group.ParentInv k.group := by
  refine .of_reach (Kernel.reach_group (fun k l m a hok hm hst => ?_) h)
  rintro t L rfl
  obtain ⟨u, e, rfl, hmakes⟩ := hm.step (by simp) (by simp)
  generalize hpc : k.pc u = c at hmakes
  cases hmakes
  cases hst with
  | exit _ hL =>
    refine ⟨fun s hs => (hok hpc L hL).1 ⟨s, hs⟩, fun v np hj => ?_⟩
    exact (hok hpc L hL).2 v (Pc.parentRead_of_job hj)

/-- The states of a slot that holds a thread. -/
def ProcState.isPublished : ProcState → Bool
  | .sleeping | .runnable | .running | .zombie => true
  | .unused | .embryo => false

theorem Kernel.published_group {s : Slot} :
    k.group.Published s ↔ (k.proc s).state.isPublished = true := by
  simp only [Group.Table.Published, Kernel.group]
  cases (k.proc s).state <;> simp [ProcState.phase, ProcState.isPublished]

/-- **Parents** in a run in which leaders with children exit last. All slots of a
group have the same parent. It is the leader slot of the process that forked the
group while that process has a live thread, and `initproc` afterwards, so that
every thread of the forking process finds the group in `wait`. A parent is never
an unused slot, nor one that another group uses: it is `initproc` or leads a
process that is alive. -/
theorem parent_is_forker (h : ReachableBy leaderExitsLast k) :
    (∀ s s', (k.proc s).state.isPublished → (k.proc s').state.isPublished →
      (k.proc s).process = (k.proc s').process → (k.proc s).parent = (k.proc s').parent) ∧
      (∀ s L, (k.proc s).state.isPublished → (k.proc s).process = some L → L ≠ k.initproc →
        (∀ t, (k.proc t).state.isLive → (k.proc t).tgid = k.forker L →
          (k.proc s).parent = (k.proc t).process ∧
            ∃ M, (k.proc t).process = some M ∧ k.childOf M s) ∧
        ((∀ t, (k.proc t).state.isLive → (k.proc t).tgid ≠ k.forker L) →
          (k.proc s).parent = some k.initproc)) ∧
      (∀ s M, (k.proc s).parent = some M →
        (k.proc M).state.isPublished ∧ (k.proc M).process = some M ∧
          (M = k.initproc ∨ ∃ t, (k.proc t).state.isLive ∧ (k.proc t).process = some M)) := by
  have hinv := Kernel.inv_of_reachable h
  have hparent := parentInv_of_leaderExitsLast h
  refine ⟨fun s s' hs hs' hsame => ?_, fun s L hs hL hinit => ?_, fun s M hM => ?_⟩
  · obtain ⟨L, hL, -⟩ := hinv.leader s (Kernel.published_group.mpr hs)
    exact (hparent.same_parent s L (Kernel.published_group.mpr hs) hL).trans
      (hparent.same_parent s' L (Kernel.published_group.mpr hs') (hsame.symm.trans hL)).symm
  · -- The group has a leader, whose parent the other slots share.
    obtain ⟨N, hN, hpub, hlead, -⟩ := hinv.leader s (Kernel.published_group.mpr hs)
    cases hL.symm.trans hN
    have hrooted : k.group.Rooted L := ⟨hlead, hinit, Or.inl hpub⟩
    have hsame : (k.proc s).parent = (k.proc L).parent :=
      hparent.same_parent s L (Kernel.published_group.mpr hs) hL
    obtain ⟨M, hM⟩ := Option.ne_none_iff_exists'.mp (hparent.rooted_parent L hrooted)
    have hsM : (k.proc s).parent = some M := hsame.trans hM
    refine ⟨fun t ht htgid => ?_, fun hnone => ?_⟩
    · rcases hparent.forker_parent L M hrooted hM with ⟨hMtgid, halive⟩ | ⟨-, hdead⟩
      · have hprocess : (k.proc t).process = some M :=
          (hinv.tgid_process t M halive.2.1 (htgid.trans hMtgid.symm)).trans halive.1
        exact ⟨hsM.trans hprocess.symm, M, hprocess, by simp [Kernel.childOf, hsM]⟩
      · exact absurd htgid (hdead t (ProcState.phase_eq_live.mpr ht))
    · rcases hparent.forker_parent L M hrooted hM with ⟨hMtgid, halive⟩ | ⟨rfl, -⟩
      · obtain ⟨t, ht, htM⟩ := hinv.exists_live_of_count halive.1 halive.2.2
        have hgroup := (hinv.leader t (Or.inl ht))
        obtain ⟨N, hN, -, -, htgid⟩ := hgroup
        cases htM.symm.trans hN
        exact absurd (htgid.symm.trans hMtgid) (hnone t (ProcState.phase_eq_live.mp ht))
      · exact hsM
  · rcases hparent.parent_alive s M hM with rfl | halive
    · have hlive : k.group.phase k.initproc = .live := hparent.init_live
      exact ⟨Kernel.published_group.mp (Or.inl hlive), hparent.init_leads, .inl rfl⟩
    · obtain ⟨t, ht, htM⟩ := hinv.exists_live_of_count halive.1 halive.2.2
      exact ⟨Kernel.published_group.mp halive.2.1, halive.1,
        .inr ⟨t, ProcState.phase_eq_live.mp ht, htM⟩⟩

set_option maxRecDepth 8000 in
/-- A process whose parent has exited is a child of `initproc`. -/
theorem parent_is_init_after_exit :
    ∃ k, runScriptBy leaderExitsLast (.schedule 0 :: calls 0 .fork 9 ++ .schedule 1 ::
        calls 1 .fork 9 ++ calls 1 .exit 4) = some k ∧ (k.proc 2).parent = some k.initproc := by
  obtain ⟨k, hk, hr, hpub, hlead, hne, hdead⟩ := exists_of_runScriptBy leaderExitsLast
    (.schedule 0 :: calls 0 .fork 9 ++ .schedule 1 :: calls 1 .fork 9 ++ calls 1 .exit 4)
    (fun k => (k.proc 2).state.isPublished = true ∧ (k.proc 2).process = some 2 ∧
      2 ≠ k.initproc ∧ ∀ t, (k.proc t).state.isLive = true → (k.proc t).tgid ≠ k.forker 2)
    (by decide)
  exact ⟨k, hk, ((parent_is_forker hr).2.1 2 2 hpub hlead hne).2 hdead⟩

set_option maxRecDepth 8000 in
/-- A leader that exits before another thread of its process hands the children
of the process to `initproc`, although the process is alive. -/
theorem parent_lost_by_leader_exit :
    ∃ k, Reachable k ∧ (k.proc 2).state.isLive ∧ (k.proc 2).tgid = k.forker 3 ∧
      (k.proc 2).process = some 1 ∧ (k.proc 3).process = some 3 ∧
      (k.proc 3).state.isPublished ∧ (k.proc 3).parent = some 0 := by
  obtain ⟨k, -, hr, hobs⟩ := exists_of_runScript
    (.schedule 0 :: calls 0 .fork 9 ++ .schedule 1 :: calls 1 (.clone 4096) 9 ++
      calls 1 .fork 9 ++ calls 1 .exit 3)
    (fun k => (k.proc 2).state.isLive = true ∧ (k.proc 2).tgid = k.forker 3 ∧
      (k.proc 2).process = some 1 ∧ (k.proc 3).process = some 3 ∧
      (k.proc 3).state.isPublished = true ∧ (k.proc 3).parent = some 0) (by decide)
  exact ⟨k, hr, hobs⟩

end KThreads
