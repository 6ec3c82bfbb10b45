import KThreads.Group.Effects

/-!
# Every move preserves the invariant

One lemma for each field of the invariant, each from the fields it depends on.
The counter is the one field whose argument is not a case split over the slots
a move touches: there the members of the group are counted before and after.
-/

namespace KThreads.Group

open Function (update update_apply update_eq_self)

variable {ι : Type*} [DecidableEq ι]

theorem exists_build_update {f : ι → Job ι} {t s : ι} {j : Job ι}
    (hbuild : ∃ u kd st, f u = .build kd st s)
    (hj : ∀ kd st, f t = .build kd st s → ∃ kd st, j = .build kd st s) :
    ∃ u kd st, update f t j u = .build kd st s := by
  obtain ⟨u, kd, st, hu⟩ := hbuild
  by_cases hut : u = t
  · subst hut
    obtain ⟨kd', st', hj'⟩ := hj kd st hu
    exact ⟨u, kd', st', by simp [hj']⟩
  · exact ⟨u, kd, st, by simp [hut, hu]⟩

variable [Fintype ι]

namespace Inv

variable {a a' : Table ι} {m : Move ι}

theorem job_live_step (h : Inv a) (hst : Step a m a') :
    ∀ t, a'.job t ≠ .none → a'.phase t = .live := by
  have hlive := h.job_live
  have hbuild := h.build_embryo
  cases hst <;> simp only [update_apply, Table.clear] <;> grind

theorem build_embryo_step (h : Inv a) (hst : Step a m a') :
    ∀ t kd st np, a'.job t = .build kd st np → a'.phase np = .embryo := by
  have hlive := h.job_live
  have hbuild := h.build_embryo
  have hinj := h.build_inj
  cases hst <;> simp only [update_apply, Table.clear] <;> grind

theorem build_inj_step (h : Inv a) (hst : Step a m a') :
    ∀ t t' kd kd' st st' np,
      a'.job t = .build kd st np → a'.job t' = .build kd' st' np → t = t' := by
  have hlive := h.job_live
  have hbuild := h.build_embryo
  have hinj := h.build_inj
  cases hst <;> simp only [update_apply, Table.clear] <;> grind

theorem embryo_build_step (h : Inv a) (hst : Step a m a') :
    ∀ np, a'.phase np = .embryo → ∃ t kd st, a'.job t = .build kd st np := by
  have hbuild := h.build_embryo
  have hinj := h.build_inj
  intro s hs
  -- A move keeps the job of a builder, or moves it to the next stage.
  have hold : ∀ {t : ι} {j : Job ι}, a.phase s = .embryo →
      (∀ kd st, a.job t = .build kd st s → ∃ kd st, j = .build kd st s) →
      ∃ u kd st, update a.job t j u = .build kd st s :=
    fun hphase hj => exists_build_update (h.embryo_build s hphase) hj
  cases hst with
  | @alloc t np kind ht hj hnp =>
    by_cases hsnp : s = np
    · exact ⟨t, kind, .raw, by simp [hsnp]⟩
    · exact hold (by simpa [hsnp] using hs) (by simp [hj])
  | release hj _ =>
    refine hold ?_ ?_ <;> grind [update_apply]
  | groupFork hj | groupClone hj | mapFork hj | mapClone hj | read hj | rootFork hj
  | rootClone hj =>
    refine hold hs ?_
    grind
  | publishFork hj | publishClone hj | stillborn hj =>
    refine hold ?_ ?_ <;> grind [update_apply]
  | exit hj hL =>
    refine hold ?_ ?_ <;> grind [update_apply]
  | exitEnter ht hj | joinEnter ht hj | joinLeave hj | mark ht hj | alone hj | swap hj | take hj
  | settle hj | load hj | giveUp hj | commit hj =>
    exact hold hs (by simp [hj])
  | joinReap ht hj =>
    refine hold ?_ ?_ <;> grind [Table.clear]
  | waitReap ht hj _ _ _ _ hz =>
    refine h.embryo_build s ?_
    grind [Table.clear]
  | kill => exact h.embryo_build s hs

theorem leader_step (h : Inv a) (hst : Step a m a') :
    ∀ s, a'.Published s →
      ∃ L, a'.process s = some L ∧ a'.Published L ∧ a'.process L = some L ∧
        a'.tgid L = a'.tgid s := by
  have hlive := h.job_live
  have hbuild := h.build_embryo
  have hfork := h.fork_group
  have hclone := h.clone_group
  have hleader := h.leader
  have hof := @leader_of _ _ _ _ h
  cases hst with
  | mapFork | mapClone | read | rootFork | rootClone | exitEnter | joinEnter | joinLeave | mark
  | alone | swap | take | settle | load | giveUp | commit | kill => exact hleader
  | _ =>
    simp only [update_apply, Table.clear, Table.Published] at *
    grind

theorem unused_process_step (h : Inv a) (hst : Step a m a') :
    ∀ s, a'.phase s = .unused → a'.process s = none ∨ a'.process s = some s := by
  have hbuild := h.build_embryo
  have hunused := h.unused_process
  have hraw := h.raw_process
  have hfork := h.fork_group
  cases hst with
  | mapFork | mapClone | read | rootFork | rootClone | exitEnter | joinEnter | joinLeave | mark
  | alone | swap | take | settle | load | giveUp | commit | kill => exact hunused
  | _ =>
    simp only [update_apply, Table.clear]
    grind

theorem raw_process_step (h : Inv a) (hst : Step a m a') :
    ∀ t kd np, a'.job t = .build kd .raw np →
      a'.process np = none ∨ a'.process np = some np := by
  have hbuild := h.build_embryo
  have hinj := h.build_inj
  have hunused := h.unused_process
  have hraw := h.raw_process
  cases hst <;> simp only [update_apply, Table.clear] <;> grind

theorem fork_group_step (h : Inv a) (hst : Step a m a') :
    ∀ t st np, a'.job t = .build .fork st np → st ≠ .raw →
      a'.process np = some np ∧ a'.tgid np = a'.pid np := by
  have hlive := h.job_live
  have hbuild := h.build_embryo
  have hinj := h.build_inj
  have hfork := h.fork_group
  have hof := @leader_of _ _ _ _ h
  cases hst <;> simp only [update_apply, Table.clear] <;> grind [Table.Published]

theorem clone_group_step (h : Inv a) (hst : Step a m a') :
    ∀ t st np, a'.job t = .build .clone st np → st ≠ .raw →
      a'.process np = a'.process t ∧ a'.tgid np = a'.tgid t := by
  have hlive := h.job_live
  have hbuild := h.build_embryo
  have hinj := h.build_inj
  have hclone := h.clone_group
  cases hst <;> simp only [update_apply, Table.clear] <;> grind

theorem count_step (h : Inv a) (hst : Step a m a') :
    ∀ L, a'.process L = some L → a'.threadcount L = (a'.members L).card := by
  intro L hL
  have hlive := h.job_live
  have hbuild := h.build_embryo
  have hcount := h.count L
  cases hst with
  | alloc ht hj hnp =>
    rw [members_congr (a := a)]
    · exact hcount hL
    · grind [update_apply]
  | release hj _ =>
    rw [members_congr (a := a)]
    · exact hcount hL
    · grind [update_apply]
  | @groupFork t np hj =>
    have hnp := hbuild _ _ _ _ hj
    rw [members_congr (a := a)]
    · by_cases hLnp : L = np
      · have hout : ¬a.Published np := by simp [Table.Published, hnp]
        subst hLnp
        rw [h.members_unpublished hout]
        exact h.count_zero L hout
      · exact hcount (by simpa [hLnp] using hL)
    · grind [update_apply]
  | @groupClone t np hj =>
    have hnp := hbuild _ _ _ _ hj
    have hout : ¬a.Published np := by simp [Table.Published, hnp]
    have hLnp : L ≠ np := by
      rintro rfl
      have htnp := h.process_embryo hout (s := t) (by simpa using hL)
      subst htnp
      simp [hlive t (by simp [hj])] at hnp
    rw [members_congr (a := a)]
    · exact hcount (by simpa [hLnp] using hL)
    · grind [update_apply]
  | mapFork | mapClone | rootFork | rootClone | exitEnter | joinEnter | joinLeave | mark | alone
  | swap | take | settle | load | giveUp | commit | kill => exact hcount hL
  | @read t np hj =>
    have hnp := hbuild _ _ _ _ hj
    have hzero := h.count_zero np (by simp [Table.Published, hnp])
    change update a.threadcount np 0 L = (a.members L).card
    rw [← hzero, update_eq_self]
    exact hcount hL
  | @publishFork t np hj =>
    obtain ⟨hproc, -⟩ := h.fork_group t .rooted np hj (by simp)
    have hnp := hbuild _ _ _ _ hj
    have hout : ¬a.Published np := by simp [Table.Published, hnp]
    by_cases hLnp : L = np
    · subst hLnp
      have hone : ((Finset.univ : Finset ι).filter fun s =>
          update a.phase L .live s = .live ∧ a.process s = some L).card = 1 :=
        Count.card_filter_single (by simp [hproc]) fun s hs => h.process_embryo hout hs.2
      simpa [Table.members] using hone.symm
    · rw [members_congr (a := a)]
      · simpa [hLnp] using hcount hL
      · grind [update_apply]
  | @publishClone t np M hj hk hM =>
    obtain ⟨hproc, -⟩ := h.clone_group t .rooted np hj (by simp)
    have hnp := hbuild _ _ _ _ hj
    by_cases hLM : L = M
    · subst hLM
      have hgain : ((Finset.univ : Finset ι).filter fun s =>
          update a.phase np .live s = .live ∧ a.process s = some L).card =
          (a.members L).card + 1 :=
        Count.card_filter_gain (x := np) (by simp [hnp]) (by simp [hproc, hM])
          fun s hs => by simp [hs]
      simpa [Table.members, hcount hL] using hgain.symm
    · rw [members_congr (a := a)]
      · simpa [hLM] using hcount hL
      · grind [update_apply]
  | stillborn hj hk =>
    rw [members_congr (a := a)]
    · exact hcount hL
    · grind [update_apply]
  | @exit t M hj hM =>
    have ht := hlive t (by simp [hj])
    by_cases hLM : L = M
    · subst hLM
      have hloss : ((Finset.univ : Finset ι).filter fun s =>
          update a.phase t .zombie s = .live ∧ a.process s = some L).card =
          (a.members L).card - 1 :=
        Count.card_filter_loss (x := t) ⟨ht, hM⟩ (by simp) fun s hs => by simp [hs]
      simpa [Table.members, hcount hL] using hloss.symm
    · rw [members_congr (a := a)]
      · simpa [hLM] using hcount hL
      · grind [update_apply]
  | @joinReap t p ht hj hp hpid hproc =>
    have hLp : L ≠ p := by rintro rfl; simp [Table.clear] at hL
    rw [members_congr (a := a)]
    · simpa [Table.clear, hLp] using hcount (by simpa [Table.clear, hLp] using hL)
    · grind [Table.clear]
  | @waitReap t p _ _ ht hj _ _ _ _ hz =>
    have hLt : a.tgid L ≠ a.tgid p := by intro hLt; simp [Table.clear, hLt] at hL
    rw [members_congr (a := a)]
    · simpa [Table.clear, hLt] using hcount (by simpa [Table.clear, hLt] using hL)
    · grind [Table.clear]

theorem count_zero_step (h : Inv a) (hst : Step a m a') :
    ∀ s, ¬a'.Published s → a'.threadcount s = 0 := by
  have hlive := h.job_live
  have hbuild := h.build_embryo
  have hzero := h.count_zero
  have hleader := h.leader
  cases hst with
  | groupFork | groupClone | mapFork | mapClone | rootFork | rootClone | exitEnter | joinEnter | joinLeave
  | mark | alone | swap | take | settle | load | giveUp | commit | kill => exact hzero
  | _ =>
    simp only [update_apply, Table.clear, Table.Published] at *
    grind

theorem unused_parent_step (h : Inv a) (hst : Step a m a') :
    ∀ s, a'.phase s = .unused → a'.parent s = none ∧ a'.pgdir s = none := by
  have hlive := h.job_live
  have hbuild := h.build_embryo
  have hunused := h.unused_parent
  have hparent := h.build_parent
  have hpgdir := h.build_pgdir
  cases hst with
  | groupFork | groupClone | exitEnter | joinEnter | joinLeave | mark | alone | swap | take
  | settle | load | giveUp | kill => exact hunused
  | _ =>
    simp only [update_apply, Table.clear]
    grind

theorem build_parent_step (h : Inv a) (hst : Step a m a') :
    ∀ t kd st np, a'.job t = .build kd st np → st ≠ .rooted → a'.parent np = none := by
  have hbuild := h.build_embryo
  have hinj := h.build_inj
  have hunused := h.unused_parent
  have hparent := h.build_parent
  cases hst <;> simp only [update_apply, Table.clear] <;> grind

theorem build_pgdir_step (h : Inv a) (hst : Step a m a') :
    ∀ t kd st np, a'.job t = .build kd st np → st = .raw ∨ st = .grouped →
      a'.pgdir np = none := by
  have hlive := h.job_live
  have hbuild := h.build_embryo
  have hinj := h.build_inj
  have hunused := h.unused_parent
  have hpgdir := h.build_pgdir
  cases hst <;> simp only [update_apply, Table.clear] <;> grind

theorem nextpid_pos_step (h : Inv a) (hst : Step a m a') : 0 < a'.nextpid := by
  have hpos := h.nextpid_pos
  cases hst with
  | alloc => exact Int.lt_add_one_of_le hpos.le
  | _ => exact hpos

theorem pid_lt_step (h : Inv a) (hst : Step a m a') : ∀ s, a'.pid s < a'.nextpid := by
  have hpos := h.nextpid_pos
  have hpid := h.pid_lt
  have htgid := h.tgid_lt
  cases hst with
  | alloc | joinReap | waitReap | swap | take =>
    simp only [update_apply, Table.clear]
    grind
  | _ => exact hpid

theorem tgid_lt_step (h : Inv a) (hst : Step a m a') : ∀ s, a'.tgid s < a'.nextpid := by
  have hpos := h.nextpid_pos
  have hpid := h.pid_lt
  have htgid := h.tgid_lt
  cases hst with
  | alloc | groupFork | groupClone | joinReap | waitReap =>
    simp only [update_apply, Table.clear]
    grind
  | _ => exact htgid

theorem pid_inj_step (h : Inv a) (hst : Step a m a') :
    ∀ s s', a'.phase s = .live ∨ a'.phase s = .embryo →
      a'.phase s' = .live ∨ a'.phase s' = .embryo → a'.pid s = a'.pid s' → s = s' := by
  have hlive := h.job_live
  have hbuild := h.build_embryo
  have hinj := h.pid_inj
  have hlt := h.pid_lt
  have htgid := h.pid_tgid
  have halone := h.exec_alone
  have hfresh := h.embryo_fresh
  have hof := @leader_of _ _ _ _ h
  cases hst with
  | groupFork | groupClone | mapFork | mapClone | read | rootFork | rootClone | exitEnter
  | joinEnter | joinLeave | mark | alone | settle | load | giveUp | commit | kill => exact hinj
  | _ =>
    simp only [update_apply, Table.clear, Table.Published] at *
    grind

theorem pid_tgid_step (h : Inv a) (hst : Step a m a') :
    ∀ s s', a'.phase s = .live → a'.Published s' → a'.pid s = a'.tgid s' →
      a'.process s = a'.process s' := by
  have hlive := h.job_live
  have hbuild := h.build_embryo
  have hinj := h.pid_inj
  have htgid := h.pid_tgid
  have hproc := h.tgid_process
  have halone := h.exec_alone
  have hfresh := h.embryo_fresh
  have hfork := h.fork_group
  have hclone := h.clone_group
  have hof := @leader_of _ _ _ _ h
  cases hst with
  | mapFork | mapClone | read | rootFork | rootClone | exitEnter | joinEnter | joinLeave | mark
  | alone | settle | load | giveUp | commit | kill => exact htgid
  | _ =>
    simp only [update_apply, Table.clear, Table.Published] at *
    grind

theorem embryo_fresh_step (h : Inv a) (hst : Step a m a') :
    ∀ np s, a'.phase np = .embryo → s ≠ np → a'.tgid s ≠ a'.pid np := by
  have hlive := h.job_live
  have hbuild := h.build_embryo
  have hinj := h.pid_inj
  have hlt := h.tgid_lt
  have hfresh := h.embryo_fresh
  have hpos := h.embryo_pos
  have hof := @leader_of _ _ _ _ h
  cases hst with
  | mapFork | mapClone | read | rootFork | rootClone | exitEnter | joinEnter | joinLeave | mark
  | alone | settle | load | giveUp | commit | kill => exact hfresh
  | _ =>
    simp only [update_apply, Table.clear, Table.Published] at *
    grind

theorem embryo_pos_step (h : Inv a) (hst : Step a m a') :
    ∀ np, a'.phase np = .embryo → 0 < a'.pid np := by
  have hlive := h.job_live
  have hpos := h.embryo_pos
  have hnext := h.nextpid_pos
  have hof := @leader_of _ _ _ _ h
  cases hst with
  | groupFork | groupClone | mapFork | mapClone | read | rootFork | rootClone | exitEnter
  | joinEnter | joinLeave | mark | alone | settle | load | giveUp | commit | kill => exact hpos
  | _ =>
    simp only [update_apply, Table.clear, Table.Published] at *
    grind

theorem tgid_pos_step (h : Inv a) (hst : Step a m a') : ∀ s, a'.Published s → 0 < a'.tgid s := by
  have hlive := h.job_live
  have hbuild := h.build_embryo
  have hpos := h.embryo_pos
  have htgid := h.tgid_pos
  have hfork := h.fork_group
  have hclone := h.clone_group
  cases hst with
  | mapFork | mapClone | read | rootFork | rootClone | exitEnter | joinEnter | joinLeave | mark
  | alone | swap | take | settle | load | giveUp | commit | kill => exact htgid
  | _ =>
    simp only [update_apply, Table.clear, Table.Published] at *
    grind

theorem tgid_process_step (h : Inv a) (hst : Step a m a') :
    ∀ s s', a'.Published s' → a'.tgid s = a'.tgid s' → a'.process s = a'.process s' := by
  have hlive := h.job_live
  have hbuild := h.build_embryo
  have hfresh := h.embryo_fresh
  have htgid := h.tgid_pos
  have hproc := h.tgid_process
  have hfork := h.fork_group
  have hclone := h.clone_group
  cases hst with
  | mapFork | mapClone | read | rootFork | rootClone | exitEnter | joinEnter | joinLeave | mark
  | alone | swap | take | settle | load | giveUp | commit | kill => exact hproc
  | _ =>
    simp only [update_apply, Table.clear, Table.Published] at *
    grind

theorem process_stays (h : Inv a) (hst : Step a m a') {t : ι} (ht : a.phase t = .live) :
    a'.process t = a.process t := by
  rcases hst.live_stays h ht with ⟨-, -, hsame⟩ | ⟨L, rfl⟩
  · exact hsame
  · cases hst
    rfl

theorem not_published_in_exec (h : Inv a) {t u s : ι} {y : Takeover} {kd : Kind}
    (hst : Step a (.publish u s kd) a') (hy : a.job t = .exec y)
    (hb : a.job u = .build kd .rooted s) : a.process s ≠ a.process t := by
  intro hsame
  have ht := h.job_live t (by simp [hy])
  have hembryo := h.build_embryo u kd .rooted s hb
  cases hst with
  | publishFork =>
    obtain ⟨hself, -⟩ := h.fork_group u .rooted s hb (by simp)
    have hts := h.process_embryo (by simp [Table.Published, hembryo]) (hsame.symm.trans hself)
    simp [← hts, ht] at hembryo
  | publishClone _ hk _ =>
    obtain ⟨hu, -⟩ := h.clone_group u .rooted s hb (by simp)
    have hne : u ≠ t := by
      rintro rfl
      simp [hy] at hb
    have hmark := h.exec_killed t y hy u hne (h.job_live u (by simp [hb])) (hu.symm.trans hsame)
    simp [hk] at hmark

theorem exec_killed_step (h : Inv a) (hst : Step a m a') :
    ∀ t x, a'.job t = .exec x → ∀ s, s ≠ t → a'.phase s = .live →
      a'.process s = a'.process t → a'.killed s = true := by
  intro t x hj s hne hs hproc
  rcases hst.job_exec hj with ⟨y, hy, -⟩ | ⟨rfl, -⟩
  · have hsame : a'.process t = a.process t := h.process_stays hst (h.job_live t (by simp [hy]))
    rcases hst.live h hs with ⟨hs₀, -, hs'⟩ | ⟨u, kd, rfl, hb, -, hs'⟩
    · exact hst.killed_stays hs (h.exec_killed t y hy s hne hs₀ (by rw [← hs', hproc, hsame]))
    · -- A thread of the group that is published by a creator would have a marked one.
      have hst₀ : a.process s = a.process t := by rw [← hs', hproc, hsame]
      exact absurd hst₀ (h.not_published_in_exec hst hy hb)
  · cases hst with
    | mark ht _ _ =>
      obtain ⟨L, hL, -, -, htgid⟩ := h.leader t (Or.inl ht)
      obtain ⟨M, hM, -, -, hsgid⟩ := h.leader s (Or.inl hs)
      cases hL.symm.trans (hproc.symm.trans hM)
      have hpid : a.pid s ≠ a.pid t := fun heq => hne (h.pid_inj s t (Or.inl hs) (Or.inl ht) heq)
      simp [← htgid, ← hsgid, hpid]

theorem exit_init_step (h : Inv a) (hst : Step a m a') :
    ∀ t, a'.job t = .exit → t ≠ a'.initproc := by
  have hinit := h.exit_init
  cases hst <;> simp only [update_apply, Table.clear] <;> grind

theorem exec_unique_step (h : Inv a) (hst : Step a m a') :
    ∀ t t' x x', a'.job t = .exec x → a'.job t' = .exec x' →
      a'.process t = a'.process t' → t = t' := by
  intro t t' x x' hx hx' hproc
  by_contra hne
  -- The later one of the two was marked when it entered `exec`.
  have hmarked : ∀ {t t' : ι} {y : Takeover}, t' ≠ t → a.job t = .exec y → m = .mark t' →
      a.process t' ≠ a.process t := by
    rintro t t' y hne hy rfl hsame
    cases hst with
    | mark ht _ hk => simp [h.exec_killed t y hy t' hne ht hsame] at hk
  have hlive : ∀ {t : ι} {x : Takeover}, a'.job t = .exec x → a'.process t = a.process t := by
    intro t x hx
    rcases hst.job_exec hx with ⟨y, hy, -⟩ | ⟨rfl, -⟩
    · exact h.process_stays hst (h.job_live t (by simp [hy]))
    · cases hst
      rfl
  rw [hlive hx, hlive hx'] at hproc
  rcases hst.job_exec hx with ⟨y, hy, -⟩ | ⟨hm, -⟩
  · rcases hst.job_exec hx' with ⟨y', hy', -⟩ | ⟨hm', -⟩
    · exact hne (h.exec_unique t t' y y' hy hy' hproc)
    · exact hmarked (Ne.symm hne) hy hm' hproc.symm
  · rcases hst.job_exec hx' with ⟨y', hy', -⟩ | ⟨hm', -⟩
    · exact hmarked hne hy' hm hproc
    · cases hm.symm.trans hm'
      exact hne rfl

theorem exec_alone_step (h : Inv a) (hst : Step a m a') :
    ∀ t x, a'.job t = .exec x → x ≠ .waiting → ∀ s, s ≠ t →
      a'.process s = a'.process t → a'.phase s = .zombie := by
  have hlive := h.job_live
  have hbuild := h.build_embryo
  have hleader := h.leader
  have hfork := h.fork_group
  have hclone := h.clone_group
  have halone := h.exec_alone
  have hof := @leader_of _ _ _ _ h
  have hemb := h.embryo_build
  have hraw := h.raw_process
  have hunused := h.unused_process
  cases hst <;> simp only [update_apply, Table.clear, Table.Published] at * <;> grind

theorem step (h : Inv a) (hst : Step a m a') : Inv a' where
  job_live := h.job_live_step hst
  build_embryo := h.build_embryo_step hst
  build_inj := h.build_inj_step hst
  embryo_build := h.embryo_build_step hst
  leader := h.leader_step hst
  unused_process := h.unused_process_step hst
  raw_process := h.raw_process_step hst
  fork_group := h.fork_group_step hst
  clone_group := h.clone_group_step hst
  count := h.count_step hst
  count_zero := h.count_zero_step hst
  unused_parent := h.unused_parent_step hst
  build_parent := h.build_parent_step hst
  build_pgdir := h.build_pgdir_step hst
  nextpid_pos := h.nextpid_pos_step hst
  pid_lt := h.pid_lt_step hst
  tgid_lt := h.tgid_lt_step hst
  pid_inj := h.pid_inj_step hst
  pid_tgid := h.pid_tgid_step hst
  embryo_fresh := h.embryo_fresh_step hst
  embryo_pos := h.embryo_pos_step hst
  tgid_pos := h.tgid_pos_step hst
  tgid_process := h.tgid_process_step hst
  exec_killed := h.exec_killed_step hst
  exit_init := h.exit_init_step hst
  exec_unique := h.exec_unique_step hst
  exec_alone := h.exec_alone_step hst

theorem initial (i : ι) : Inv (.initial i) := by
  have hmembers : ((Table.initial i).members i).card = 1 :=
    Count.card_filter_single (x := i) (by simp [Table.initial]) fun s hs => by
      by_contra hne
      simp [Table.initial, hne] at hs
  constructor
  case count =>
    intro L hL
    have hLi : L = i := by
      by_contra hne
      simp [Table.initial, hne] at hL
    rw [hLi, hmembers]
    simp [Table.initial]
  case leader =>
    intro s hs
    have hsi : s = i := by
      by_contra hne
      simp [Table.initial, Table.Published, hne] at hs
    subst hsi
    exact ⟨s, by simp [Table.initial], hs, by simp [Table.initial], rfl⟩
  all_goals
    simp only [Table.initial, Table.Published]
    grind

theorem of_reach {ok : Table ι → Move ι → Prop} {i : ι}
    (h : Transition.Reach (machine i) ok a) : Inv a :=
  h.invariant (fun _ h0 => h0 ▸ initial i) fun _ _ _ _ hinv _ hst => hinv.step hst

end Inv

end KThreads.Group
