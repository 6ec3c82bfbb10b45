import KThreads.Group.Table
import KThreads.Lib.Count

/-!
# The invariant of the thread-group machine

The invariant says who is building which slot, that every published thread
belongs to a group with a published leader, that the counter of a leader counts
the live threads of its group, how process numbers are used up, and what a
thread inside `exec` may rely on. It needs no assumption on the run: in
particular it survives any number of takeovers of a group by `exec`.
-/

namespace KThreads.Group

variable {ι : Type*} [DecidableEq ι] [Fintype ι]

/-- What holds in every state of the thread-group machine. -/
structure Inv (a : Table ι) : Prop where
  /-- Only a live thread is inside a system call. -/
  job_live : ∀ t, a.job t ≠ .none → a.phase t = .live
  build_embryo : ∀ t kd st np, a.job t = .build kd st np → a.phase np = .embryo
  build_inj : ∀ t t' kd kd' st st' np,
    a.job t = .build kd st np → a.job t' = .build kd' st' np → t = t'
  /-- A slot under construction has a live builder. -/
  embryo_build : ∀ np, a.phase np = .embryo → ∃ t kd st, a.job t = .build kd st np
  /-- A published thread belongs to a group with a published leader. -/
  leader : ∀ s, a.Published s →
    ∃ L, a.process s = some L ∧ a.Published L ∧ a.process L = some L ∧ a.tgid L = a.tgid s
  unused_process : ∀ s, a.phase s = .unused → a.process s = none ∨ a.process s = some s
  raw_process : ∀ t kd np,
    a.job t = .build kd .raw np → a.process np = none ∨ a.process np = some np
  fork_group : ∀ t st np, a.job t = .build .fork st np → st ≠ .raw →
    a.process np = some np ∧ a.tgid np = a.pid np
  clone_group : ∀ t st np, a.job t = .build .clone st np → st ≠ .raw →
    a.process np = a.process t ∧ a.tgid np = a.tgid t
  /-- The counter of a leader is the number of live threads of its group. -/
  count : ∀ L, a.process L = some L → a.threadcount L = (a.members L).card
  count_zero : ∀ s, ¬a.Published s → a.threadcount s = 0
  unused_parent : ∀ s, a.phase s = .unused → a.parent s = none ∧ a.pgdir s = none
  build_parent : ∀ t kd st np, a.job t = .build kd st np → st ≠ .rooted → a.parent np = none
  build_pgdir : ∀ t kd st np,
    a.job t = .build kd st np → st = .raw ∨ st = .grouped → a.pgdir np = none
  nextpid_pos : 0 < a.nextpid
  pid_lt : ∀ s, a.pid s < a.nextpid
  tgid_lt : ∀ s, a.tgid s < a.nextpid
  /-- Two slots that are live or under construction have different pids. -/
  pid_inj : ∀ s s', a.phase s = .live ∨ a.phase s = .embryo →
    a.phase s' = .live ∨ a.phase s' = .embryo → a.pid s = a.pid s' → s = s'
  /-- The pid of a live thread is the number of no other group than its own. -/
  pid_tgid : ∀ s s', a.phase s = .live → a.Published s' → a.pid s = a.tgid s' →
    a.process s = a.process s'
  /-- The pid of a slot under construction is not yet the number of a group. -/
  embryo_fresh : ∀ np s, a.phase np = .embryo → s ≠ np → a.tgid s ≠ a.pid np
  embryo_pos : ∀ np, a.phase np = .embryo → 0 < a.pid np
  tgid_pos : ∀ s, a.Published s → 0 < a.tgid s
  /-- The slots that carry the number of a published group belong to it. -/
  tgid_process : ∀ s s', a.Published s' → a.tgid s = a.tgid s' → a.process s = a.process s'
  /-- Past the killed check of `exec` every other live thread of the group has
  been marked. -/
  exec_killed : ∀ t x, a.job t = .exec x → ∀ s, s ≠ t → a.phase s = .live →
    a.process s = a.process t → a.killed s = true
  /-- The first thread does not exit. -/
  exit_init : ∀ t, a.job t = .exit → t ≠ a.initproc
  exec_unique : ∀ t t' x x', a.job t = .exec x → a.job t' = .exec x' →
    a.process t = a.process t' → t = t'
  /-- Past the waiting loop of `exec` every other slot of the group is a zombie. -/
  exec_alone : ∀ t x, a.job t = .exec x → x ≠ .waiting → ∀ s, s ≠ t →
    a.process s = a.process t → a.phase s = .zombie

namespace Inv

variable {a a' : Table ι} {m : Move ι}

theorem exists_live_of_embryo (h : Inv a) {s L : ι} (hs : a.phase s = .embryo)
    (hp : a.process s = some L) (hne : s ≠ L) :
    ∃ t, a.phase t = .live ∧ a.process t = some L ∧ a.tgid t = a.tgid s := by
  obtain ⟨t, kd, st, hj⟩ := h.embryo_build s hs
  refine ⟨t, h.job_live t (by simp [hj]), ?_⟩
  have hraw := h.raw_process t kd s
  have hfork := h.fork_group t st s
  have hclone := h.clone_group t st s
  by_cases hst : st = .raw <;> cases kd <;> grind

theorem leader_of (h : Inv a) {s L : ι} (hp : a.process s = some L) (hne : s ≠ L) :
    a.Published L ∧ a.process L = some L ∧ a.tgid L = a.tgid s := by
  have hpublished : ∀ u, a.Published u → a.process u = some L →
      a.Published L ∧ a.process L = some L ∧ a.tgid L = a.tgid u := by
    intro u hu hpu
    obtain ⟨M, hM, hrest⟩ := h.leader u hu
    rw [hpu] at hM
    cases hM
    exact hrest
  cases hphase : a.phase s with
  | live => exact hpublished s (Or.inl hphase) hp
  | zombie => exact hpublished s (Or.inr hphase) hp
  | unused =>
    rcases h.unused_process s hphase with hnone | hself
    · simp [hnone] at hp
    · exact absurd (Option.some.inj (hself.symm.trans hp)) hne
  | embryo =>
    obtain ⟨t, ht, htL, htgid⟩ := h.exists_live_of_embryo hphase hp hne
    rw [← htgid]
    exact hpublished t (Or.inl ht) htL

theorem job_embryo (h : Inv a) {np : ι} (hnp : a.phase np = .embryo) : a.job np = .none := by
  by_contra hj
  simp [h.job_live np hj] at hnp

theorem process_embryo (h : Inv a) {s np : ι} (hnp : ¬a.Published np)
    (hp : a.process s = some np) : s = np := by
  by_contra hne
  exact hnp (h.leader_of hp hne).1

theorem members_congr {L : ι} (h : ∀ s, (a'.phase s = .live ∧ a'.process s = some L) ↔
    (a.phase s = .live ∧ a.process s = some L)) : a'.members L = a.members L :=
  Finset.filter_congr fun s _ => h s

theorem members_unpublished (h : Inv a) {L : ι} (hL : ¬a.Published L) :
    (a.members L).card = 0 := by
  refine Count.card_filter_none fun s hs => ?_
  have hsL := h.process_embryo hL hs.2
  exact hL (hsL ▸ Or.inl hs.1)

theorem threadcount_le (h : Inv a) {s L : ι} (hL : a.process s = some L) :
    a.threadcount L ≤ Fintype.card ι := by
  by_cases hlead : a.process L = some L
  · rw [h.count L hlead]
    exact Finset.card_le_univ _
  · have hne : s ≠ L := by rintro rfl; exact hlead hL
    exact absurd (h.leader_of hL hne).2.1 hlead

theorem threadcount_pos (h : Inv a) {t L : ι} (ht : a.phase t = .live) (hL : a.process t = some L) :
    0 < a.threadcount L := by
  obtain ⟨M, hM, -, hlead, -⟩ := h.leader t (Or.inl ht)
  rw [hL] at hM
  cases hM
  rw [h.count L hlead]
  exact Finset.card_pos.mpr ⟨t, by simp [Table.members, ht, hL]⟩

theorem exists_live_of_count (h : Inv a) {L : ι} (hL : a.process L = some L)
    (hpos : 0 < a.threadcount L) : ∃ t, a.phase t = .live ∧ a.process t = some L := by
  rw [h.count L hL, Finset.card_pos] at hpos
  obtain ⟨t, ht⟩ := hpos
  exact ⟨t, by simpa [Table.members] using ht⟩

theorem eq_of_count_one (h : Inv a) {t u L : ι} (hone : a.threadcount L = 1)
    (ht : a.phase t = .live) (htL : a.process t = some L) (hu : a.phase u = .live)
    (huL : a.process u = some L) : u = t := by
  obtain ⟨M, hM, -, hlead, -⟩ := h.leader t (Or.inl ht)
  cases htL.symm.trans hM
  rw [h.count L hlead] at hone
  exact Finset.card_le_one.mp hone.le u (by simp [Table.members, hu, huL]) t
    (by simp [Table.members, ht, htL])

theorem count_alone (h : Inv a) {t L : ι} {x : Takeover} (hj : a.job t = .exec x)
    (hx : x ≠ .waiting) (hL : a.process t = some L) : a.threadcount L = 1 := by
  have ht := h.job_live t (by simp [hj])
  obtain ⟨M, hM, -, hlead, -⟩ := h.leader t (Or.inl ht)
  cases hL.symm.trans hM
  rw [h.count L hlead]
  refine Count.card_filter_single (x := t) ⟨ht, hL⟩ fun s hs => ?_
  by_contra hne
  have hz := h.exec_alone t x hj hx s hne (hs.2.trans hL.symm)
  simp [hs.1] at hz

theorem zombie_of_count_zero (h : Inv a) {p M : ι} (hp : a.Published p) (hM : a.process p = some M)
    (hzero : a.threadcount M = 0) : ∀ s, a.tgid s = a.tgid p → a.phase s = .zombie := by
  intro s hs
  have hprocess : a.process s = some M := (h.tgid_process s p hp hs).trans hM
  have hnone : ∀ t, a.process t = some M → a.phase t ≠ .live := fun t ht hlive =>
    absurd (h.threadcount_pos hlive ht) (by simp [hzero])
  obtain ⟨N, hN, hpub, -⟩ := h.leader p hp
  cases hM.symm.trans hN
  cases hphase : a.phase s with
  | zombie => rfl
  | live => exact absurd hphase (hnone s hprocess)
  | unused =>
    have hself := h.unused_process s hphase
    grind [Table.Published]
  | embryo =>
    have hne : s ≠ M := by
      rintro rfl
      simp [Table.Published, hphase] at hpub
    obtain ⟨t, ht, htM, -⟩ := h.exists_live_of_embryo hphase hprocess hne
    exact absurd ht (hnone t htM)

end Inv

end KThreads.Group
