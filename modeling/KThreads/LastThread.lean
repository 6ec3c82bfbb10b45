import KThreads.Frame
import KThreads.Threads

/-!
# The directory of a dying group

`exit` gives up the current directory of the group when it finds the counter of the
group at one, and decrements the counter in a later section. Two threads that read
the counter before either of them has decremented it leave the reference behind.

How often the reference of a group has been dropped is kept as a history.
-/

namespace KThreads.Group

open Function (update)

variable {ι : Type*} [DecidableEq ι] [Fintype ι]

/-- Whether a thread in `exit` has read the counter: not yet, with the result that it
is the last one, or with nothing left to drop. -/
inductive Share
  | held | last | done
  deriving DecidableEq

/-- The thread groups, with the shares of their threads in `exit` and, as a history, how
often the reference of the group with a number has been dropped. -/
structure Election (ι : Type*) where
  table : Table ι
  share : ι → Share
  drops : ℤ → ℕ

namespace Election

/-- What threads do about the reference. -/
inductive Act (ι : Type*)
  | move (m : Move ι)
  | count (t : ι)
  | drop (t : ι)

/-- A move of the thread groups leaves the shares alone, apart from that of a thread
that exits; a thread that is in `exit` reads the counter, and drops the reference. -/
inductive Step (x : Election ι) : Act ι → Election ι → Prop
  | move {m : Move ι} {b : Table ι} (hst : Group.Step x.table m b) (hm : ∀ t L, m ≠ .exit t L) :
      Step x (.move m) { x with table := b }
  | exit {t L : ι} {b : Table ι} (hst : Group.Step x.table (.exit t L) b)
      (hshare : x.share t = .done) :
      Step x (.move (.exit t L)) { x with table := b, share := update x.share t .held }
  | count {t L : ι} (hj : x.table.job t = .exit) (hL : x.table.process t = some L)
      (hshare : x.share t = .held) :
      Step x (.count t) { x with
        share := update x.share t (if x.table.threadcount L = 1 then .last else .done) }
  | drop {t : ι} (hj : x.table.job t = .exit) (hshare : x.share t = .last) :
      Step x (.drop t) { x with
        share := update x.share t .done
        drops := update x.drops (x.table.tgid t) (x.drops (x.table.tgid t) + 1) }

/-- The machine, started with the thread of the slot `i`. -/
def machine (i : ι) : Transition.System (Election ι) (Act ι) where
  init x := x = ⟨.initial i, fun _ => .held, fun _ => 0⟩
  step := Step

/-- A thread that reads a counter other than one leaves the reference to another live
thread of its group. -/
def LeavesHeir (x : Election ι) (c : Act ι) : Prop :=
  ∀ t L, c = .count t → x.table.process t = some L → x.table.threadcount L = 1 ∨
    ∃ u, u ≠ t ∧ x.table.phase u = .live ∧ x.table.process u = some L ∧ x.share u ≠ .done

/-- A thread is the only live one of its group. -/
def Alone (x : Election ι) (s : ι) : Prop :=
  ∀ u, x.table.phase u = .live → x.table.process u = x.table.process s → u = s

/-- The group of a slot has a live thread that has not given up the reference. -/
def Heir (x : Election ι) (s : ι) : Prop :=
  ∃ u, x.table.phase u = .live ∧ x.table.process u = x.table.process s ∧ x.share u ≠ .done

/-- What holds of the references however the threads exit. -/
structure Dropped (x : Election ι) : Prop where
  table : Inv x.table
  share_exit : ∀ s, x.share s ≠ .held → x.table.job s = .exit
  fresh : ∀ g, x.table.nextpid ≤ g → x.drops g = 0
  embryo : ∀ s, x.table.phase s = .embryo → x.drops (x.table.pid s) = 0
  once : ∀ g, x.drops g ≤ 1
  /-- Once the reference is dropped, the thread that has done so is the only live one. -/
  dropped : ∀ s, x.table.phase s = .live → x.drops (x.table.tgid s) ≠ 0 →
    x.share s = .done ∧ x.Alone s
  last : ∀ s, x.share s = .last → x.Alone s

/-- What holds of the references as long as they are left to somebody. -/
structure Elected (x : Election ι) : Prop where
  live : ∀ s, x.table.phase s = .live → x.drops (x.table.tgid s) = 1 ∨ x.Heir s
  zombie : ∀ s, x.table.phase s = .zombie → x.drops (x.table.tgid s) = 1 ∨
    ∃ u, x.table.phase u = .live ∧ x.table.process u = x.table.process s

variable {x x' : Election ι} {c : Act ι}

theorem tgid_eq_of_process {a : Table ι} (h : Inv a) {s u : ι} (hs : a.Published s)
    (hu : a.Published u) (hsame : a.process u = a.process s) : a.tgid u = a.tgid s := by
  obtain ⟨L, hL, -, -, htgid⟩ := h.leader s hs
  obtain ⟨M, hM, -, -, htgid'⟩ := h.leader u hu
  cases (hL.symm.trans hsame.symm).trans hM
  exact htgid'.symm.trans htgid

namespace Dropped

theorem held (h : Dropped x) {t : ι} (ht : x.table.phase t = .live) (hj : x.table.job t ≠ .exit) :
    x.share t = .held ∧ x.drops (x.table.tgid t) = 0 := by
  have hshare : x.share t = .held := by
    by_contra hne
    exact hj (h.share_exit t hne)
  refine ⟨hshare, ?_⟩
  by_contra hdrops
  have := (h.dropped t ht hdrops).1
  simp [hshare] at this

theorem publish (h : Dropped x) {t s : ι} {kd : Kind}
    (hj : x.table.job t = .build kd .rooted s) :
    x.share s = .held ∧ x.drops (x.table.tgid s) = 0 ∧
      ∀ u, x.table.phase u = .live → x.table.process u = x.table.process s →
        x.share u ≠ .last ∧ x.drops (x.table.tgid u) = 0 := by
  have ht := h.table.job_live t (by simp [hj])
  have hembryo := h.table.build_embryo t kd .rooted s hj
  have hshare : x.share s = .held := by
    by_contra hne
    have := h.table.job_live s (by simp [h.share_exit s hne])
    simp [hembryo] at this
  cases kd with
  | fork =>
    obtain ⟨hself, htgid⟩ := h.table.fork_group t .rooted s hj nofun
    refine ⟨hshare, htgid ▸ h.embryo s hembryo, fun u hlive hu => ?_⟩
    have husame := h.table.process_embryo (s := u) (by simp [Table.Published, hembryo])
      (hu.trans hself)
    simp [husame, hembryo] at hlive
  | clone =>
    obtain ⟨hsame, htgid⟩ := h.table.clone_group t .rooted s hj nofun
    obtain ⟨htheld, htdrops⟩ := h.held ht (by simp [hj])
    refine ⟨hshare, htgid ▸ htdrops, fun u hlive hu => ⟨fun hlast => ?_, ?_⟩⟩
    · have htu := h.last u hlast t ht (hsame.symm.trans hu.symm)
      simp [← htu, htheld] at hlast
    · rwa [tgid_eq_of_process h.table (Or.inl ht) (Or.inl hlive) (hu.trans hsame)]

theorem drops_of_last (h : Dropped x) {t : ι} (hshare : x.share t = .last) :
    x.table.phase t = .live ∧ x.drops (x.table.tgid t) = 0 := by
  have ht := h.table.job_live t (by simp [h.share_exit t (by simp [hshare])])
  refine ⟨ht, ?_⟩
  by_contra hdrops
  have := (h.dropped t ht hdrops).1
  simp [hshare] at this

theorem move_step (h : Dropped x) {m : Move ι} {b : Table ι} (hst : Group.Step x.table m b)
    (hm : ∀ t L, m ≠ .exit t L) : Dropped { x with table := b } := by
  -- a thread with a share other than its own reference is not joined by a new one
  have halone : ∀ s, x.table.phase s = .live →
      (x.share s = .last ∨ x.drops (x.table.tgid s) ≠ 0) → x.Alone s →
      Alone { x with table := b } s := by
    intro s hs hcase hs' u hu hsame
    have hprocess : b.process s = x.table.process s := by
      rcases hst.live_stays h.table hs with ⟨-, -, hp⟩ | ⟨L, hexit⟩
      · exact hp
      · exact absurd hexit (hm s L)
    rcases hst.live h.table hu with ⟨hlive, -, hp⟩ | ⟨t, kd, -, hj, -, hp⟩
    · exact hs' u hlive (hp.symm.trans (hsame.trans hprocess))
    · obtain ⟨-, -, hgroup⟩ := h.publish hj
      obtain ⟨hlast, hdrops⟩ := hgroup s hs (hprocess.symm.trans (hsame.symm.trans hp))
      exact absurd hcase (by simp [hlast, hdrops])
  constructor
  · exact h.table.step hst
  · intro s hs
    rcases hst.job_stays (h.share_exit s hs) with hj | ⟨L, hexit⟩
    · exact hj
    · exact absurd hexit (hm s L)
  · exact fun g hg => h.fresh g (hst.nextpid_le.trans hg)
  · intro s hs
    rcases hst.embryo h.table hs with ⟨hembryo, hpid⟩ | ⟨-, hpid, -⟩
    · exact hpid ▸ h.embryo s hembryo
    · exact hpid ▸ h.fresh _ le_rfl
  · exact h.once
  · intro s hs hdrops
    rcases hst.live h.table hs with ⟨hlive, htgid, -⟩ | ⟨t, kd, -, hj, htgid, -⟩
    · simp only [htgid] at hdrops
      obtain ⟨hshare, hs'⟩ := h.dropped s hlive hdrops
      exact ⟨hshare, halone s hlive (Or.inr hdrops) hs'⟩
    · simp only [htgid] at hdrops
      exact absurd (h.publish hj).2.1 hdrops
  · intro s hs
    exact halone s (h.drops_of_last hs).1 (Or.inl hs) (h.last s hs)

theorem exit_step (h : Dropped x) {t L : ι} {b : Table ι}
    (hst : Group.Step x.table (.exit t L) b) :
    Dropped { x with table := b, share := update x.share t .held } := by
  have htable := h.table.step hst
  have hother : ∀ s, b.phase s = .live → s ≠ t ∧ x.table.phase s = .live := by
    intro s hs
    cases hst
    by_cases hne : s = t
    · simp [hne] at hs
    · exact ⟨hne, by simpa [hne] using hs⟩
  have halone : ∀ s, x.Alone s → Alone { x with
      table := b, share := update x.share t .held } s := by
    intro s hs u hu hsame
    have hlive := (hother u hu).2
    cases hst
    exact hs u hlive hsame
  constructor
  · exact htable
  · intro s hs
    have hne : s ≠ t := by
      rintro rfl
      simp at hs
    have hj := h.share_exit s (by simpa [hne] using hs)
    cases hst
    simpa [hne] using hj
  · exact fun g hg => h.fresh g (hst.nextpid_le.trans hg)
  · intro s hs
    rcases hst.embryo h.table hs with ⟨hembryo, hpid⟩ | ⟨-, hpid, -⟩
    · exact hpid ▸ h.embryo s hembryo
    · exact hpid ▸ h.fresh _ le_rfl
  · exact h.once
  · intro s hs hdrops
    obtain ⟨hne, hlive⟩ := hother s hs
    have htgid : b.tgid s = x.table.tgid s := by cases hst; rfl
    simp only [htgid] at hdrops
    obtain ⟨hshare, hs'⟩ := h.dropped s hlive hdrops
    exact ⟨by simpa [hne] using hshare, halone s hs'⟩
  · intro s hs
    have hne : s ≠ t := by
      rintro rfl
      simp at hs
    exact halone s (h.last s (by simpa [hne] using hs))

theorem count_step (h : Dropped x) {t L : ι} (hj : x.table.job t = .exit)
    (hL : x.table.process t = some L) (hshare : x.share t = .held) :
    Dropped { x with
      share := update x.share t (if x.table.threadcount L = 1 then .last else .done) } := by
  have ht := h.table.job_live t (by simp [hj])
  constructor
  · exact h.table
  · intro s hs
    by_cases hne : s = t
    · exact hne ▸ hj
    · exact h.share_exit s (by simpa [hne] using hs)
  · exact h.fresh
  · exact h.embryo
  · exact h.once
  · intro s hs hdrops
    obtain ⟨hdone, hs'⟩ := h.dropped s hs hdrops
    have hne : s ≠ t := by
      rintro rfl
      simp [hshare] at hdone
    exact ⟨by simpa [hne] using hdone, hs'⟩
  · intro s hs
    by_cases hne : s = t
    · subst hne
      intro u hu hsame
      have hone : x.table.threadcount L = 1 := by
        by_contra hmore
        simp [hmore] at hs
      exact h.table.eq_of_count_one hone ht hL hu (hsame.trans hL)
    · exact h.last s (by simpa [hne] using hs)

theorem drop_step (h : Dropped x) {t : ι} (hshare : x.share t = .last) :
    Dropped { x with
      share := update x.share t .done
      drops := update x.drops (x.table.tgid t) (x.drops (x.table.tgid t) + 1) } := by
  obtain ⟨ht, hdrops⟩ := h.drops_of_last hshare
  have hj := h.share_exit t (by simp [hshare])
  constructor
  · exact h.table
  · intro s hs
    by_cases hne : s = t
    · exact hne ▸ hj
    · exact h.share_exit s (by simpa [hne] using hs)
  · intro g hg
    have hne : g ≠ x.table.tgid t := ((h.table.tgid_lt t).trans_le hg).ne'
    simpa [hne] using h.fresh g hg
  · intro s hs
    have hst : t ≠ s := by
      rintro rfl
      simp [ht] at hs
    have hne := (h.table.embryo_fresh s t hs hst).symm
    simpa [hne] using h.embryo s hs
  · intro g
    by_cases hg : g = x.table.tgid t
    · simp [hg, hdrops]
    · simpa [hg] using h.once g
  · intro s hs hs'
    by_cases htgid : x.table.tgid s = x.table.tgid t
    · -- the group of the reference has no other live thread
      have hsame := h.table.tgid_process s t (Or.inl ht) htgid
      have hst := h.last t hshare s hs hsame
      subst hst
      exact ⟨by simp, h.last s hshare⟩
    · have hne : s ≠ t := fun heq => htgid (heq ▸ rfl)
      obtain ⟨hdone, halone⟩ := h.dropped s hs (by simpa [htgid] using hs')
      exact ⟨by simpa [hne] using hdone, halone⟩
  · intro s hs
    have hne : s ≠ t := by
      rintro rfl
      simp at hs
    exact h.last s (by simpa [hne] using hs)

theorem step (h : Dropped x) (hst : Step x c x') : Dropped x' := by
  cases hst with
  | move hst hm => exact h.move_step hst hm
  | exit hst => exact h.exit_step hst
  | count hj hL hshare => exact h.count_step hj hL hshare
  | drop _ hshare => exact h.drop_step hshare

theorem of_reach {ok : Election ι → Act ι → Prop} {i : ι}
    (h : Transition.Reach (machine i) ok x) : Dropped x := by
  refine h.invariant (fun x h0 => ?_) fun x c x' _ hd _ hst => hd.step hst
  cases h0
  exact ⟨Inv.initial i, nofun, fun _ _ => rfl, fun _ _ => rfl, fun _ => Nat.zero_le 1,
    fun _ _ hdrops => absurd rfl hdrops, nofun⟩

end Dropped

namespace Elected

theorem move_step (h : Elected x) (hd : Dropped x) {m : Move ι} {b : Table ι}
    (hst : Group.Step x.table m b) (hm : ∀ t L, m ≠ .exit t L) :
    Elected { x with table := b } := by
  have hstays : ∀ u, x.table.phase u = .live →
      b.phase u = .live ∧ b.process u = x.table.process u := by
    intro u hu
    rcases hst.live_stays hd.table hu with ⟨hlive, -, hp⟩ | ⟨L, hexit⟩
    · exact ⟨hlive, hp⟩
    · exact absurd hexit (hm u L)
  constructor
  · intro s hs
    rcases hst.live hd.table hs with ⟨hlive, htgid, hp⟩ | ⟨t, kd, -, hj, -, -⟩
    · refine (h.live s hlive).imp (fun hdrops => htgid ▸ hdrops) ?_
      rintro ⟨u, hu, hsame, hshare⟩
      exact ⟨u, (hstays u hu).1, ((hstays u hu).2.trans hsame).trans hp.symm, hshare⟩
    · exact Or.inr ⟨s, hs, rfl, by simp [(hd.publish hj).1]⟩
  · intro s hs
    obtain ⟨htgid, hp, hcase⟩ := hst.zombie hd.table hs
    rcases hcase with hzombie | ⟨-, L, hexit⟩ | ⟨t, -, ht, -, hsame⟩
    · refine (h.zombie s hzombie).imp (fun hdrops => htgid ▸ hdrops) ?_
      rintro ⟨u, hu, hsame⟩
      exact ⟨u, (hstays u hu).1, ((hstays u hu).2.trans hsame).trans hp.symm⟩
    · exact absurd hexit (hm s L)
    · exact Or.inr ⟨t, (hstays t ht).1, ((hstays t ht).2.trans hsame.symm).trans hp.symm⟩

theorem exit_step (h : Elected x) (hd : Dropped x) {t L : ι} {b : Table ι}
    (hst : Group.Step x.table (.exit t L) b) (hshare : x.share t = .done) :
    Elected { x with table := b, share := update x.share t .held } := by
  -- whoever has not given up the reference is not the thread that exits
  have hheir : ∀ s, x.Heir s → ∃ u, u ≠ t ∧ b.phase u = .live ∧
      b.process u = x.table.process s ∧ x.share u ≠ .done := by
    rintro s ⟨u, hu, hsame, hnot⟩
    have hne : u ≠ t := by
      rintro rfl
      exact hnot hshare
    cases hst
    exact ⟨u, hne, by simpa [hne] using hu, hsame, hnot⟩
  have htgid : ∀ s, b.tgid s = x.table.tgid s := by
    cases hst
    exact fun _ => rfl
  have hprocess : ∀ s, b.process s = x.table.process s := by
    cases hst
    exact fun _ => rfl
  constructor
  · intro s hs
    rcases hst.live hd.table hs with ⟨hlive, -⟩ | ⟨_, _, hpublish, -⟩
    · refine (h.live s hlive).imp (fun hdrops => (htgid s).symm ▸ hdrops) fun hs' => ?_
      obtain ⟨u, hne, hu, hsame, hnot⟩ := hheir s hs'
      exact ⟨u, hu, hsame.trans (hprocess s).symm, by simpa [hne] using hnot⟩
    · cases hpublish
  · intro s hs
    have ht : x.table.phase t = .live := hd.table.job_live t (by
      cases hst with
      | exit hj => simp [hj])
    have hlast : ∀ s, x.table.Published s → x.table.process s = x.table.process t →
        x.drops (b.tgid s) = 1 ∨ ∃ u, b.phase u = .live ∧ b.process u = b.process s := by
      intro s hpub hsame
      rw [htgid, hprocess, tgid_eq_of_process hd.table (Or.inl ht) hpub hsame, hsame]
      refine (h.live t ht).imp_right fun ht' => ?_
      obtain ⟨u, -, hu, hsame, -⟩ := hheir t ht'
      exact ⟨u, hu, hsame⟩
    obtain ⟨-, -, hcase⟩ := hst.zombie hd.table hs
    rcases hcase with hzombie | ⟨hlive, M, hexit⟩ | ⟨_, hmove, -⟩
    · rcases h.zombie s hzombie with hdrops | ⟨u, hu, hsame⟩
      · exact Or.inl ((htgid s).symm ▸ hdrops)
      · by_cases hut : u = t
        · exact hlast s (Or.inr hzombie) (hut ▸ hsame.symm)
        · refine Or.inr ⟨u, ?_, by rw [hprocess, hprocess, hsame]⟩
          cases hst
          simpa [hut] using hu
    · cases hexit
      exact hlast t (Or.inl ht) rfl
    · cases hmove

omit [Fintype ι] in
theorem count_step (h : Elected x) {t L : ι} (hL : x.table.process t = some L)
    (hok : x.LeavesHeir (.count t)) :
    Elected { x with
      share := update x.share t (if x.table.threadcount L = 1 then .last else .done) } := by
  refine ⟨fun s hs => ?_, h.zombie⟩
  refine (h.live s hs).imp_right ?_
  rintro ⟨u, hu, hsame, hnot⟩
  by_cases hut : u = t
  · subst hut
    rcases hok u L rfl hL with hone | ⟨v, hne, hv, hvL, hvnot⟩
    · exact ⟨u, hu, hsame, by simp [hone]⟩
    · exact ⟨v, hv, (hvL.trans hL.symm).trans hsame, by simpa [hne] using hvnot⟩
  · exact ⟨u, hu, hsame, by simpa [hut] using hnot⟩

theorem drop_step (h : Elected x) (hd : Dropped x) {t : ι} (hshare : x.share t = .last) :
    Elected { x with
      share := update x.share t .done
      drops := update x.drops (x.table.tgid t) (x.drops (x.table.tgid t) + 1) } := by
  obtain ⟨ht, hdrops⟩ := hd.drops_of_last hshare
  constructor
  · intro s hs
    by_cases htgid : x.table.tgid s = x.table.tgid t
    · exact Or.inl (by simp [htgid, hdrops])
    · refine (h.live s hs).imp (fun hs' => by simpa [htgid] using hs') ?_
      rintro ⟨u, hu, hsame, hnot⟩
      have hne : u ≠ t := by
        rintro rfl
        exact htgid (tgid_eq_of_process hd.table (Or.inl hu) (Or.inl hs) hsame.symm)
      exact ⟨u, hu, hsame, by simpa [hne] using hnot⟩
  · intro s hs
    by_cases htgid : x.table.tgid s = x.table.tgid t
    · exact Or.inl (by simp [htgid, hdrops])
    · exact (h.zombie s hs).imp_left fun hs' => by simpa [htgid] using hs'

theorem step (h : Elected x) (hd : Dropped x) (hok : x.LeavesHeir c) (hst : Step x c x') :
    Elected x' := by
  cases hst with
  | move hst hm => exact h.move_step hd hst hm
  | exit hst hshare => exact h.exit_step hd hst hshare
  | count _ hL => exact h.count_step hL hok
  | drop _ hshare => exact h.drop_step hd hshare

theorem of_reach {i : ι} (h : Transition.Reach (machine i) LeavesHeir x) : Elected x := by
  refine h.invariant (fun x h0 => ?_) fun x c x' hr he hok hst =>
    he.step (Dropped.of_reach hr) hok hst
  cases h0
  refine ⟨fun s hs => Or.inr ⟨s, hs, rfl, nofun⟩, fun s hs => ?_⟩
  simp only [Table.initial] at hs
  split at hs <;> cases hs

end Elected

end Election

end KThreads.Group

namespace KThreads

open Group (Share Election)
open Transition (Reach)

/-- Whether a thread has read the counter in `exit`. -/
def Pc.share : Pc → Share
  | .exit .iput => .last
  | .exit .zombie => .done
  | _ => .held

theorem Pc.job_exit {c : Pc} : c.job = .exit ↔ ∃ x, c = .exit x := by
  constructor
  · intro h
    unfold Pc.job at h
    split at h <;> first | exact ⟨_, rfl⟩ | cases h
  · rintro ⟨x, rfl⟩
    rfl

theorem Pc.share_of_not_exit {c : Pc} (h : ∀ x, c ≠ .exit x) : c.share = .held := by
  unfold Pc.share
  split
  · exact absurd rfl (h _)
  · exact absurd rfl (h _)
  · rfl

/-- How often the `iput` of `exit` has been made by the threads of a group. -/
def countDrops (drops : ℤ → ℕ) (k : Kernel) : Label → ℤ → ℕ
  | .step t _ =>
      match k.pc t with
      | .exit .iput => Function.update drops (k.proc t).tgid (drops (k.proc t).tgid + 1)
      | _ => drops
  | _ => drops

/-- The kernel with the history of the references that have been dropped. -/
abbrev dropping : Transition.System (Kernel × (ℤ → ℕ)) Label :=
  kernel.recording (fun _ => 0) countDrops

/-- A thread that reads a counter other than one in `exit` leaves another live thread
of its process that has not read it yet. -/
def Kernel.leavesHeir (k : Kernel) (t : Slot) : Prop :=
  k.pc t = .exit .count → ∀ L ∈ (k.proc t).process, (k.proc L).threadcount = 1 ∨
    ∃ u, u ≠ t ∧ (k.proc u).state.isLive = true ∧ (k.proc u).process = some L ∧
      k.pc u ≠ .exit .zombie

instance (k : Kernel) (t : Slot) : Decidable (k.leavesHeir t) :=
  inferInstanceAs (Decidable (_ → _))

/-- Every thread of the run that reads the counter in `exit` is the last one of its
process or leaves the reference to another one. -/
abbrev heirsRemain : Kernel → Label → Prop := onStep Kernel.leavesHeir

namespace Kernel

variable {k k' : Kernel} {t L : Slot} {e : Env} {l : Label} {drops : ℤ → ℕ}

/-- The shares of the threads in the references of their groups. -/
def election (k : Kernel) (drops : ℤ → ℕ) : Election Slot :=
  ⟨k.group, fun u => (k.pc u).share, drops⟩

theorem share_enterExit (h : ∀ x, k.pc t ≠ .exit x) (u : Slot) :
    ((k.enterExit t).pc u).share = (k.pc u).share := by
  unfold enterExit
  split
  · rfl
  · simp only [goto, Function.update_apply]
    split
    · next hu =>
      subst hu
      exact (Pc.share_of_not_exit h).symm
    · rfl

theorem share_goto {c : Pc} (h : ∀ x, k.pc t ≠ .exit x) (hc : c.share = .held) (u : Slot) :
    ((k.goto t c).pc u).share = (k.pc u).share := by
  simp only [goto, Function.update_apply]
  split
  · next hu =>
    subst hu
    rw [hc, Pc.share_of_not_exit h]
  · rfl

theorem share_callStep (hinv : Group.Inv k.group) (ht : (k.proc t).state = .running)
    (hL : (k.proc t).process = some L) (h : ∀ x, k.pc t ≠ .exit x)
    (hstep : k.callStep t L e (k.pc t) = some k') (u : Slot) :
    (k'.pc u).share = (k.pc u).share := by
  by_cases hu : u = t
  · subst hu
    rw [Pc.share_of_not_exit h]
    by_cases hexit : k'.group.job u = .exit
    swap
    · exact Pc.share_of_not_exit fun x hx => hexit (Pc.job_exit.mpr ⟨x, hx⟩)
    have hjob : k.group.job u ≠ .exit := fun hj => by
      obtain ⟨x, hx⟩ := Pc.job_exit.mp hj
      exact h x hx
    rcases callStep_follows hinv ht hL hstep with hstay | ⟨m, hm, hst⟩
    · exact absurd (hstay ▸ hexit) hjob
    · rcases hst.job_exit hexit with hj | rfl
      · exact absurd hj hjob
      · -- the thread has just entered `exit`
        have henter : ∀ k', (if (k.proc u).killed then k.enterExit u else k.goto u .user) = k' →
            (k'.pc u).share = .held := by
          rintro _ rfl
          rw [← Pc.share_of_not_exit h]
          split
          · exact share_enterExit h u
          · exact share_goto h rfl u
        generalize hpc : k.pc u = c at hm hstep
        cases hm with
        | ret => exact henter _ (Option.some.inj hstep)
        | trap => exact henter _ (Option.some.inj hstep)
  · rcases (spares_callStep hstep).pc u hu with hsame | ⟨hpub, huser, -⟩
    · rw [hsame]
    · have hembryo : k.group.phase u = .embryo := by
        generalize hpc : k.pc t = c at hpub
        unfold Pc.publishes at hpub
        split at hpub
        · cases hpub
          exact hinv.build_embryo t .fork .rooted u (by simp only [group, hpc, Pc.job])
        · cases hpub
          exact hinv.build_embryo t .clone .rooted u (by simp only [group, hpc, Pc.job])
        · cases hpub
      have hjob : (k.pc u).job = .none := hinv.job_embryo hembryo
      have hexit : ∀ x, k.pc u ≠ .exit x := fun x hx => by
        rw [Pc.job_exit.mpr ⟨x, hx⟩] at hjob
        cases hjob
      rw [huser, Pc.share_of_not_exit hexit]
      rfl

theorem share_enter {c : Call} (h : ∀ x, k.pc t ≠ .exit x) (u : Slot) :
    ((k.enter t c).pc u).share = (k.pc u).share := by
  cases c with
  | exit => exact share_enterExit h u
  | _ => exact share_goto h rfl u

theorem election_eq {a : Group.Table Slot} {f : Slot → Share} {drops' : ℤ → ℕ}
    (hgroup : k'.group = a) (hshare : ∀ u, (k'.pc u).share = f u) :
    k'.election drops' = ⟨a, f, drops'⟩ := by
  rw [election, hgroup, funext hshare]

theorem group_exitStep (hinv : Group.Inv k.group) (ht : (k.proc t).state = .running)
    (hL : (k.proc t).process = some L) {c : ExitPc} (hpc : k.pc t = .exit c) (hc : c ≠ .zombie) :
    (k.exitStep t L c).group = k.group := by
  rcases exitStep_follows hinv ht hL hpc with hstay | ⟨m, hm, -⟩
  · exact hstay
  · cases hm
    exact absurd rfl hc

theorem share_close {fds : List Fd} (hpc : k.pc t = .exit (.close fds)) :
    ((k.exitStep t L (.close fds)).pc t).share = .held := by
  simp only [exitStep]
  split
  · simp [goto, Pc.share]
  · unfold fileclose
    split
    · simp [panic, halt, hpc, Pc.share]
    · simp [goto, Pc.share]

theorem exitStep_elects (hinv : Group.Inv k.group) (ht : (k.proc t).state = .running)
    (hL : (k.proc t).process = some L) {c : ExitPc} (hpc : k.pc t = .exit c) :
    Transition.Follows Election.Step (fun a => ∀ u, a = .count u → u = t ∧ c = .count)
      (k.election drops) ((k.exitStep t L c).election (countDrops drops k (.step t e))) := by
  have hj : k.group.job t = .exit := by simp only [group, hpc, Pc.job]
  have hother : ∀ u, u ≠ t → (k.exitStep t L c).pc u = k.pc u := fun u hu => by
    have hspares : Spares none False t k (k.exitStep t L c) := spares_exitStep
    rcases hspares.pc u hu with hsame | ⟨hnone, -⟩
    · exact hsame
    · cases hnone
  have hshares : ∀ x, ((k.exitStep t L c).pc t).share = x →
      ∀ u, ((k.exitStep t L c).pc u).share =
        Function.update (fun u => (k.pc u).share) t x u := by
    intro x hx u
    by_cases hu : u = t
    · subst hu
      simpa using hx
    · simp [hu, hother u hu]
  have hstays : countDrops drops k (.step t e) = drops → (k.pc t).share = .held → c ≠ .zombie →
      ((k.exitStep t L c).pc t).share = .held →
      (k.exitStep t L c).election (countDrops drops k (.step t e)) = k.election drops := by
    intro hdrops hheld hc hshare
    rw [hdrops]
    refine election_eq (group_exitStep hinv ht hL hpc hc) fun u => ?_
    rw [hshares _ hshare u, ← hheld, Function.update_eq_self]
  cases c with
  | close fds =>
    exact .stay (hstays (by simp only [countDrops, hpc]) (by rw [hpc]; rfl) (by simp)
      (share_close hpc))
  | clear fd fds =>
    exact .stay (hstays (by simp only [countDrops, hpc]) (by rw [hpc]; rfl) (by simp)
      (by simp [exitStep, goto, Pc.share]))
  | count =>
    have hdrops : countDrops drops k (.step t e) = drops := by simp only [countDrops, hpc]
    refine .move (.count hj hL (by simp only [election, hpc, Pc.share])) ?_ ?_
    · rintro u hu
      cases hu
      exact ⟨rfl, rfl⟩
    · rw [hdrops]
      refine election_eq (group_exitStep hinv ht hL hpc (by simp)) (hshares _ ?_)
      simp only [exitStep, goto, Function.update_self, election, group]
      by_cases hone : (k.proc L).threadcount = 1 <;> simp only [hone, if_true, if_false] <;> rfl
  | iput =>
    refine .move (.drop hj (by simp only [election, hpc, Pc.share])) (by simp) ?_
    have hdrops : countDrops drops k (.step t e) =
        Function.update drops (k.group.tgid t) (drops (k.group.tgid t) + 1) := by
      simp only [countDrops, hpc, group]
    rw [hdrops]
    refine election_eq (group_exitStep hinv ht hL hpc (by simp)) (hshares _ ?_)
    simp [exitStep, goto, Pc.share]
  | zombie =>
    have hdrops : countDrops drops k (.step t e) = drops := by simp only [countDrops, hpc]
    rw [hdrops]
    rcases exitStep_follows hinv ht hL hpc with hstay | ⟨m, hm, hst⟩
    · have hphase : (k.exitStep t L .zombie).group.phase t = .zombie := by
        simp [exitStep, group, goto, modify, ProcState.phase]
      rw [hstay, phase_of_running ht] at hphase
      cases hphase
    · cases hm
      refine .move (.exit hst (by simp only [election, hpc, Pc.share])) (by simp) ?_
      refine election_eq rfl (hshares _ ?_)
      simp [exitStep, goto, Pc.share]

theorem next_elects (hinv : Group.Inv k.group) (hnext : k.next l = some k') :
    Transition.Follows Election.Step
      (fun a => ∀ t, a = .count t → ∃ e, l = .step t e ∧ k.pc t = .exit .count)
      (k.election drops) (k'.election (countDrops drops k l)) := by
  by_cases hexit : ∃ t e c, l = .step t e ∧ k.pc t = .exit c
  · obtain ⟨t, e, c, rfl, hpc⟩ := hexit
    obtain ⟨ht, L, hL, hstep⟩ := callStep_of_next hinv hnext
    rw [hpc] at hstep
    cases hstep
    refine (exitStep_elects hinv ht hL hpc).imp_right ?_
    rintro ⟨a, ha, hst⟩
    refine ⟨a, fun u hu => ?_, hst⟩
    obtain ⟨rfl, rfl⟩ := ha u hu
    exact ⟨e, rfl, hpc⟩
  -- elsewhere the shares do not change
  have hshare : ∀ u, (k'.pc u).share = (k.pc u).share := by
    intro u
    cases l with
    | schedule t | yield t | block t a =>
      obtain ⟨_, ⟨⟩⟩ := Option.ite_none_right_eq_some.mp hnext
      rfl
    | wakeup a =>
      obtain ⟨_, ⟨⟩⟩ := Option.ite_none_right_eq_some.mp hnext
      rfl
    | syscall t c =>
      obtain ⟨⟨_, _, hpc⟩, ⟨⟩⟩ := Option.ite_none_right_eq_some.mp hnext
      split
      · exact share_enterExit (by simp [hpc]) u
      · exact share_enter (by simp [hpc]) u
    | interrupt t =>
      obtain ⟨⟨_, _, hpc, _⟩, ⟨⟩⟩ := Option.ite_none_right_eq_some.mp hnext
      exact share_enterExit (by simp [hpc]) u
    | fault t =>
      obtain ⟨⟨_, _, hpc⟩, ⟨⟩⟩ := Option.ite_none_right_eq_some.mp hnext
      exact share_goto (k := k.modify t _) (fun x hx => by simp [modify, hpc] at hx) rfl u
    | step t e =>
      obtain ⟨ht, L, hL, hstep⟩ := callStep_of_next hinv hnext
      exact share_callStep hinv ht hL (fun x hx => hexit ⟨t, e, x, rfl, hx⟩) hstep u
  have hdrops : countDrops drops k l = drops := by
    unfold countDrops
    split
    · split
      · next hpc => exact absurd ⟨_, _, _, rfl, hpc⟩ hexit
      · rfl
    · rfl
  rw [hdrops]
  rcases next_follows hinv hnext with hstay | ⟨m, hm, hst⟩
  · exact .stay (election_eq hstay hshare)
  · refine .move (.move hst ?_) (by simp) (election_eq rfl hshare)
    rintro t L rfl
    obtain ⟨u, e, rfl, hmakes⟩ := hm.step (by simp) (by simp)
    generalize hpc : k.pc u = c at hmakes
    cases hmakes
    exact hexit ⟨_, e, _, rfl, hpc⟩

theorem reach_election {ok : Kernel → Label → Prop} {ok' : Election Slot → Election.Act Slot → Prop}
    (hok : ∀ k l drops, Group.Inv k.group → ok k l → ∀ a,
      (∀ t, a = .count t → ∃ e, l = .step t e ∧ k.pc t = .exit .count) →
      ok' (k.election drops) a)
    (h : Reach dropping (fun x l => ok x.1 l) (k, drops)) :
    Reach (Election.machine 0) ok' (k.election drops) := by
  refine h.simulate (f := fun x => x.1.election x.2) ?_ ?_
  · rintro ⟨_, _⟩ ⟨rfl, rfl⟩
    refine election_eq group_userinit fun u => ?_
    simp only [userinit]
    split <;> rfl
  · rintro ⟨k, drops⟩ l ⟨k', _⟩ hr - hl ⟨hstep, rfl⟩
    have hinv := inv_of_reachable hr.of_recording
    refine (next_elects hinv hstep).imp_right ?_
    rintro ⟨a, ha, hst⟩
    exact ⟨a, hok k l drops hinv hl a ha, hst⟩

end Kernel

variable {k : Kernel} {drops : ℤ → ℕ}

/-- **The directory of a group** in a run in which a thread that is not the last one
leaves the reference to another one. The reference is dropped once at most, by a
thread that is the only live one of the group; from then on no other thread of the
group is live; and a group without live threads has dropped it. -/
theorem cwd_dropped_once (h : Reach dropping (fun x l => heirsRemain x.1 l) (k, drops)) :
    (∀ g, drops g ≤ 1) ∧
    (∀ s, (k.proc s).state = .zombie →
      (∀ u, (k.proc u).state.isLive = true → (k.proc u).process ≠ (k.proc s).process) →
      drops (k.proc s).tgid = 1) ∧
    (∀ t, (k.proc t).state.isLive = true → k.pc t = .exit .iput →
      drops (k.proc t).tgid = 0 ∧ ∀ u, (k.proc u).state.isLive = true →
        (k.proc u).process = (k.proc t).process → u = t) ∧
    (∀ t, (k.proc t).state.isLive = true → drops (k.proc t).tgid = 1 →
      k.pc t = .exit .zombie ∧ ∀ u, (k.proc u).state.isLive = true →
        (k.proc u).process = (k.proc t).process → u = t) := by
  have hreach : Reach (Election.machine 0) Election.LeavesHeir (k.election drops) := by
    refine Kernel.reach_election (fun k l drops hinv hok a ha => ?_) h
    rintro t L rfl hL
    obtain ⟨e, rfl, hpc⟩ := ha t rfl
    refine (hok hpc L hL).imp_right ?_
    rintro ⟨u, hne, hu, huL, hnot⟩
    refine ⟨u, hne, ProcState.phase_eq_live.mpr hu, huL, fun hdone => hnot ?_⟩
    simp only [Kernel.election] at hdone
    generalize k.pc u = c at hdone
    unfold Pc.share at hdone
    split at hdone <;> first | rfl | cases hdone
  have hd := Election.Dropped.of_reach hreach
  have he := Election.Elected.of_reach hreach
  have halone : ∀ t, (k.election drops).Alone t → ∀ u, (k.proc u).state.isLive = true →
      (k.proc u).process = (k.proc t).process → u = t :=
    fun t ht u hu hsame => ht u (ProcState.phase_eq_live.mpr hu) hsame
  refine ⟨hd.once, fun s hs hdead => ?_, fun t ht hpc => ?_, fun t ht hone => ?_⟩
  · rcases he.zombie s (ProcState.phase_eq_zombie.mpr hs) with hone | ⟨u, hu, hsame⟩
    · exact hone
    · exact absurd hsame (hdead u (ProcState.phase_eq_live.mp hu))
  · have hlast : (k.election drops).share t = .last := by
      simp only [Kernel.election, hpc, Pc.share]
    exact ⟨(hd.drops_of_last hlast).2, halone t (hd.last t hlast)⟩
  · have hdrops : (k.election drops).drops ((k.election drops).table.tgid t) ≠ 0 := by
      change drops (k.proc t).tgid ≠ 0
      omega
    obtain ⟨hdone, ht'⟩ := hd.dropped t (ProcState.phase_eq_live.mpr ht) hdrops
    refine ⟨?_, halone t ht'⟩
    simp only [Kernel.election] at hdone
    generalize k.pc t = c at hdone
    unfold Pc.share at hdone
    split at hdone <;> first | rfl | cases hdone

set_option maxRecDepth 8000 in
/-- The threads of a process exit one after the other. -/
theorem cwd_dropped_once_in_turn :
    ∃ k drops, runRecordedBy (fun _ => 0) countDrops heirsRemain
        (.schedule 0 :: calls 0 .fork 9 ++ .schedule 1 :: calls 1 (.clone 4096) 9 ++
          .schedule 2 :: calls 2 .exit 3 ++ calls 1 .exit 4) = some (k, drops) ∧
      k.iref 0 = 1 ∧ drops (k.proc 1).tgid = 1 := by
  obtain ⟨⟨k, drops⟩, hk, hr, hiref, hzombie, hdead⟩ := exists_of_runRecordedBy (fun _ => 0)
    countDrops heirsRemain
    (.schedule 0 :: calls 0 .fork 9 ++ .schedule 1 :: calls 1 (.clone 4096) 9 ++
      .schedule 2 :: calls 2 .exit 3 ++ calls 1 .exit 4)
    (fun x => x.1.iref 0 = 1 ∧ (x.1.proc 1).state = .zombie ∧ ∀ u,
      (x.1.proc u).state.isLive = true → (x.1.proc u).process ≠ (x.1.proc 1).process)
    (by decide)
  exact ⟨k, drops, hk, hiref, (cwd_dropped_once hr).2.1 1 hzombie hdead⟩

set_option maxRecDepth 8000 in
/-- Two threads of a process read the counter before either of them has decremented
it: both are gone, and the reference is not dropped. -/
theorem cwd_never_dropped :
    ∃ k drops, Reach dropping Transition.anyStep (k, drops) ∧ (k.proc 1).state = .zombie ∧
      (∀ u, (k.proc u).state.isLive = true → (k.proc u).process ≠ (k.proc 1).process) ∧
      drops (k.proc 1).tgid = 0 ∧ k.iref 0 = 2 := by
  obtain ⟨⟨k, drops⟩, -, hr, hobs⟩ := exists_of_runRecordedBy (fun _ => 0) countDrops
    Transition.anyStep
    (.schedule 0 :: calls 0 .fork 9 ++ .schedule 1 :: calls 1 (.clone 4096) 9 ++
      .schedule 2 :: calls 1 .exit 2 ++ calls 2 .exit 2 ++ steps 1 1 ++ steps 2 1)
    (fun x => (x.1.proc 1).state = .zombie ∧
      (∀ u, (x.1.proc u).state.isLive = true → (x.1.proc u).process ≠ (x.1.proc 1).process) ∧
      x.2 (x.1.proc 1).tgid = 0 ∧ x.1.iref 0 = 2) (by decide)
  exact ⟨k, drops, hr, hobs⟩

end KThreads
