import KThreads.Group.Invariant

/-!
# What the moves do to single slots

A move changes the phase, the number or the mark of a slot in few ways. The lemmas
say which moves can be behind each change, for the invariants that are about slots
one at a time.
-/

namespace KThreads.Group

open Function (update update_apply)

variable {ι : Type*} [DecidableEq ι] [Fintype ι] {a a' : Table ι} {m : Move ι} {s : ι}

theorem Step.killed (hst : Step a m a') (hs : a'.killed s = true) :
    a.killed s = true ∨ m = .kill s ∨
      ∃ t, m = .mark t ∧ a.phase t = .live ∧ a.killed t = false ∧ a.tgid s = a.tgid t := by
  cases hst with
  | kill =>
    simp only [update_apply] at hs
    grind
  | mark ht _ hk => grind
  | joinReap | waitReap => grind [Table.clear]
  | _ => exact Or.inl hs

theorem Step.killed_stays (hst : Step a m a') (hs : a'.phase s = .live)
    (hk : a.killed s = true) : a'.killed s = true := by
  cases hst with
  | kill =>
    simp only [update_apply]
    grind
  | mark => simp [hk]
  | joinReap | waitReap => grind [Table.clear]
  | _ => exact hk

theorem Step.unused (hst : Step a m a') (hs : a'.phase s = .unused) :
    a.phase s = .unused ∨ a'.killed s = false ∨ ∃ t, m = .release t s := by
  cases hst with
  | @release t np =>
    by_cases hnp : s = np
    · exact Or.inr (Or.inr ⟨t, by rw [hnp]⟩)
    · exact Or.inl (by simpa [hnp] using hs)
  | joinReap | waitReap => grind [Table.clear]
  | _ =>
    simp only [update_apply] at hs
    grind

theorem Step.embryo (hinv : Inv a) (hst : Step a m a') (hs : a'.phase s = .embryo) :
    a.phase s = .embryo ∧ a'.pid s = a.pid s ∨
      a.phase s = .unused ∧ a'.pid s = a.nextpid ∧ a'.nextpid = a.nextpid + 1 := by
  have hlive := hinv.job_live
  have hof := @Inv.leader_of _ _ _ _ hinv
  cases hst with
  | joinReap | waitReap => grind [Table.clear]
  | @swap t L hj hL =>
    have ht := hinv.job_live t (by simp [hj])
    obtain ⟨M, hM, hpub, -⟩ := hinv.leader t (Or.inl ht)
    cases hL.symm.trans hM
    simp only [update_apply]
    grind [Table.Published]
  | _ =>
    simp only [update_apply] at hs ⊢
    grind

theorem Step.live (hinv : Inv a) (hst : Step a m a') (hs : a'.phase s = .live) :
    a.phase s = .live ∧ a'.tgid s = a.tgid s ∧ a'.process s = a.process s ∨
      ∃ t kd, m = .publish t s kd ∧ a.job t = .build kd .rooted s ∧
        a'.tgid s = a.tgid s ∧ a'.process s = a.process s := by
  have hbuild := hinv.build_embryo
  cases hst with
  | joinReap | waitReap => grind [Table.clear]
  | _ =>
    simp only [update_apply] at hs ⊢
    grind

theorem Step.live_stays (hinv : Inv a) (hst : Step a m a') (hs : a.phase s = .live) :
    a'.phase s = .live ∧ a'.tgid s = a.tgid s ∧ a'.process s = a.process s ∨
      ∃ L, m = .exit s L := by
  have hbuild := hinv.build_embryo
  cases hst with
  | @exit t L =>
    by_cases hst : s = t
    · exact Or.inr ⟨L, by rw [hst]⟩
    · exact Or.inl ⟨by simpa [hst] using hs, rfl, rfl⟩
  | joinReap | waitReap => grind [Table.clear]
  | _ =>
    simp only [update_apply]
    grind

theorem Step.zombie (hinv : Inv a) (hst : Step a m a') (hs : a'.phase s = .zombie) :
    a'.tgid s = a.tgid s ∧ a'.process s = a.process s ∧
      (a.phase s = .zombie ∨ (a.phase s = .live ∧ ∃ L, m = .exit s L) ∨
        ∃ t, m = .stillborn t s ∧ a.phase t = .live ∧ a.tgid s = a.tgid t ∧
          a.process s = a.process t) := by
  have hbuild := hinv.build_embryo
  have hlive := hinv.job_live
  have hclone := hinv.clone_group
  cases hst with
  | @exit t L hj =>
    refine ⟨rfl, rfl, ?_⟩
    by_cases hst : s = t
    · exact Or.inr (Or.inl ⟨hst ▸ hinv.job_live t (by simp [hj]), L, by rw [hst]⟩)
    · exact Or.inl (by simpa [hst] using hs)
  | @stillborn t np hj =>
    refine ⟨rfl, rfl, ?_⟩
    by_cases hnp : s = np
    · subst hnp
      obtain ⟨hprocess, htgid⟩ := hclone t _ s hj nofun
      exact Or.inr (Or.inr ⟨t, rfl, hlive t (by simp [hj]), htgid, hprocess⟩)
    · exact Or.inl (by simpa [hnp] using hs)
  | joinReap | waitReap => grind [Table.clear]
  | _ =>
    simp only [update_apply] at hs ⊢
    grind

theorem Step.nextpid_le (hst : Step a m a') : a.nextpid ≤ a'.nextpid := by
  cases hst with
  | alloc => exact Int.le_add_one le_rfl
  | _ => exact le_rfl

theorem Step.job_exit (hst : Step a m a') (hs : a'.job s = .exit) :
    a.job s = .exit ∨ m = .exitEnter s := by
  cases hst <;> simp only [update_apply, Table.clear] at hs <;> grind

theorem Step.job_stays (hst : Step a m a') (hs : a.job s = .exit) :
    a'.job s = .exit ∨ ∃ L, m = .exit s L := by
  cases hst with
  | @exit t L =>
    by_cases hst : s = t
    · exact Or.inr ⟨L, by rw [hst]⟩
    · exact Or.inl (by simpa [hst] using hs)
  | _ =>
    simp only [update_apply, Table.clear]
    grind

theorem Step.job_exec (hst : Step a m a') {x : Takeover} (hs : a'.job s = .exec x) :
    (∃ y, a.job s = .exec y ∧ (x ≠ .waiting → y ≠ .waiting ∨ m = .alone s)) ∨
      m = .mark s ∧ x = .waiting := by
  cases hst <;> simp only [update_apply, Table.clear] at hs <;> grind

/-- A slot has been given its group: it is alive, or its builder has come that far. -/
def Table.Seated (a : Table ι) (s : ι) : Prop :=
  a.phase s = .live ∨ ∃ t kd st, a.job t = .build kd st s ∧ st ≠ .raw

theorem Inv.phase_of_seated (hinv : Inv a) (hs : a.Seated s) :
    a.phase s = .live ∨ a.phase s = .embryo := by
  rcases hs with hlive | ⟨t, kd, st, hj, -⟩
  · exact Or.inl hlive
  · exact Or.inr (hinv.build_embryo t kd st s hj)

theorem Inv.zombie_of_alone (hinv : Inv a) {t L : ι} {x : Takeover} (hj : a.job t = .exec x)
    (hx : x ≠ .waiting) (hL : a.process t = some L) (hne : L ≠ t) : a.phase L = .zombie := by
  obtain ⟨M, hM, -, hlead, -⟩ := hinv.leader t (Or.inl (hinv.job_live t (by simp [hj])))
  cases hL.symm.trans hM
  exact hinv.exec_alone t x hj hx L hne (hlead.trans hM.symm)

theorem Step.seated (hinv : Inv a) (hst : Step a m a') (hs : a'.Seated s) :
    a.Seated s ∧ a'.tgid s = a.tgid s ∧ a'.process s = a.process s ∧
        (a'.pid s = a.pid s ∨ m = .take s ∧ a'.pid s = a.tgid s) ∨
      ∃ t kd, m = .group t s kd := by
  have hlive := hinv.job_live
  have hbuild := hinv.build_embryo
  have hinj := hinv.build_inj
  cases hst with
  | @groupFork t np hj | @groupClone t np hj =>
    by_cases hnp : s = np
    · exact Or.inr ⟨t, _, by rw [hnp]⟩
    · simp only [update_apply, Table.Seated] at hs ⊢
      grind
  | @swap t L hj hL =>
    have hzombie := hinv.zombie_of_alone hj (by simp) hL
    simp only [update_apply, Table.Seated] at hs ⊢
    grind
  | _ =>
    simp only [update_apply, Table.Seated, Table.clear] at hs ⊢
    grind

theorem Step.seated_stays (hinv : Inv a) (hst : Step a m a') (hs : a.Seated s) :
    a'.Seated s ∨ (∃ L, m = .exit s L) ∨ ∃ t, m = .release t s ∨ m = .stillborn t s := by
  have hlive := hinv.job_live
  have hbuild := hinv.build_embryo
  have hinj := hinv.build_inj
  cases hst with
  | @exit t L hj =>
    by_cases hst : s = t
    · exact Or.inr (Or.inl ⟨L, by rw [hst]⟩)
    · simp only [update_apply, Table.Seated] at hs ⊢
      grind
  | @release t np | @stillborn t np =>
    by_cases hnp : s = np
    · exact Or.inr (Or.inr ⟨t, by simp [hnp]⟩)
    · simp only [update_apply, Table.Seated] at hs ⊢
      grind
  | _ =>
    simp only [update_apply, Table.Seated, Table.clear] at hs ⊢
    grind

theorem Step.joined {t u : ι} {kd : Kind} (hst : Step a (.group t u kd) a') :
    a.job t = .build kd .raw u ∧ a'.job t = .build kd .grouped u ∧ a'.pid = a.pid ∧
      ∀ s, s ≠ u → a'.tgid s = a.tgid s ∧ a'.process s = a.process s := by
  cases hst with
  | groupFork hj | groupClone hj =>
    refine ⟨hj, by simp, rfl, fun s hs => ?_⟩
    simp [hs]

theorem Inv.not_seated_raw (hinv : Inv a) {t u : ι} {kd : Kind} (hj : a.job t = .build kd .raw u) :
    ¬a.Seated u := by
  rintro (hlive | ⟨t', kd', st, hj', hst⟩)
  · simp [hinv.build_embryo t kd .raw u hj] at hlive
  · have htt := hinv.build_inj t t' kd kd' .raw st u hj hj'
    subst htt
    cases hj.symm.trans hj'
    exact hst rfl

theorem Step.taken {t : ι} (hst : Step a (.take t) a') :
    a.job t = .exec .swapping ∧ a'.tgid = a.tgid ∧ a'.process = a.process ∧
      a'.pid = update a.pid t (a.tgid t) := by
  cases hst with
  | take hj => exact ⟨hj, rfl, rfl, rfl⟩

theorem Step.released {t u : ι} (hst : Step a (.release t u) a') : a'.job t = .none := by
  cases hst
  simp

end KThreads.Group
