import KThreads.Buffer.References

/-!
# The buffer cache is transparent

Whatever the threads do with `bread`, `log_write`, `bwrite` and `brelse`: a block has one
buffer at most, `bread` returns what was last written to the block, a buffer is used for
another block only when its contents are on the disk, and the ring of the buffers keeps
all of them.
-/

namespace KThreads.Bcache

open Function (update update_eq_self update_of_ne update_self)
open Log (Data)

variable {τ : Type*}

/-- The buffer that a thread in `bread` has locked. -/
def Pc.opens : Pc → Option Buf
  | .test b _ _ | .fill b _ _ => some b
  | _ => none

/-- What a thread knows of the buffer in its call of `iderw`. -/
def Pc.Facts (s : State τ) : Pc → Prop
  | .fill b _ _ => (s.buf b).valid = false
  | .write b => (s.buf b).valid = true ∧ s.changed b = false
  | _ => True

/-- No buffer for the block is dirty. -/
def State.Clean (s : State τ) (n : ℕ) : Prop :=
  ∀ b, (s.buf b).dev = ROOTDEV → (s.buf b).blockno = n → (s.buf b).dirty = false

/-- What holds of the contents of the buffers. -/
structure Contents (s : State τ) : Prop where
  unique : ∀ b b', (s.buf b).dev = ROOTDEV → (s.buf b').dev = ROOTDEV →
    (s.buf b').blockno = (s.buf b).blockno → b' = b
  facts : ∀ t, (s.pc t).Facts s
  held : ∀ b t, (s.buf b).lock = some t → (s.buf b).valid = true ∨ (s.pc t).opens = some b
  dirty : ∀ b, (s.buf b).dirty = true → (s.buf b).valid = true
  changed : ∀ b, s.changed b = true → (s.buf b).valid = true ∧
    ∃ t, (s.buf b).lock = some t ∧ (s.pc t).opens ≠ some b
  data : ∀ b, (s.buf b).dev = ROOTDEV → (s.buf b).valid = true → s.changed b = false →
    (s.buf b).data = s.latest ROOTDEV (s.buf b).blockno
  disk : ∀ n, s.Clean n → s.disk ROOTDEV n = s.latest ROOTDEV n

theorem update_block_of_ne {f : ℕ → ℕ → Data} {dev dev' n n' : ℕ} {d : Data}
    (h : ¬(dev = dev' ∧ n = n')) : update f dev (update (f dev) n d) dev' n' = f dev' n' := by
  by_cases hdev : dev = dev'
  · subst hdev
    rw [update_self, update_of_ne fun heq => h ⟨rfl, heq.symm⟩]
  · rw [update_of_ne (Ne.symm hdev)]

section

variable [DecidableEq τ] {s s' : State τ} {t : τ} {b : Buf} {c : Pc} {q : Buffer τ}

theorem Contents.of_same (h : Contents s) (hpc : s'.pc = update s.pc t c)
    (hbuf : ∀ b, ∃ n, s'.buf b = { s.buf b with refcnt := n }) (hdisk : s'.disk = s.disk)
    (hlatest : s'.latest = s.latest) (hchanged : s'.changed = s.changed) (hfacts : c.Facts s)
    (hopens : ∀ b, c.opens = some b → (s.pc t).opens = some b)
    (hheld : ∀ b, (s.buf b).lock = some t → (s.buf b).valid = true ∨ c.opens = some b) :
    Contents s' := by
  have hfields : ∀ b, (s'.buf b).valid = (s.buf b).valid ∧ (s'.buf b).dirty = (s.buf b).dirty ∧
      (s'.buf b).dev = (s.buf b).dev ∧ (s'.buf b).blockno = (s.buf b).blockno ∧
      (s'.buf b).lock = (s.buf b).lock ∧ (s'.buf b).data = (s.buf b).data := fun b => by
    obtain ⟨n, hn⟩ := hbuf b
    rw [hn]
    exact ⟨rfl, rfl, rfl, rfl, rfl, rfl⟩
  have hfacts' : ∀ c : Pc, c.Facts s → c.Facts s' := fun c hc => by
    cases c with
    | fill b dev n =>
      rw [Pc.Facts, (hfields b).1]
      exact hc
    | write b =>
      rw [Pc.Facts, (hfields b).1, hchanged]
      exact hc
    | _ => trivial
  refine ⟨fun b b' => ?_, fun u => hfacts' _ ?_, fun b u => ?_, fun b => ?_, fun b => ?_, fun b => ?_,
    fun n hclean => ?_⟩
  · rw [(hfields b).2.2.1, (hfields b').2.2.1, (hfields b).2.2.2.1, (hfields b').2.2.2.1]
    exact h.unique b b'
  · rw [hpc]
    by_cases hut : u = t
    · rw [hut, update_self]
      exact hfacts
    · rw [update_of_ne hut]
      exact h.facts u
  · rw [(hfields b).1, (hfields b).2.2.2.2.1, hpc]
    by_cases hut : u = t
    · rw [hut, update_self]
      exact hheld b
    · rw [update_of_ne hut]
      exact h.held b u
  · rw [(hfields b).1, (hfields b).2.1]
    exact h.dirty b
  · rw [(hfields b).1, (hfields b).2.2.2.2.1, hchanged]
    intro hch
    obtain ⟨hvalid, u, hu, hopen⟩ := h.changed b hch
    refine ⟨hvalid, u, hu, ?_⟩
    rw [hpc]
    by_cases hut : u = t
    · subst hut
      rw [update_self]
      exact fun hc => hopen (hopens b hc)
    · rw [update_of_ne hut]
      exact hopen
  · rw [(hfields b).1, (hfields b).2.2.1, (hfields b).2.2.2.1, (hfields b).2.2.2.2.2, hchanged, hlatest]
    exact h.data b
  · rw [hdisk, hlatest]
    refine h.disk n fun b hdev hn => ?_
    rw [← (hfields b).2.1]
    exact hclean b ((hfields b).2.2.1.trans hdev) ((hfields b).2.2.2.1.trans hn)

theorem Contents.of_owner (h : Contents s) (hpc : s'.pc = update s.pc t c)
    (hbuf : s'.buf = update s.buf b q) (hchanged : ∀ b', b' ≠ b → s'.changed b' = s.changed b')
    (hothers : ∀ u, u ≠ t → (s.pc u).owns ≠ some b)
    (hopens : ∀ b', b' ≠ b → (s.pc t).opens ≠ some b' ∧ c.opens ≠ some b')
    (hunique : q.dev = ROOTDEV → ∀ b', b' ≠ b → (s.buf b').dev = ROOTDEV →
      (s.buf b').blockno ≠ q.blockno)
    (hfacts : c.Facts s')
    (hlock : q.lock = none ∨ q.lock = some t ∧ (q.valid = true ∨ c.opens = some b))
    (hdirty : q.dirty = true → q.valid = true)
    (hchanged' : s'.changed b = true → q.valid = true ∧ q.lock = some t ∧ c.opens ≠ some b)
    (hdata : q.dev = ROOTDEV → q.valid = true → s'.changed b = false →
      q.data = s'.latest ROOTDEV q.blockno)
    (hlatest : ∀ n, q.dev = ROOTDEV ∧ q.blockno = n ∨ s'.latest ROOTDEV n = s.latest ROOTDEV n)
    (hdisk : ∀ n, s'.Clean n → s'.disk ROOTDEV n = s'.latest ROOTDEV n) : Contents s' := by
  have hb : s'.buf b = q := by rw [hbuf, update_self]
  have hne : ∀ b', b' ≠ b → s'.buf b' = s.buf b' := fun b' hb' => by
    rw [hbuf, update_of_ne hb']
  have hpct : s'.pc t = c := by rw [hpc, update_self]
  have hpcu : ∀ u, u ≠ t → s'.pc u = s.pc u := fun u hu => by rw [hpc, update_of_ne hu]
  refine ⟨fun b₁ b₂ h₁ h₂ heq => ?_, fun u => ?_, fun b' u hu => ?_, fun b' hb' => ?_,
    fun b' hb' => ?_, fun b' hdev hvalid hch => ?_, hdisk⟩
  · by_cases hb₁ : b₁ = b
    · by_cases hb₂ : b₂ = b
      · rw [hb₁, hb₂]
      · rw [hb₁, hb] at h₁ heq
        rw [hne b₂ hb₂] at h₂ heq
        exact absurd heq (hunique h₁ b₂ hb₂ h₂)
    · by_cases hb₂ : b₂ = b
      · rw [hb₂, hb] at h₂ heq
        rw [hne b₁ hb₁] at h₁ heq
        exact absurd heq.symm (hunique h₂ b₁ hb₁ h₁)
      · rw [hne b₁ hb₁] at h₁ heq
        rw [hne b₂ hb₂] at h₂ heq
        exact h.unique b₁ b₂ h₁ h₂ heq
  · by_cases hut : u = t
    · rw [hut, hpct]
      exact hfacts
    · have hold := h.facts u
      have howns := hothers u hut
      rw [hpcu u hut]
      cases hc : s.pc u with
      | fill b' dev n =>
        rw [hc] at hold howns
        rw [Pc.Facts, hne b' fun heq => howns (congrArg some heq)]
        exact hold
      | write b' =>
        have hb' : b' ≠ b := fun heq => howns (by rw [hc]; exact congrArg some heq)
        rw [hc] at hold
        rw [Pc.Facts, hne b' hb', hchanged b' hb']
        exact hold
      | _ => trivial
  · by_cases hb' : b' = b
    · rw [hb', hb] at hu ⊢
      rcases hlock with hnone | ⟨hsome, hopen⟩
      · rw [hnone] at hu
        cases hu
      · rw [hsome] at hu
        rw [← Option.some.inj hu, hpct]
        exact hopen
    · rw [hne b' hb'] at hu ⊢
      by_cases hut : u = t
      · subst hut
        exact .inl ((h.held b' u hu).resolve_right (hopens b' hb').1)
      · rw [hpcu u hut]
        exact h.held b' u hu
  · by_cases hbb : b' = b
    · rw [hbb, hb] at hb' ⊢
      exact hdirty hb'
    · rw [hne b' hbb] at hb' ⊢
      exact h.dirty b' hb'
  · by_cases hbb : b' = b
    · subst hbb
      obtain ⟨hvalid, hlock', hopen⟩ := hchanged' hb'
      rw [hb]
      exact ⟨hvalid, t, hlock', hpct ▸ hopen⟩
    · rw [hchanged b' hbb] at hb'
      obtain ⟨hvalid, u, hu, hopen⟩ := h.changed b' hb'
      rw [hne b' hbb]
      refine ⟨hvalid, u, hu, ?_⟩
      by_cases hut : u = t
      · rw [hut, hpct]
        exact (hopens b' hbb).2
      · rw [hpcu u hut]
        exact hopen
  · by_cases hbb : b' = b
    · subst hbb
      rw [hb] at hdev hvalid ⊢
      exact hdata hdev hvalid hch
    · rw [hne b' hbb] at hdev hvalid ⊢
      rw [hchanged b' hbb] at hch
      rcases hlatest (s.buf b').blockno with ⟨hq, hn⟩ | hsame
      · exact absurd hn.symm (hunique hq b' hbb hdev)
      · rw [hsame]
        exact h.data b' hdev hvalid hch

omit [DecidableEq τ] in
theorem Contents.disk_of_same (h : Contents s) (hdisk : s'.disk = s.disk)
    (hlatest : s'.latest = s.latest) (hbuf : s'.buf = update s.buf b q)
    (hq : q.dirty = (s.buf b).dirty ∧ q.dev = (s.buf b).dev ∧ q.blockno = (s.buf b).blockno ∨
      (s.buf b).dirty = false) :
    ∀ n, s'.Clean n → s'.disk ROOTDEV n = s'.latest ROOTDEV n := by
  intro n hclean
  rw [hdisk, hlatest]
  refine h.disk n fun b' hdev hn => ?_
  by_cases hb' : b' = b
  · subst hb'
    rcases hq with ⟨hdirty, hdev', hn'⟩ | hdirty
    · have hclean' := hclean b'
      rw [hbuf, update_self, hdirty, hdev', hn'] at hclean'
      exact hclean' hdev hn
    · exact hdirty
  · have hclean' := hclean b'
    rw [hbuf, update_of_ne hb'] at hclean'
    exact hclean' hdev hn

omit [DecidableEq τ] in
theorem Contents.other_blocks (h : Contents s) (hdev : q.dev = (s.buf b).dev)
    (hblockno : q.blockno = (s.buf b).blockno) : q.dev = ROOTDEV → ∀ b', b' ≠ b →
      (s.buf b').dev = ROOTDEV → (s.buf b').blockno ≠ q.blockno := by
  intro hq b' hb' hb'dev heq
  exact hb' (h.unique b b' (hdev ▸ hq) hb'dev (heq.trans hblockno))

variable [Fintype τ]

omit [DecidableEq τ] in
theorem Refs.only (h : Refs s) (hlock : (s.buf b).lock = some t) :
    ∀ u, u ≠ t → (s.pc u).owns ≠ some b := by
  intro u hu howns
  have hsame := h.owned u b howns
  rw [hlock] at hsame
  exact hu (Option.some.inj hsame).symm

theorem Contents.recycle {dev n : ℕ} (hr : Refs s) (h : Contents s) (hpc : s.pc t = .user)
    (hnone : ∀ b, s.holds dev n b = false) (hb : s.unused b = true) :
    Contents ((s.set b { s.buf b with
      valid := false, dirty := false, dev := dev, blockno := n, refcnt := 1 }).goto t
        (.lock b dev n)) := by
  simp only [State.unused, Bool.and_eq_true, decide_eq_true_eq, Bool.not_eq_true'] at hb
  obtain ⟨hfree, hnobody⟩ := hr.free hb.1
  refine h.of_owner rfl rfl (fun _ _ => rfl) (fun u _ => (hnobody u).1) (fun _ _ => by simp [hpc, Pc.opens])
    (fun hdev b' _ hb'dev heq => ?_) trivial (.inl hfree) (by simp) (fun hch => ?_) (by simp)
    (fun _ => .inr rfl) (h.disk_of_same rfl rfl rfl (.inr hb.2))
  · have hb' := hnone b'
    simp only at hdev
    simp [State.holds, hb'dev, hdev, heq] at hb'
  · obtain ⟨-, u, hu, -⟩ := h.changed b hch
    simp [hfree] at hu

theorem Contents.fill {dev n : ℕ} (hr : Refs s) (h : Contents s) (hpc : s.pc t = .fill b dev n) :
    Contents ((s.iderw b).goto t .user) := by
  have hlock := hr.owned t b (by rw [hpc]; rfl)
  have hinvalid : (s.buf b).valid = false := by
    have hfacts := h.facts t
    rw [hpc] at hfacts
    exact hfacts
  have hclean : (s.buf b).dirty = false := by
    by_contra hdirty
    simp [h.dirty b (by simpa using hdirty)] at hinvalid
  have hunchanged : s.changed b = false := by
    by_contra hch
    simp [(h.changed b (by simpa using hch)).1] at hinvalid
  have hiderw : s.iderw b =
      s.set b { s.buf b with valid := true, data := s.disk (s.buf b).dev (s.buf b).blockno } := by
    simp [State.iderw, State.set, hclean]
  rw [hiderw]
  refine h.of_owner rfl rfl (fun _ _ => rfl) (hr.only hlock)
    (fun b' hb' => by simp [hpc, Pc.opens, hb'.symm]) (h.other_blocks rfl rfl) trivial
    (.inr ⟨hlock, .inl rfl⟩) (fun _ => rfl) (fun hch => ?_) (fun hdev _ _ => ?_) (fun _ => .inr rfl)
    (h.disk_of_same rfl rfl rfl (.inl ⟨rfl, rfl, rfl⟩))
  · simp [State.goto, State.set, hunchanged] at hch
  · -- No other buffer has the block, and this one is not dirty.
    simp only at hdev
    simp only [hdev]
    refine h.disk _ fun b' hb'dev heq => ?_
    rw [h.unique b b' hdev hb'dev heq]
    exact hclean

theorem Contents.written (hr : Refs s) (h : Contents s) (hpc : s.pc t = .write b)
    (hwork : ¬((s.buf b).valid = true ∧ (s.buf b).dirty = false)) :
    Contents ((s.iderw b).goto t .user) := by
  have hlock := hr.owned t b (by rw [hpc]; rfl)
  obtain ⟨hvalid, hunchanged⟩ : (s.buf b).valid = true ∧ s.changed b = false := by
    have hfacts := h.facts t
    rw [hpc] at hfacts
    exact hfacts
  have hdirty : (s.buf b).dirty = true := by simpa [hvalid] using hwork
  have hiderw : s.iderw b =
      { s.set b { s.buf b with valid := true, dirty := false } with
        disk := update s.disk (s.buf b).dev
          (update (s.disk (s.buf b).dev) (s.buf b).blockno (s.buf b).data) } := by
    simp [State.iderw, State.set, hdirty]
  rw [hiderw]
  refine h.of_owner rfl rfl (fun _ _ => rfl) (hr.only hlock) (fun _ _ => by simp [hpc, Pc.opens])
    (h.other_blocks rfl rfl) trivial (.inr ⟨hlock, .inl rfl⟩) (by simp) (fun hch => ?_)
    (fun hdev _ _ => h.data b hdev hvalid hunchanged) (fun _ => .inr rfl) fun n hclean => ?_
  · simp [State.goto, State.set, hunchanged] at hch
  · by_cases hkey : (s.buf b).dev = ROOTDEV ∧ (s.buf b).blockno = n
    · obtain ⟨hdev, rfl⟩ := hkey
      simp only [State.goto, State.set, hdev, update_self]
      exact h.data b hdev hvalid hunchanged
    · refine (update_block_of_ne hkey).trans (h.disk n fun b' hb'dev hn => ?_)
      have hb' : b' ≠ b := by
        rintro rfl
        exact hkey ⟨hb'dev, hn⟩
      have hclean' := hclean b'
      simp only [State.goto, State.set, update_of_ne hb'] at hclean'
      exact hclean' hb'dev hn

theorem Contents.commit (hr : Refs s) (h : Contents s) (hpc : s.pc t = .user)
    (hlock : (s.buf b).lock = some t) (hc : c = .user ∨ c = .write b) :
    Contents ((s.commit b).goto t c) := by
  have hopens : ∀ b', (s.pc t).opens ≠ some b' := fun b' => by simp [hpc, Pc.opens]
  have hcopens : ∀ b', c.opens ≠ some b' := fun b' => by rcases hc with rfl | rfl <;> nofun
  have hvalid : (s.buf b).valid = true := (h.held b t hlock).resolve_right (hopens b)
  refine h.of_owner rfl rfl (fun b' hb' => ?_) (hr.only hlock) (fun b' _ => ⟨hopens b', hcopens b'⟩)
    (h.other_blocks rfl rfl) ?_ (.inr ⟨hlock, .inl hvalid⟩) (fun _ => hvalid) (fun hch => ?_)
    (fun hdev _ _ => ?_) (fun n => ?_) fun n hclean => ?_
  · simp [State.commit, State.goto, hb']
  · rcases hc with rfl | rfl
    · trivial
    · simp [Pc.Facts, State.commit, State.goto, State.set, hvalid]
  · simp [State.commit, State.goto] at hch
  · simp only at hdev
    simp [State.commit, State.goto, hdev]
  · by_cases hkey : (s.buf b).dev = ROOTDEV ∧ (s.buf b).blockno = n
    · exact .inl hkey
    · exact .inr (update_block_of_ne hkey)
  · -- The block of the buffer is not clean.
    have hkey : ¬((s.buf b).dev = ROOTDEV ∧ (s.buf b).blockno = n) := by
      rintro ⟨hdev, hn⟩
      have hclean' := hclean b
      simp [State.commit, State.goto, State.set, hdev, hn] at hclean'
    refine Eq.trans ?_ (update_block_of_ne hkey).symm
    refine h.disk n fun b' hb'dev hn => ?_
    have hb' : b' ≠ b := by
      rintro rfl
      exact hkey ⟨hb'dev, hn⟩
    have hclean' := hclean b'
    simp only [State.commit, State.goto, State.set, update_of_ne hb'] at hclean'
    exact hclean' hb'dev hn

omit [Fintype τ] [DecidableEq τ] in
theorem State.set_refcnt (s : State τ) (b : Buf) (n : ℕ) (b' : Buf) :
    ∃ m, (s.set b { s.buf b with refcnt := n }).buf b' = { s.buf b' with refcnt := m } := by
  by_cases hb' : b' = b
  · subst hb'
    exact ⟨n, by simp [set]⟩
  · exact ⟨(s.buf b').refcnt, by simp [set, hb']⟩

theorem Contents.step (hr : Refs s) (h : Contents s) (hstep : Step s s') : Contents s' := by
  cases hstep with
  | panic => exact ⟨h.unique, h.facts, h.held, h.dirty, h.changed, h.data, h.disk⟩
  | @hit t b dev n hpc hb =>
    refine h.of_same rfl (s.set_refcnt b _) rfl rfl rfl trivial nofun fun b' hb' => ?_
    simpa [hpc, Pc.opens] using h.held b' t hb'
  | @recycle t b dev n hpc hnone hb => exact .recycle hr h hpc hnone hb
  | @lock t b dev n hpc hfree =>
    refine h.of_owner rfl rfl (fun _ _ => rfl) (fun u _ howns => ?_)
      (fun b' hb' => by simp [hpc, Pc.opens, hb'.symm]) (h.other_blocks rfl rfl) trivial (.inr ⟨rfl, .inr rfl⟩)
      (h.dirty b) (fun hch => ?_) (h.data b) (fun _ => .inr rfl)
      (h.disk_of_same rfl rfl rfl (.inl ⟨rfl, rfl, rfl⟩))
    · have hlock := hr.owned u b howns
      rw [hfree] at hlock
      cases hlock
    · obtain ⟨-, u, hu, -⟩ := h.changed b hch
      simp [hfree] at hu
  | @test t b dev n hpc hvalid =>
    refine h.of_same rfl (fun _ => ⟨_, rfl⟩) rfl rfl rfl trivial nofun fun b' hb' => ?_
    rcases h.held b' t hb' with hvalid' | hopens
    · exact .inl hvalid'
    · rw [hpc] at hopens
      cases hopens
      exact .inl hvalid
  | @miss t b dev n hpc hvalid =>
    refine h.of_same rfl (fun _ => ⟨_, rfl⟩) rfl rfl rfl hvalid (fun b' hb' => by rw [hpc]; exact hb')
      fun b' hb' => ?_
    have hheld := h.held b' t hb'
    rw [hpc] at hheld
    exact hheld
  | @fill t b dev n hpc => exact .fill hr h hpc
  | @written t b hpc hwork => exact .written hr h hpc hwork
  | @unref t b hpc =>
    refine h.of_same rfl (s.set_refcnt b _) rfl rfl rfl trivial nofun fun b' hb' => ?_
    simpa [hpc, Pc.opens] using h.held b' t hb'
  | @modify t b d hpc hlock =>
    have hopens : ∀ b', (s.pc t).opens ≠ some b' := fun b' => by simp [hpc, Pc.opens]
    have hvalid : (s.buf b).valid = true := (h.held b t hlock).resolve_right (hopens b)
    refine h.of_owner (t := t) (c := .user) ?_ rfl (fun b' hb' => ?_) (hr.only hlock)
      (fun b' _ => ⟨hopens b', by simp [Pc.opens]⟩) (h.other_blocks rfl rfl) trivial (.inr ⟨hlock, .inl hvalid⟩)
      (fun _ => hvalid) (fun _ => ⟨hvalid, hlock, nofun⟩) (fun _ _ hch => ?_) (fun _ => .inr rfl)
      (h.disk_of_same rfl rfl rfl (.inl ⟨rfl, rfl, rfl⟩))
    · rw [← hpc, update_eq_self]
      rfl
    · simp [hb']
    · simp at hch
  | @logWrite t b hpc hlock =>
    have hsame : (s.commit b).goto t .user = s.commit b := by
      rw [State.goto, ← hpc]
      exact congrArg (fun pc => { s.commit b with pc }) (update_eq_self t s.pc)
    exact hsame ▸ .commit hr h hpc hlock (.inl rfl)
  | @bwrite t b hpc hlock => exact .commit hr h hpc hlock (.inr rfl)
  | @brelse t b hpc hlock hchanged =>
    refine h.of_owner rfl rfl (fun _ _ => rfl) (hr.only hlock) (fun _ _ => by simp [hpc, Pc.opens])
      (h.other_blocks rfl rfl) trivial (.inl rfl) (h.dirty b) (fun hch => ?_) (h.data b)
      (fun _ => .inr rfl) (h.disk_of_same rfl rfl rfl (.inl ⟨rfl, rfl, rfl⟩))
    simp [State.goto, State.set, hchanged] at hch

end

theorem State.start_contents (disk : ℕ → ℕ → Data) : Contents (State.start (τ := τ) disk) where
  unique _ _ hdev := by cases hdev
  facts _ := trivial
  held _ _ hlock := by cases hlock
  dirty _ hdirty := by cases hdirty
  changed _ hch := by cases hch
  data _ hdev := by cases hdev
  disk _ _ := rfl

end KThreads.Bcache

namespace KThreads.Bcache

open Transition (Reach anyStep)
open Log (Data)

variable {τ : Type*} [DecidableEq τ] [Fintype τ] {disk : ℕ → ℕ → Data} {s s' : State τ} {t : τ}
  {b : Buf} {n : ℕ}

theorem inv_of_reach (h : Reach (machine τ disk) anyStep s) :
    Ringed s.links ∧ Refs s ∧ Contents s := by
  refine h.invariant (P := fun s => Ringed s.links ∧ Refs s ∧ Contents s) ?_
    fun s l s' _ hs _ hnext => ?_
  · rintro s rfl
    exact ⟨ringed_binit, State.start_refs disk, State.start_contents disk⟩
  · obtain ⟨hring, hr, hc⟩ := hs
    have hstep := step_of_next hring hnext
    exact ⟨hstep.ringed hring, hr.step hstep, hc.step hr hstep⟩

omit [DecidableEq τ] in
theorem data_of_open (hr : Refs s) (hc : Contents s) (hblock : (s.pc t).block = some (b, ROOTDEV, n))
    (hopens : (s.pc t).opens = some b) (hlock : (s.buf b).lock = some t)
    (hvalid : (s.buf b).valid = true) : (s.buf b).data = s.latest ROOTDEV n := by
  obtain ⟨hdev, rfl⟩ := hr.named t b ROOTDEV n hblock
  refine hc.data b hdev hvalid ?_
  by_contra hch
  obtain ⟨-, u, hu, hopen⟩ := hc.changed b (by simpa using hch)
  rw [hlock] at hu
  exact hopen (Option.some.inj hu ▸ hopens)

theorem bread_returns (hr : Refs s) (hc : Contents s) (hnext : s.next (.step t) = some s')
    (hblock : (s.pc t).block = some (b, ROOTDEV, n)) (huser : s'.pc t = .user)
    (hrun : s'.panicked = false) :
    (s'.buf b).dev = ROOTDEV ∧ (s'.buf b).blockno = n ∧ (s'.buf b).lock = some t ∧
      (s'.buf b).data = s'.latest ROOTDEV n := by
  have hkey := hr.named t b ROOTDEV n hblock
  obtain ⟨-, hstep⟩ := Option.ite_none_right_eq_some.mp hnext
  cases hpc : s.pc t with
  | user | write b' | unref b' => simp [hpc, Pc.block] at hblock
  | lock b' dev n' =>
    rw [hpc] at hstep
    obtain ⟨-, h⟩ := Option.ite_none_right_eq_some.mp hstep
    cases h
    simp [State.goto] at huser
  | test b' dev n' =>
    have hblock' := hblock
    rw [hpc] at hstep hblock'
    cases hblock'
    cases hstep
    have hvalid : (s.buf b).valid = true := by
      by_contra hinvalid
      simp [State.goto, hinvalid] at huser
    have hlock := hr.owned t b (by rw [hpc]; rfl)
    have hdata := data_of_open hr hc hblock (by rw [hpc]; rfl) hlock hvalid
    exact ⟨hkey.1, hkey.2, hlock, hdata⟩
  | fill b' dev n' =>
    have hblock' := hblock
    rw [hpc] at hstep hblock'
    cases hblock'
    have hlock := hr.owned t b (by rw [hpc]; rfl)
    have hinvalid : (s.buf b).valid = false := by
      have hfacts := hc.facts t
      rw [hpc] at hfacts
      exact hfacts
    have hunchanged : s.changed b = false := by
      by_contra hch
      simp [(hc.changed b (by simpa using hch)).1] at hinvalid
    cases hstep
    split at hrun
    · cases hrun
    · next hwork =>
      have hc' := hc.fill hr hpc
      have hsame := s.iderw_same b b
      rw [if_neg hwork]
      have hvalid' : (((s.iderw b).goto t .user).buf b).valid = true := by
        simp only [State.goto, State.iderw, State.set, Function.update_self]
        split <;> rfl
      have hdev' : (((s.iderw b).goto t .user).buf b).dev = ROOTDEV := hsame.2.2.1.trans hkey.1
      have hn' : (((s.iderw b).goto t .user).buf b).blockno = n := hsame.2.2.2.trans hkey.2
      refine ⟨hdev', hn', hsame.2.1.trans hlock, ?_⟩
      rw [← hn']
      exact hc'.data b hdev' hvalid' hunchanged

omit [Fintype τ] in
theorem Step.recycled (hstep : Step s s')
    (hb : ¬((s'.buf b).dev = (s.buf b).dev ∧ (s'.buf b).blockno = (s.buf b).blockno)) :
    s.unused b = true := by
  cases hstep with
  | @recycle t b' dev n hpc hnone hunused =>
    by_cases hbb : b = b'
    · rw [hbb]
      exact hunused
    · simp [State.goto, State.set, hbb] at hb
  | @hit t b' | @lock t b' | @unref t b' | @modify t b' | @brelse t b' =>
    by_cases hbb : b = b'
    · simp [State.goto, State.set, State.unref, hbb] at hb
    · simp [State.goto, State.set, State.unref, hbb] at hb
  | @fill t b' | @written t b' => exact absurd (s.iderw_same b' b).2.2 hb
  | @logWrite t b' | @bwrite t b' => exact absurd (s.commit_same b' b).2.2 hb
  | _ => exact absurd ⟨rfl, rfl⟩ hb

omit [Fintype τ] in
theorem bget_total (hring : Ringed s.links) (t : τ) (dev n : ℕ) :
    ∃ s', s.bget t dev n = some s' ∧ (s'.panicked = s.panicked ∨ ∀ b, s.unused b = false) := by
  rw [State.bget]
  rcases findCached_eq hring dev n with ⟨b, hfind, -⟩ | ⟨hfind, -⟩
  · rw [hfind]
    exact ⟨_, rfl, .inl rfl⟩
  · rw [hfind]
    rcases findUnused_eq hring with ⟨b, hfree, -⟩ | ⟨hfree, hnone⟩
    · rw [hfree]
      exact ⟨_, rfl, .inl rfl⟩
    · rw [hfree]
      exact ⟨_, rfl, .inr hnone⟩

/-- **The buffer cache** is transparent for the blocks of the root device. In every state of
every run: a block has one buffer at most; when `bread` returns, its buffer is locked and
holds what was last written to the block with `log_write` or `bwrite`, or what was on the disk;
a buffer that is given another block is not dirty, and what was last written to its block is on
the disk; the ring contains every buffer once; and `bget` finds a buffer unless all of them
are in use. -/
theorem bcache_transparent (τ : Type*) [DecidableEq τ] [Fintype τ] (disk : ℕ → ℕ → Data)
    (s : State τ) (h : Reach (machine τ disk) anyStep s) :
    (∀ b b', (s.buf b).dev = ROOTDEV → (s.buf b').dev = ROOTDEV →
      (s.buf b').blockno = (s.buf b).blockno → b' = b) ∧
    (∀ t s' b n, s.next (.step t) = some s' → (s.pc t).block = some (b, ROOTDEV, n) →
      s'.pc t = .user → s'.panicked = false →
      (s'.buf b).dev = ROOTDEV ∧ (s'.buf b).blockno = n ∧ (s'.buf b).lock = some t ∧
        (s'.buf b).data = s'.latest ROOTDEV n) ∧
    (∀ l s' b, s.next l = some s' → (s.buf b).dev = ROOTDEV →
      ¬((s'.buf b).dev = (s.buf b).dev ∧ (s'.buf b).blockno = (s.buf b).blockno) →
      (s.buf b).dirty = false ∧
        s.disk ROOTDEV (s.buf b).blockno = s.latest ROOTDEV (s.buf b).blockno) ∧
    Ringed s.links ∧
    ∀ t dev n, s.panicked = false → s.pc t = .user → ∃ s', s.next (.bread t dev n) = some s' ∧
      (s'.panicked = false ∨ ∀ b, s.unused b = false) := by
  obtain ⟨hring, hr, hc⟩ := inv_of_reach h
  refine ⟨hc.unique, fun t s' b n hnext => bread_returns hr hc hnext, fun l s' b hnext hdev hb => ?_,
    hring, fun t dev n hrun hpc => ?_⟩
  · have hunused := (step_of_next hring hnext).recycled hb
    simp only [State.unused, Bool.and_eq_true, Bool.not_eq_true'] at hunused
    refine ⟨hunused.2, hc.disk _ fun b' hb'dev heq => ?_⟩
    rw [hc.unique b b' hdev hb'dev heq]
    exact hunused.2
  · obtain ⟨s', hs', hpanicked⟩ := bget_total hring t dev n
    refine ⟨s', ?_, hpanicked.imp_left fun heq => heq.trans hrun⟩
    rw [State.next, if_pos ⟨hrun, hpc⟩]
    exact hs'

omit [Fintype τ] in
theorem machine_step (disk : ℕ → ℕ → Data) (s : State τ) (l : Label τ) (s' : State τ)
    (h : s.next l = some s') : (machine τ disk).step s l s' := h

/-- The buffer that `bget` recycles first. -/
def oldest : Buf := ⟨0, by decide⟩

set_option maxRecDepth 8000 in
/-- One thread changes a block with `log_write` and gives the buffer back; another one reads
the block. -/
theorem bcache_transparent_two : ∃ s s' : State (Fin 2),
    Reach (machine (Fin 2) fun _ _ _ => 0) anyStep s ∧ s.next (.step 1) = some s' ∧
      s'.pc 1 = .user ∧ s'.disk ROOTDEV 5 0 = 0 ∧ s'.latest ROOTDEV 5 0 = 7 ∧
      (s'.buf oldest).data = s'.latest ROOTDEV 5 := by
  obtain ⟨s, -, hr, hblock, hany⟩ := Reach.exists_of_exec (machine_step fun _ _ _ => 0) rfl
    [.bread 0 ROOTDEV 5, .step 0, .step 0, .step 0, .modify 0 oldest fun _ => 7,
      .logWrite 0 oldest, .bread 1 ROOTDEV 5, .brelse 0 oldest, .step 1, .step 0]
    (fun s : State (Fin 2) => (s.pc 1).block = some (oldest, ROOTDEV, 5) ∧
      (s.next (.step 1)).any fun s' => decide (s'.pc 1 = .user ∧ s'.panicked = false ∧
        s'.disk ROOTDEV 5 0 = 0 ∧ s'.latest ROOTDEV 5 0 = 7)) (by decide)
  obtain ⟨s', hs', hobs⟩ := (Option.any_eq_true _ _).mp hany
  obtain ⟨huser, hrun, hdisk, hlatest⟩ := of_decide_eq_true hobs
  refine ⟨s, s', hr, hs', huser, hdisk, hlatest, ?_⟩
  exact ((bcache_transparent (Fin 2) _ s hr).2.1 1 s' oldest 5 hs' hblock huser hrun).2.2.2

end KThreads.Bcache
