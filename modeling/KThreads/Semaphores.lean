import KThreads.Semaphore.Calls

/-!
# Semaphores do not lose permits

As long as no thread is killed, no more calls of `sem_down` return than there are
permits, the queue holds those who wait in the order of their arrival, and a thread
that has been taken from the queue does not stay asleep. A thread that is killed
while it waits leaves its pid in the queue, and a later `sem_up` hands its permit to
a thread that is gone.
-/

namespace KThreads.Sem

open Function (update update_of_ne update_self)
open Transition (Reach anyStep)

/-- The thread holds the guard. -/
def Pc.critical : Pc → Bool
  | .downDec | .downEnq | .downUnlock | .downRelease | .upInc | .upDeq | .upUnpark _
  | .upRelease => true
  | .user | .downAcquire | .upAcquire | .downPark | .downParked => false

/-- What the count is ahead of the queue. -/
def Pc.ahead : Pc → ℤ
  | .downEnq => -1
  | .upDeq | .upUnpark _ => 1
  | _ => 0

/-- The pid that has been taken from the queue and not been handed a permit. -/
def Pc.dequeued : Pc → List ℕ
  | .upUnpark p => [p]
  | _ => []

/-- The thread is in `sem_down` and has been entered in the queue. -/
def Pc.waits : Pc → Prop
  | .downUnlock | .downPark | .downParked => True
  | _ => False

/-- The count and the queue, up to what the holder of the guard is about to do. -/
structure Locked (s : Shared) (pc : Pc) : Prop where
  queue : s.waitq.WellFormed
  contents : pc.dequeued ++ s.waitq.contents = s.spec.waiting
  count : s.count = s.spec.permits - s.spec.waiting.length + pc.ahead
  ups : (s.ups : ℤ) = s.spec.posted + max 0 pc.ahead
  up : pc.ahead = 1 → s.count ≤ 0
  down : pc.ahead = -1 → s.count < 0

/-- A thread waits or has a permit as its place in `sem_down` says, and its slot
agrees. -/
def Standing (s : Shared) (t : ℕ) : Pc → Prop
  | .downUnlock => t ∈ s.spec.waiting ∧ s.parking t = .clear
  | .downPark =>
      t ∈ s.spec.waiting ∧ s.parking t = .clear ∨ t ∈ s.spec.granted ∧ s.parking t = ⟨true, false⟩
  | .downParked =>
      t ∈ s.spec.waiting ∧ (s.parking t).lostwakeup = false ∧
          ((s.parking t).asleep = true ∨ s.killed t = true) ∨
        t ∈ s.spec.granted ∧ (s.parking t).asleep = false ∧
          ((s.parking t).lostwakeup = false ∨ s.killed t = true)
  | .downRelease => t ∈ s.spec.granted ∧ s.parking t = .clear
  | _ => t ∉ s.spec.waiting ∧ t ∉ s.spec.granted ∧ s.parking t = .clear

/-- The assertion of a thread. -/
structure Local (s : Shared) (t : ℕ) (pc : Pc) : Prop where
  holder : pc.critical = true ↔ s.guard = some t
  locked : pc.critical = true → Locked s pc
  standing : Standing s t pc
  alive : pc.ahead = 1 → t ∈ s.live
  unborn : s.nextpid ≤ t → pc = .user

/-- What holds of the shared state. -/
structure Global (n : ℕ) (s : Shared) : Prop where
  spec : Reach (Semaphore.system ℕ n) anyStep s.spec
  free : s.guard = none → Locked s .user
  waiting : ∀ p ∈ s.spec.waiting, p ∈ s.live
  slots : s.live.card + s.zombies.card ≤ NPROC
  fresh : ∀ p ∈ s.live, p < s.nextpid

/-- A thread that exits does not wait, is not about to be handed a permit, and is
not about to hand one. -/
def exitsOutside (c : Process) (l : ℕ × Event) : Prop :=
  match l.2 with
  | .exit =>
      l.1 ∉ c.shared.waitq.contents ∧ (∀ u ∈ c.shared.live, c.loc u ≠ .upUnpark l.1) ∧
        (c.loc l.1).ahead ≠ 1
  | _ => True

instance (c : Process) (l : ℕ × Event) : Decidable (exitsOutside c l) := by
  unfold exitsOutside
  split <;> infer_instance

/-- No thread is killed. -/
def noKill (_c : Process) (l : ℕ × Event) : Prop :=
  match l.2 with
  | .kill _ => False
  | _ => True

instance (c : Process) (l : ℕ × Event) : Decidable (noKill c l) := by
  unfold noKill
  split <;> infer_instance

variable {n : ℕ} {s s' : Shared} {t u : ℕ} {pc pc' : Pc}

theorem Locked.congr (h : Locked s pc) (hq : s'.waitq = s.waitq) (hc : s'.count = s.count)
    (hu : s'.ups = s.ups) (hpermits : s'.spec.permits = s.spec.permits)
    (hwaiting : s'.spec.waiting = s.spec.waiting) (hposted : s'.spec.posted = s.spec.posted) :
    Locked s' pc := by
  obtain ⟨h1, h2, h3, h4, h5, h6⟩ := h
  constructor <;> simp_all

theorem Locked.of_pc (h : Locked s pc) (ha : pc'.ahead = pc.ahead)
    (hd : pc'.dequeued = pc.dequeued) : Locked s pc' := by
  obtain ⟨h1, h2, h3, h4, h5, h6⟩ := h
  exact ⟨h1, by rw [hd, h2], by rw [ha, h3], by rw [ha, h4], by rwa [ha], by rwa [ha]⟩

/-- Steps of other threads that leave the assertion of `u` as it is. -/
structure Spares (s s' : Shared) (u : ℕ) : Prop where
  guard : s'.guard = some u ↔ s.guard = some u
  locked : s.guard = some u → ∀ pc, Locked s pc → Locked s' pc
  waiting : u ∈ s'.spec.waiting ↔ u ∈ s.spec.waiting
  granted : u ∈ s'.spec.granted ↔ u ∈ s.spec.granted
  parking : s'.parking u = s.parking u
  killed : s'.killed u = s.killed u
  live : u ∈ s.live → u ∈ s'.live
  nextpid : s.nextpid ≤ s'.nextpid

theorem Standing.congr (h : Standing s u pc) (hw : u ∈ s'.spec.waiting ↔ u ∈ s.spec.waiting)
    (hg : u ∈ s'.spec.granted ↔ u ∈ s.spec.granted) (hp : s'.parking u = s.parking u)
    (hk : s'.killed u = s.killed u) : Standing s' u pc := by
  cases pc <;> simpa only [Standing, hw, hg, hp, hk] using h

theorem Local.spare (h : Local s u pc) (hs : Spares s s' u) : Local s' u pc where
  holder := h.holder.trans hs.guard.symm
  locked hcrit := hs.locked (h.holder.mp hcrit) pc (h.locked hcrit)
  standing := h.standing.congr hs.waiting hs.granted hs.parking hs.killed
  alive ha := hs.live (h.alive ha)
  unborn hu := h.unborn (hs.nextpid.trans hu)

theorem Local.spare_holder (h : Local s u pc) (ht : s.guard = some t) (hu : u ≠ t)
    (hguard : s'.guard = some t ∨ s'.guard = none)
    (hw : u ∈ s'.spec.waiting ↔ u ∈ s.spec.waiting)
    (hg : u ∈ s'.spec.granted ↔ u ∈ s.spec.granted) (hpark : s'.parking u = s.parking u)
    (hkilled : s'.killed = s.killed) (hlive : s'.live = s.live)
    (hnext : s'.nextpid = s.nextpid) : Local s' u pc := by
  refine h.spare ⟨?_, ?_, hw, hg, hpark, by rw [hkilled], hlive ▸ id, hnext.ge⟩
  · rcases hguard with h | h <;> simp [h, ht, hu.symm]
  · simp [ht, hu.symm]

/-- What a step of the thread `t` in its call establishes. -/
structure Keeps (n : ℕ) (s s' : Shared) (t : ℕ) (pc' : Pc) : Prop where
  shared : Global n s'
  own : Local s' t pc'
  others : ∀ u, u ≠ t → ∀ pc, Local s u pc → Local s' u pc

theorem Keeps.trans {s₁ : Shared} {pc₁ : Pc} (h : Keeps n s s₁ t pc₁) (h' : Keeps n s₁ s' t pc') :
    Keeps n s s' t pc' :=
  ⟨h'.shared, h'.own, fun u hu pc hlocal => h'.others u hu pc (h.others u hu pc hlocal)⟩

theorem Global.born (hG : Global n s) (ht : t ∈ s.live) (hn : s.nextpid ≤ t) : pc = .user :=
  absurd (hG.fresh t ht) (not_lt.mpr hn)

theorem Global.fair (hG : Global n s) : s.spec.Fair n := Semaphore.fair hG.spec

theorem Global.queue_lt (hG : Global n s) (hq : s.waitq.WellFormed)
    (hcontents : s.waitq.contents = s.spec.waiting) : s.waitq.count < QMAX := by
  have hnodup := (List.nodup_append.mp hG.fair.nodup).1
  have hsub : s.spec.waiting.toFinset ⊆ s.live := fun p hp =>
    hG.waiting p (List.mem_toFinset.mp hp)
  have hcard := Finset.card_le_card hsub
  rw [List.toFinset_card_of_nodup hnodup, ← hcontents, Queue.length_contents] at hcard
  have hslots := hG.slots
  have hnonneg := hq.nonneg
  have hlt : NPROC < QMAX := by decide
  omega

theorem Locked.contents_ne_nil (h : Locked s pc) (ha : pc = .upDeq) : s.waitq.contents ≠ [] := by
  subst ha
  obtain ⟨-, hcontents, hcount, -, hup, -⟩ := h
  intro hempty
  have hnil : s.spec.waiting = [] := by rw [← hcontents, hempty]; rfl
  have hle := hup rfl
  simp only [hnil, List.length_nil, Pc.ahead] at hcount
  omega

theorem Standing.handed (h : Standing s u pc) (hpc : pc.critical = false)
    (hw : u ∈ s.spec.waiting) (hg : u ∉ s.spec.granted) (hg' : u ∈ s'.spec.granted)
    (hpark : s'.parking u = (s.parking u).unpark) (hk : s'.killed u = s.killed u) :
    Standing s' u pc := by
  cases pc with
  | downUnlock | downRelease => cases hpc
  | downPark =>
    obtain ⟨-, hclear⟩ := h.resolve_right fun h => hg h.1
    exact .inr ⟨hg', by rw [hpark, hclear]; rfl⟩
  | downParked =>
    obtain ⟨-, hlost, hasleep⟩ := h.resolve_right fun h => hg h.1
    refine .inr ⟨hg', ?_⟩
    cases ha : (s.parking u).asleep with
    | true => simp [hpark, Parking.unpark, ha, hlost]
    | false => simp [hpark, Parking.unpark, ha, hk, hasleep.resolve_left (by simp [ha])]
  | _ =>
    exact absurd hw h.1

section

variable (hG : Global n s) (ht : t ∈ s.live)

include hG ht

theorem keeps_acquire (h : Local s t pc) (hfree : s.guard = none) (hcrit : pc'.critical = true)
    (ha : pc'.ahead = 0) (hd : pc'.dequeued = [])
    (hstand : Standing s t pc → Standing { s with guard := some t } t pc') :
    Keeps n s { s with guard := some t } t pc' := by
  refine ⟨⟨hG.spec, nofun, hG.waiting, hG.slots, hG.fresh⟩, ?_, fun u hu pc hlocal => ?_⟩
  · refine ⟨by simp [hcrit], fun _ => ?_, hstand h.standing, fun _ => ht, hG.born ht⟩
    exact ((hG.free hfree).of_pc (by rw [ha]; rfl) (by rw [hd]; rfl)).congr rfl rfl rfl rfl rfl rfl
  · refine hlocal.spare ⟨?_, by simp [hfree], .rfl, .rfl, rfl, rfl, id, le_rfl⟩
    simp [hfree, hu.symm]

theorem keeps_release (h : Local s t pc) (hcrit : pc.critical = true) (hcrit' : pc'.critical = false)
    (ha : pc.ahead = 0) (hd : pc.dequeued = []) (ha' : pc'.ahead ≠ 1)
    (hstand : Standing s t pc → Standing { s with guard := none } t pc') :
    Keeps n s { s with guard := none } t pc' := by
  have hheld := h.holder.mp hcrit
  refine ⟨⟨hG.spec, fun _ => ?_, hG.waiting, hG.slots, hG.fresh⟩, ?_, fun u hu pc hlocal => ?_⟩
  · exact ((h.locked hcrit).of_pc (by rw [ha]; rfl) (by rw [hd]; rfl)).congr rfl rfl rfl rfl rfl rfl
  · exact ⟨by simp [hcrit'], by simp [hcrit'], hstand h.standing, fun h => absurd h ha', hG.born ht⟩
  · exact hlocal.spare_holder hheld hu (.inr rfl) .rfl .rfl rfl rfl rfl rfl

theorem keeps_dec_wait (h : Local s t .downDec) (hneg : s.count - 1 < 0) :
    Keeps n s { s with count := s.count - 1 } t .downEnq := by
  have hheld := h.holder.mp rfl
  obtain ⟨hq, hcontents, hcount, hups, -, -⟩ := h.locked rfl
  refine ⟨⟨hG.spec, by simp [hheld], hG.waiting, hG.slots, hG.fresh⟩, ?_, fun u hu pc hlocal => ?_⟩
  · refine ⟨by simp [Pc.critical, hheld], fun _ => ⟨hq, hcontents, ?_, hups, nofun, fun _ => hneg⟩,
      h.standing, nofun, hG.born ht⟩
    simp only [Pc.ahead] at hcount ⊢
    omega
  · exact hlocal.spare_holder hheld hu (.inl hheld) .rfl .rfl rfl rfl rfl rfl

theorem keeps_dec_take (h : Local s t .downDec) (hpos : ¬s.count - 1 < 0) :
    Keeps n s { s with count := s.count - 1, spec := s.spec.take t } t .downRelease := by
  have hheld := h.holder.mp rfl
  obtain ⟨hw, hg, hclear⟩ := h.standing
  obtain ⟨hq, hcontents, hcount, hups, -, -⟩ := h.locked rfl
  simp only [Pc.ahead] at hcount
  have hpermits : 0 < s.spec.permits := by omega
  refine ⟨⟨?_, by simp [hheld], hG.waiting, hG.slots, hG.fresh⟩, ?_, fun u hu pc hlocal => ?_⟩
  · exact hG.spec.step (l := .take t) trivial ⟨hpermits, hw, hg, rfl⟩
  · refine ⟨by simp [Pc.critical, hheld], fun _ => ⟨hq, hcontents, ?_, hups, nofun, nofun⟩,
      ⟨List.mem_cons_self, hclear⟩, nofun, hG.born ht⟩
    simp only [Semaphore.take, Pc.ahead]
    omega
  · refine hlocal.spare_holder hheld hu (.inl hheld) .rfl ?_ rfl rfl rfl rfl
    simp [Semaphore.take, hu]

theorem keeps_enq (h : Local s t .downEnq) :
    Keeps n s { s with waitq := s.waitq.enq t, spec := s.spec.wait t } t .downUnlock := by
  have hheld := h.holder.mp rfl
  obtain ⟨hw, hg, hclear⟩ := h.standing
  obtain ⟨hq, hcontents, hcount, hups, -, hneg⟩ := h.locked rfl
  have hlt : s.waitq.count < QMAX := hG.queue_lt hq hcontents
  have hpermits : s.spec.permits = 0 := by
    rcases hG.fair.exclusive with hzero | hempty
    · exact hzero
    · have := hneg rfl
      simp only [hempty, List.length_nil, Pc.ahead] at hcount
      omega
  simp only [Pc.ahead] at hcount
  refine ⟨⟨?_, by simp [hheld], ?_, hG.slots, hG.fresh⟩, ?_, fun u hu pc hlocal => ?_⟩
  · exact hG.spec.step (l := .wait t) trivial ⟨hpermits, hw, hg, rfl⟩
  · intro p hp
    rcases List.mem_append.mp hp with hp | hp
    · exact hG.waiting p hp
    · exact List.mem_singleton.mp hp ▸ ht
  · refine ⟨by simp [Pc.critical, hheld], fun _ => ?_, ?_, nofun, hG.born ht⟩
    · refine ⟨hq.enq t, ?_, ?_, hups, nofun, nofun⟩
      · rw [hq.contents_enq hlt, ← List.append_assoc]
        exact congrArg (· ++ [t]) hcontents
      · simp only [Semaphore.wait, List.length_append, List.length_singleton, Pc.ahead]
        omega
    · exact ⟨List.mem_append_right _ (List.mem_singleton.mpr rfl), hclear⟩
  · refine hlocal.spare_holder hheld hu (.inl hheld) ?_ .rfl rfl rfl rfl rfl
    simp [Semaphore.wait, hu]

theorem keeps_park (h : Local s t .downPark) :
    Keeps n s { s with parking := update s.parking t (s.parking t).park } t .downParked := by
  refine ⟨⟨hG.spec, fun hfree => ?_, hG.waiting, hG.slots, hG.fresh⟩, ?_, fun u hu pc hlocal => ?_⟩
  · exact (hG.free hfree).congr rfl rfl rfl rfl rfl rfl
  · refine ⟨h.holder, nofun, ?_, nofun, hG.born ht⟩
    simp only [Standing, update_self]
    rcases h.standing with ⟨hw, hpark⟩ | ⟨hg, hpark⟩
    · exact .inl ⟨hw, by simp [hpark, Parking.park, Parking.clear]⟩
    · exact .inr ⟨hg, by simp [hpark, Parking.park]⟩
  · exact hlocal.spare ⟨.rfl, fun _ _ hl => hl.congr rfl rfl rfl rfl rfl rfl, .rfl, .rfl,
      update_of_ne hu _ _, rfl, id, le_rfl⟩

omit ht in
theorem keeps_ret (h : Local s t pc) (hg : t ∈ s.spec.granted) (hclear : s.parking t = .clear)
    (hpc : pc.critical = false) :
    Keeps n s { s with spec := s.spec.ret t } t .user := by
  have hnodup := (List.nodup_append.mp hG.fair.nodup).2.1
  refine ⟨⟨?_, fun hfree => ?_, hG.waiting, hG.slots, hG.fresh⟩, ?_, fun u hu pc hlocal => ?_⟩
  · exact hG.spec.step (l := .ret t) trivial ⟨hg, rfl⟩
  · exact (hG.free hfree).congr rfl rfl rfl rfl rfl rfl
  · refine ⟨?_, nofun, ?_, nofun, fun _ => rfl⟩
    · rw [← h.holder, hpc]
      rfl
    · exact ⟨fun hw => hG.fair.disjoint hw hg, hnodup.not_mem_erase, hclear⟩
  · refine hlocal.spare ⟨.rfl, fun _ _ hl => hl.congr rfl rfl rfl rfl rfl rfl, .rfl, ?_, rfl, rfl,
      id, le_rfl⟩
    exact List.mem_erase_of_ne hu

theorem keeps_inc_wake (h : Local s t .upInc) (hle : s.count + 1 ≤ 0) :
    Keeps n s { s with count := s.count + 1, ups := s.ups + 1 } t .upDeq := by
  have hheld := h.holder.mp rfl
  obtain ⟨hq, hcontents, hcount, hups, -, -⟩ := h.locked rfl
  simp only [Pc.ahead] at hcount hups
  refine ⟨⟨hG.spec, by simp [hheld], hG.waiting, hG.slots, hG.fresh⟩, ?_,
    fun u hu pc hlocal => ?_⟩
  · refine ⟨by simp [Pc.critical, hheld], fun _ => ⟨hq, hcontents, ?_, ?_, fun _ => hle, nofun⟩,
      h.standing, fun _ => ht, hG.born ht⟩
    · simp only [Pc.ahead]
      omega
    · simp only [Pc.ahead]
      push_cast
      omega
  · exact hlocal.spare_holder hheld hu (.inl hheld) .rfl .rfl rfl rfl rfl rfl

theorem keeps_inc_post (h : Local s t .upInc) (hgt : ¬s.count + 1 ≤ 0) :
    Keeps n s { s with count := s.count + 1, ups := s.ups + 1, spec := s.spec.post } t
      .upRelease := by
  have hheld := h.holder.mp rfl
  obtain ⟨hq, hcontents, hcount, hups, -, -⟩ := h.locked rfl
  simp only [Pc.ahead] at hcount hups
  have hempty : s.spec.waiting = [] := by
    rcases hG.fair.exclusive with hzero | hempty
    · exact List.length_eq_zero_iff.mp (by omega)
    · exact hempty
  refine ⟨⟨?_, by simp [hheld], hG.waiting, hG.slots, hG.fresh⟩, ?_, fun u hu pc hlocal => ?_⟩
  · exact hG.spec.step (l := .post) trivial ⟨hempty, rfl⟩
  · refine ⟨by simp [Pc.critical, hheld], fun _ => ⟨hq, hcontents, ?_, ?_, nofun, nofun⟩,
      h.standing, nofun, hG.born ht⟩
    · simp only [Semaphore.post, Pc.ahead]
      push_cast
      omega
    · simp only [Semaphore.post, Pc.ahead]
      push_cast
      omega
  · exact hlocal.spare_holder hheld hu (.inl hheld) .rfl .rfl rfl rfl rfl rfl

theorem keeps_deq (h : Local s t .upDeq) :
    Keeps n s { s with waitq := s.waitq.deq.2 } t (.upUnpark s.waitq.deq.1) := by
  have hheld := h.holder.mp rfl
  have hlocked := h.locked rfl
  have hne := hlocked.contents_ne_nil rfl
  obtain ⟨hq, hcontents, hcount, hups, hup, -⟩ := hlocked
  refine ⟨⟨hG.spec, by simp [hheld], hG.waiting, hG.slots, hG.fresh⟩, ?_,
    fun u hu pc hlocal => ?_⟩
  · refine ⟨by simp [Pc.critical, hheld], fun _ => ?_, h.standing, fun _ => ht, hG.born ht⟩
    refine ⟨hq.deq hne, ?_, hcount, hups, hup, nofun⟩
    exact (Queue.contents_deq hne).trans hcontents
  · exact hlocal.spare_holder hheld hu (.inl hheld) .rfl .rfl rfl rfl rfl rfl

theorem keeps_release_ret (h : Local s t .downRelease) :
    Keeps n s { s with guard := none, spec := s.spec.ret t } t .user := by
  obtain ⟨hg, hclear⟩ := h.standing
  have hrelease : Keeps n s { s with guard := none } t .downParked := by
    refine keeps_release hG ht h rfl rfl rfl rfl nofun fun _ => .inr ⟨hg, ?_, .inl ?_⟩
    all_goals simp [hclear, Parking.clear]
  exact hrelease.trans (keeps_ret hrelease.shared hrelease.own hg hclear rfl)

theorem keeps_unpark {p : ℕ} (h : Local s t (.upUnpark p)) :
    Keeps n s { s.unpark p with spec := s.spec.hand } t .upRelease := by
  have hheld := h.holder.mp rfl
  obtain ⟨hw, hg, hclear⟩ := h.standing
  obtain ⟨hq, hcontents, hcount, hups, -, -⟩ := h.locked rfl
  have hwait : s.spec.waiting = p :: s.waitq.contents := hcontents.symm
  have hp : p ∈ s.spec.waiting := by simp [hwait]
  have htp : t ≠ p := fun heq => hw (heq ▸ hp)
  have hunpark : s.unpark p = { s with parking := update s.parking p (s.parking p).unpark } :=
    if_pos (.inl (hG.waiting p hp))
  have hhand : s.spec.hand = { s.spec with
      waiting := s.waitq.contents, granted := p :: s.spec.granted,
      posted := s.spec.posted + 1, served := s.spec.served ++ [p] } := by
    simp [Semaphore.hand, hwait]
  rw [hunpark]
  refine ⟨⟨?_, by simp [hheld], fun q hq => ?_, hG.slots, hG.fresh⟩, ?_, fun u hu pc hlocal => ?_⟩
  · exact hG.spec.step (l := .hand) trivial ⟨List.ne_nil_of_mem hp, rfl⟩
  · simp only [hhand] at hq
    exact hG.waiting q (hwait ▸ List.mem_cons_of_mem p hq)
  · refine ⟨by simp [Pc.critical, hheld], fun _ => ?_, ⟨?_, ?_, ?_⟩, (by rintro ⟨⟩), hG.born ht⟩
    · simp only [hwait, List.length_cons, Pc.ahead] at hcount hups
      refine ⟨hq, by rw [hhand]; rfl, ?_, ?_, (by rintro ⟨⟩), (by rintro ⟨⟩)⟩
      · simp only [hhand, Pc.ahead]
        omega
      · simp only [hhand, Pc.ahead]
        push_cast
        omega
    · rw [hhand]
      exact fun hmem => hw (hwait ▸ List.mem_cons_of_mem p hmem)
    · simp [hhand, htp, hg]
    · simp [htp, hclear]
  · by_cases hup : u = p
    · subst hup
      have hcrit : pc.critical = false := by
        by_contra hcrit
        have hguard := hlocal.holder.mp (by simpa using hcrit)
        exact htp (Option.some.inj (hheld.symm.trans hguard))
      refine ⟨hlocal.holder, by simp [hcrit], ?_, hlocal.alive, hlocal.unborn⟩
      exact hlocal.standing.handed hcrit hp (hG.fair.disjoint hp) (by simp [hhand])
        (update_self _ _ _) rfl
    · refine hlocal.spare_holder hheld hu (.inl hheld) ?_ ?_ (update_of_ne hup _ _)
        rfl rfl rfl
      · simp [hhand, hwait, hup]
      · simp [hhand, hup]

theorem keeps_run (h : Local s t pc) (hrun : s.run t pc = some (s', pc')) : Keeps n s s' t pc' := by
  cases pc with
  | user => cases hrun
  | downAcquire =>
    simp only [Shared.run] at hrun
    split at hrun
    · next hfree => cases hrun; exact keeps_acquire hG ht h hfree rfl rfl rfl id
    · cases hrun; exact ⟨hG, h, fun _ _ _ => id⟩
  | upAcquire =>
    simp only [Shared.run] at hrun
    split at hrun
    · next hfree => cases hrun; exact keeps_acquire hG ht h hfree rfl rfl rfl id
    · cases hrun; exact ⟨hG, h, fun _ _ _ => id⟩
  | downDec =>
    simp only [Shared.run] at hrun
    split_ifs at hrun with hover hneg
    · cases hrun; exact keeps_dec_wait hG ht h hneg
    · cases hrun; exact keeps_dec_take hG ht h hneg
  | downEnq => cases hrun; exact keeps_enq hG ht h
  | downUnlock => cases hrun; exact keeps_release hG ht h rfl rfl rfl rfl nofun .inl
  | downPark => cases hrun; exact keeps_park hG ht h
  | downParked =>
    simp only [Shared.run] at hrun
    split_ifs at hrun with hstuck
    cases hrun
    obtain ⟨hasleep, hkilled⟩ := not_or.mp hstuck
    rcases h.standing with ⟨-, -, hsleeps | hdies⟩ | ⟨hg, hawake, hlost⟩
    · exact absurd hsleeps hasleep
    · exact absurd hdies hkilled
    · refine keeps_ret hG h hg ?_ rfl
      rw [← Parking.eq_clear hawake (hlost.resolve_right hkilled)]
  | downRelease => cases hrun; exact keeps_release_ret hG ht h
  | upInc =>
    simp only [Shared.run] at hrun
    split_ifs at hrun with hover hle
    · cases hrun; exact keeps_inc_wake hG ht h hle
    · cases hrun; exact keeps_inc_post hG ht h hle
  | upDeq => cases hrun; exact keeps_deq hG ht h
  | upUnpark p => cases hrun; exact keeps_unpark hG ht h
  | upRelease => cases hrun; exact keeps_release hG ht h rfl rfl rfl rfl nofun id

end

theorem Local.kill (h : Local s u pc) (p : ℕ) : Local (s.kill p) u pc := by
  unfold Shared.kill
  split
  · by_cases hu : u = p
    · subst hu
      refine ⟨h.holder, fun hcrit => (h.locked hcrit).congr rfl rfl rfl rfl rfl rfl, ?_, h.alive,
        h.unborn⟩
      have hstand := h.standing
      cases pc <;> simp only [Standing, update_self] at hstand ⊢
      case downPark =>
        rcases hstand with ⟨hw, hclear⟩ | ⟨hg, hlost⟩
        · exact .inl ⟨hw, by rw [hclear]; rfl⟩
        · exact .inr ⟨hg, by rw [hlost]; rfl⟩
      case downParked =>
        rcases hstand with ⟨hw, hlost, -⟩ | ⟨hg, -, -⟩
        · exact .inl ⟨hw, hlost, .inr trivial⟩
        · exact .inr ⟨hg, rfl, .inr trivial⟩
      case downUnlock | downRelease => exact ⟨hstand.1, by rw [hstand.2]; rfl⟩
      all_goals exact ⟨hstand.1, hstand.2.1, by rw [hstand.2.2]; rfl⟩
    · exact h.spare ⟨.rfl, fun _ _ hl => hl.congr rfl rfl rfl rfl rfl rfl, .rfl, .rfl,
        update_of_ne hu _ _, update_of_ne hu _ _, id, le_rfl⟩
  · exact h

theorem Global.kill (hG : Global n s) (p : ℕ) : Global n (s.kill p) := by
  unfold Shared.kill
  split
  · exact ⟨hG.spec, fun hfree => (hG.free hfree).congr rfl rfl rfl rfl rfl rfl, hG.waiting,
      hG.slots, hG.fresh⟩
  · exact hG

theorem Local.clone (h : Local s u pc) : Local s.clone u pc := by
  by_cases hu : u = s.nextpid
  · obtain rfl := h.unborn hu.ge
    obtain ⟨hw, hg, -⟩ := h.standing
    refine ⟨h.holder, nofun, ⟨hw, hg, ?_⟩, nofun, fun _ => rfl⟩
    simp [Shared.clone, hu]
  · exact h.spare ⟨.rfl, fun _ _ hl => hl.congr rfl rfl rfl rfl rfl rfl, .rfl, .rfl,
      update_of_ne hu _ _, update_of_ne hu _ _, Finset.mem_insert_of_mem,
      Nat.le_succ _⟩

theorem Global.clone (hG : Global n s) (hslot : s.live.card + s.zombies.card < NPROC) :
    Global n s.clone := by
  refine ⟨hG.spec, fun hfree => (hG.free hfree).congr rfl rfl rfl rfl rfl rfl,
    fun p hp => Finset.mem_insert_of_mem (hG.waiting p hp), ?_, fun p hp => ?_⟩
  · have hcard := Finset.card_insert_le s.nextpid s.live
    simp only [Shared.clone]
    omega
  · simp only [Shared.clone]
    rcases Finset.mem_insert.mp hp with rfl | hp
    · omega
    · have := hG.fresh p hp
      omega

theorem not_waiting {c : Process} (hG : Global n c.shared)
    (hA : ∀ u, Local c.shared u (c.loc u)) (hok : exitsOutside c (t, .exit)) :
    t ∉ c.shared.spec.waiting := by
  obtain ⟨hqueue, hunpark, -⟩ := hok
  intro hw
  cases hguard : c.shared.guard with
  | none =>
    rw [← (hG.free hguard).contents] at hw
    exact hqueue hw
  | some v =>
    have hcrit := (hA v).holder.mpr hguard
    rw [← ((hA v).locked hcrit).contents] at hw
    rcases List.mem_append.mp hw with hdeq | hw
    · have hpc : c.loc v = .upUnpark t := by
        cases hpc : c.loc v <;> simp_all [Pc.dequeued]
      exact hunpark v ((hA v).alive (by rw [hpc]; rfl)) hpc
    · exact hqueue hw

theorem Local.exit_own (h : Local s t pc) (hpc : pc.ahead ≠ 1) : Local (s.exit t) t pc :=
  ⟨h.holder, fun hcrit => (h.locked hcrit).congr rfl rfl rfl rfl rfl rfl,
    h.standing.congr .rfl .rfl rfl rfl, fun ha => absurd ha hpc, h.unborn⟩

theorem Local.exit_other (h : Local s u pc) (hu : u ≠ t) : Local (s.exit t) u pc :=
  h.spare ⟨.rfl, fun _ _ hl => hl.congr rfl rfl rfl rfl rfl rfl, .rfl, .rfl, rfl, rfl,
    fun hlive => Finset.mem_erase.mpr ⟨hu, hlive⟩, le_rfl⟩

theorem Global.exit (hG : Global n s) (ht : t ∈ s.live) (hw : t ∉ s.spec.waiting) :
    Global n (s.exit t) := by
  refine ⟨hG.spec, fun hfree => (hG.free hfree).congr rfl rfl rfl rfl rfl rfl,
    fun p hp => Finset.mem_erase.mpr ⟨?_, hG.waiting p hp⟩, ?_,
    fun p hp => hG.fresh p (Finset.mem_of_mem_erase hp)⟩
  · rintro rfl
    exact hw hp
  · have hslots := hG.slots
    have herase := Finset.card_erase_of_mem ht
    have hpos := Finset.card_pos.mpr ⟨t, ht⟩
    have hinsert := Finset.card_insert_le t s.zombies
    simp only [Shared.exit]
    omega

theorem Local.join (h : Local s u pc) (p : ℕ) :
    Local { s with zombies := s.zombies.erase p } u pc :=
  h.spare ⟨.rfl, fun _ _ hl => hl.congr rfl rfl rfl rfl rfl rfl, .rfl, .rfl, rfl, rfl, id, le_rfl⟩

theorem Global.join (hG : Global n s) (p : ℕ) :
    Global n { s with zombies := s.zombies.erase p } := by
  refine ⟨hG.spec, fun hfree => (hG.free hfree).congr rfl rfl rfl rfl rfl rfl, hG.waiting, ?_,
    hG.fresh⟩
  have hslots := hG.slots
  have herase := Finset.card_erase_le (s := s.zombies) (a := p)
  simp only
  omega

theorem Local.call (hG : Global n s) (ht : t ∈ s.live) (h : Local s t .user)
    (hpc : pc = .downAcquire ∨ pc = .upAcquire) : Local s t pc := by
  rcases hpc with rfl | rfl
  · exact ⟨h.holder, nofun, h.standing, nofun, hG.born ht⟩
  · exact ⟨h.holder, nofun, h.standing, nofun, hG.born ht⟩

/-- What holds in every state of a process whose threads exit outside of their
calls. -/
def Process.Inv (n : ℕ) (c : Process) : Prop :=
  Global n c.shared ∧ ∀ t, Local c.shared t (c.loc t)

theorem inv_initial {c : Process} (h : c.initial n) : c.Inv n := by
  obtain ⟨⟨s, hs⟩, hslots, hfresh, -, hclear, huser⟩ := h
  have hlocked : Locked c.shared .user := by
    rw [hs]
    exact ⟨Queue.wellFormed_qinit, rfl, by simp [Shared.sem_init, Semaphore.start, Pc.ahead],
      by simp [Shared.sem_init, Semaphore.start, Pc.ahead], (by rintro ⟨⟩), (by rintro ⟨⟩)⟩
  refine ⟨⟨.init ?_, fun _ => hlocked, ?_, hslots, hfresh⟩, fun t => ?_⟩
  · rw [hs]
    rfl
  · rw [hs]
    exact by rintro _ ⟨⟩
  · rw [huser t]
    refine ⟨?_, (by rintro ⟨⟩), ⟨?_, ?_, hclear t⟩, (by rintro ⟨⟩), fun _ => rfl⟩
    all_goals rw [hs]; simp [Shared.sem_init, Semaphore.start, Pc.critical]

theorem inv_act {c : Process} {e : Event} (hG : Global n c.shared)
    (hA : ∀ u, Local c.shared u (c.loc u)) (hok : exitsOutside c (t, e))
    (hact : act c.shared t (c.loc t) e = some (s', pc')) :
    Global n s' ∧ Local s' t pc' ∧ ∀ u, u ≠ t → Local s' u (c.loc u) := by
  cases e with
  | kill p =>
    cases hact
    exact ⟨hG.kill p, (hA t).kill p, fun u _ => (hA u).kill p⟩
  | run =>
    simp only [act, Option.ite_none_right_eq_some] at hact
    obtain ⟨hshared, hown, hothers⟩ := keeps_run hG hact.1 (hA t) hact.2
    exact ⟨hshared, hown, fun u hu => hothers u hu _ (hA u)⟩
  | down =>
    simp only [act, Option.ite_none_right_eq_some] at hact
    obtain ⟨⟨hlive, huser⟩, hact⟩ := hact
    cases hact
    exact ⟨hG, .call hG hlive (huser ▸ hA t) (.inl rfl), fun u _ => hA u⟩
  | up =>
    simp only [act, Option.ite_none_right_eq_some] at hact
    obtain ⟨⟨hlive, huser⟩, hact⟩ := hact
    cases hact
    exact ⟨hG, .call hG hlive (huser ▸ hA t) (.inr rfl), fun u _ => hA u⟩
  | create =>
    simp only [act, Option.ite_none_right_eq_some] at hact
    obtain ⟨⟨-, huser, hslot⟩, hact⟩ := hact
    cases hact
    exact ⟨hG.clone hslot, (huser ▸ hA t).clone, fun u _ => (hA u).clone⟩
  | join p =>
    simp only [act, Option.ite_none_right_eq_some] at hact
    obtain ⟨⟨-, huser, -⟩, hact⟩ := hact
    cases hact
    exact ⟨hG.join p, (huser ▸ hA t).join p, fun u _ => (hA u).join p⟩
  | exit =>
    simp only [act, Option.ite_none_right_eq_some] at hact
    obtain ⟨⟨hlive, -, -⟩, hact⟩ := hact
    cases hact
    exact ⟨hG.exit hlive (not_waiting hG hA hok), (hA t).exit_own hok.2.2,
      fun u hu => (hA u).exit_other hu⟩

theorem inv_of_reach {c : Process} (h : Reach (process n) exitsOutside c) : c.Inv n :=
  Interleaving.invariant_of_all (fun _ => inv_initial) (fun _ _ _ _ _ => inv_act) h

namespace Process.Inv

variable {c : Process}

theorem locked (h : c.Inv n) : ∃ pc, Locked c.shared pc ∧
    ((∃ u, c.shared.guard = some u ∧ c.loc u = pc) ∨ c.shared.guard = none ∧ pc = .user) := by
  cases hguard : c.shared.guard with
  | none => exact ⟨.user, h.1.free hguard, .inr ⟨rfl, rfl⟩⟩
  | some u =>
    exact ⟨c.loc u, (h.2 u).locked ((h.2 u).holder.mpr hguard), .inl ⟨u, rfl, rfl⟩⟩

theorem waiting_of_mem (h : c.Inv n) {p : ℕ} (hp : p ∈ c.shared.waitq.contents) :
    p ∈ c.shared.spec.waiting := by
  obtain ⟨pc, hlocked, -⟩ := h.locked
  rw [← hlocked.contents]
  exact List.mem_append_right _ hp

theorem waiting_of_unpark (h : c.Inv n) {p : ℕ} (hu : c.loc u = .upUnpark p) :
    p ∈ c.shared.spec.waiting := by
  have hlocked := (h.2 u).locked (by rw [hu]; rfl)
  rw [hu] at hlocked
  rw [← hlocked.contents]
  exact List.mem_append_left _ (List.mem_singleton.mpr rfl)

theorem waits (h : c.Inv n) {p : ℕ} (hp : p ∈ c.shared.spec.waiting) : (c.loc p).waits := by
  have hstand := (h.2 p).standing
  cases hpc : c.loc p <;> rw [hpc] at hstand
  case downUnlock | downPark | downParked => trivial
  case downRelease => exact h.1.fair.disjoint hp hstand.1
  all_goals exact hstand.1 hp

end Process.Inv

theorem run_killed (hrun : s.run t pc = some (s', pc')) : s'.killed = s.killed := by
  cases pc with
  | user => cases hrun
  | downAcquire | upAcquire =>
    simp only [Shared.run] at hrun
    split at hrun <;> cases hrun <;> rfl
  | downDec | downParked | upInc =>
    simp only [Shared.run] at hrun
    split_ifs at hrun <;> cases hrun <;> rfl
  | downEnq | downUnlock | downPark | downRelease | upDeq | upRelease =>
    cases hrun
    rfl
  | upUnpark p =>
    cases hrun
    simp only [Shared.unpark]
    split <;> rfl

theorem reach_of_noKill {c : Process} (h : Reach (process n) noKill c) :
    Reach (process n) exitsOutside c ∧ ∀ t, c.shared.killed t = false := by
  refine h.invariant (P := fun c => Reach (process n) exitsOutside c ∧
    ∀ t, c.shared.killed t = false) (fun c h0 => ⟨.init h0, h0.2.2.2.1⟩) ?_
  rintro c ⟨t, e⟩ c' - ⟨hreach, hkilled⟩ hok hstep
  have hinv := inv_of_reach hreach
  obtain ⟨⟨s', pc'⟩, hact, rfl⟩ := Option.map_eq_some_iff.mp hstep
  refine ⟨hreach.step ?_ hstep, ?_⟩
  · cases e with
    | exit =>
      simp only [act, Option.ite_none_right_eq_some, hkilled] at hact
      obtain ⟨⟨-, -, huser | hnever⟩, -⟩ := hact
      · have hstand := (hinv.2 t).standing
        rw [huser] at hstand
        refine ⟨fun hmem => hstand.1 (hinv.waiting_of_mem hmem), fun u _ hu =>
          hstand.1 (hinv.waiting_of_unpark hu), ?_⟩
        rw [huser]
        decide
      · cases hnever
    | _ => trivial
  · intro u
    cases e with
    | kill => cases hok
    | run =>
      simp only [act, Option.ite_none_right_eq_some] at hact
      rw [run_killed hact.2]
      exact hkilled u
    | create =>
      simp only [act, Option.ite_none_right_eq_some] at hact
      cases hact.2
      by_cases hu : u = c.shared.nextpid
      · simp [Shared.clone, hu]
      · simp [Shared.clone, hu, hkilled u]
    | _ =>
      simp only [act, Option.ite_none_right_eq_some] at hact
      cases hact.2
      exact hkilled u

end KThreads.Sem

namespace KThreads.Sem

open Transition (Reach anyStep)

variable {n : ℕ} {c : Process}

namespace Process.Inv

theorem contents_eq (h : c.Inv n) (hfree : c.shared.guard = none) :
    c.shared.waitq.contents = c.shared.spec.waiting :=
  (h.1.free hfree).contents

theorem length_contents (h : c.Inv n) (hfree : c.shared.guard = none) :
    (c.shared.waitq.contents.length : ℤ) = max 0 (-c.shared.count) := by
  have hcount := (h.1.free hfree).count
  simp only [Pc.ahead] at hcount
  rw [h.contents_eq hfree]
  rcases h.1.fair.exclusive with hzero | hempty
  · omega
  · simp only [hempty, List.length_nil] at hcount ⊢
    omega

theorem returned_le (h : c.Inv n) : c.shared.spec.returned ≤ n + c.shared.ups := by
  obtain ⟨pc, hlocked, -⟩ := h.locked
  have hups := hlocked.ups
  have hreturned := h.1.fair.returned_le
  omega

theorem nodup (h : c.Inv n) : c.shared.waitq.contents.Nodup := by
  obtain ⟨pc, hlocked, -⟩ := h.locked
  have hnodup := (List.nodup_append.mp h.1.fair.nodup).1
  rw [← hlocked.contents] at hnodup
  exact (List.nodup_append.mp hnodup).2.1

theorem queue_le (h : c.Inv n) : c.shared.waitq.count ≤ QMAX := by
  obtain ⟨pc, hlocked, -⟩ := h.locked
  have hsub : c.shared.waitq.contents.toFinset ⊆ c.shared.live := fun p hp =>
    h.1.waiting p (h.waiting_of_mem (List.mem_toFinset.mp hp))
  have hcard := Finset.card_le_card hsub
  rw [List.toFinset_card_of_nodup h.nodup, Queue.length_contents] at hcard
  have hslots := h.1.slots
  have hlt : NPROC < QMAX := by decide
  omega

theorem awake_of_dequeued (h : c.Inv n) {t : ℕ}
    (hpc : c.loc t = .downPark ∨ c.loc t = .downParked) (hmem : t ∉ c.shared.waitq.contents) :
    (∃ u, c.loc u = .upUnpark t) ∨
      (c.shared.parking t).asleep = false ∧
        (c.loc t = .downPark → (c.shared.parking t).lostwakeup = true) := by
  have hstand := (h.2 t).standing
  by_cases hw : t ∈ c.shared.spec.waiting
  · obtain ⟨pc, hlocked, hpc⟩ := h.locked
    rw [← hlocked.contents] at hw
    rcases List.mem_append.mp hw with hdeq | hw
    · rcases hpc with ⟨u, -, rfl⟩ | ⟨-, rfl⟩
      · refine .inl ⟨u, ?_⟩
        cases hu : c.loc u <;> simp_all [Pc.dequeued]
      · cases hdeq
    · exact absurd hw hmem
  · refine .inr ?_
    rcases hpc with hpc | hpc
    · rw [hpc] at hstand
      obtain ⟨-, hpark⟩ := hstand.resolve_left fun h => hw h.1
      simp [hpark]
    · rw [hpc] at hstand ⊢
      obtain ⟨-, hawake, -⟩ := hstand.resolve_left fun h => hw h.1
      exact ⟨hawake, by simp⟩

theorem hands (h : c.Inv n) {u p : ℕ} (hu : c.loc u = .upUnpark p) :
    u ∈ c.shared.live ∧ p ∈ c.shared.live ∧ (c.loc p).waits ∧
      ∃ s', act c.shared u (c.loc u) .run = some (s', .upRelease) ∧
        (s'.parking p).asleep = false ∧
        (c.loc p = .downPark → (s'.parking p).lostwakeup = true) := by
  have hw := h.waiting_of_unpark hu
  have hlive := (h.2 u).alive (by rw [hu]; rfl)
  refine ⟨hlive, h.1.waiting p hw, h.waits hw, { c.shared.unpark p with
    spec := c.shared.spec.hand }, ?_, ?_⟩
  · rw [hu]
    exact if_pos hlive
  · have hunpark : (c.shared.unpark p).parking p = (c.shared.parking p).unpark := by
      simp [Shared.unpark, h.1.waiting p hw]
    simp only [hunpark]
    have hstand := (h.2 p).standing
    constructor
    · cases ha : (c.shared.parking p).asleep <;> simp [Parking.unpark, ha]
    · intro hpc
      rw [hpc] at hstand
      obtain ⟨-, hclear⟩ := hstand.resolve_right fun hg => h.1.fair.disjoint hw hg.1
      rw [hclear]
      rfl

end Process.Inv

/-- **No lost wakeup.** Without `kill`, no more calls of `sem_down` have returned than
there were permits; while the guard is free the queue holds those who wait, in the
order of their arrival, and no others; and a thread that a `sem_up` has taken from
the queue is about to be handed its permit, or does not sleep and will not. -/
theorem sem_conserves_permits (h : Reach (process n) noKill c) :
    c.shared.spec.returned ≤ n + c.shared.ups ∧
      (c.shared.guard = none →
        c.shared.waitq.contents = c.shared.spec.waiting ∧
          (c.shared.waitq.contents.length : ℤ) = max 0 (-c.shared.count) ∧
          c.shared.spec.arrived = c.shared.spec.served ++ c.shared.waitq.contents) ∧
      (∀ t, c.loc t = .downPark ∨ c.loc t = .downParked → t ∉ c.shared.waitq.contents →
        (∃ u, c.loc u = .upUnpark t) ∨
          (c.shared.parking t).asleep = false ∧
            (c.loc t = .downPark → (c.shared.parking t).lostwakeup = true)) ∧
      ∀ u p, c.loc u = .upUnpark p →
        ∃ s', act c.shared u (c.loc u) .run = some (s', .upRelease) ∧
          (s'.parking p).asleep = false ∧
          (c.loc p = .downPark → (s'.parking p).lostwakeup = true) := by
  have hinv := inv_of_reach (reach_of_noKill h).1
  refine ⟨hinv.returned_le, fun hfree => ⟨hinv.contents_eq hfree, hinv.length_contents hfree, ?_⟩,
    fun t => hinv.awake_of_dequeued, fun u p hu => (hinv.hands hu).2.2.2⟩
  rw [hinv.contents_eq hfree]
  exact hinv.1.fair.order

/-- Three threads, and a semaphore without permits. -/
def start : Process :=
  ⟨Shared.sem_init ⟨none, 0, ⟨fun _ => 0, 0, 0, 0⟩, {1, 2, 3}, ∅, 4, fun _ => .clear,
    fun _ => false, 0, .start ℕ 0⟩ 0, fun _ => .user⟩

theorem start_initial : start.initial 0 :=
  ⟨⟨_, rfl⟩, by decide, by decide, fun _ => rfl, fun _ => rfl, fun _ => rfl⟩

/-- The steps of a thread in its call. -/
def runs (t k : ℕ) : List (ℕ × Event) := List.replicate k (t, .run)

/-- A `sem_up` comes between the release of the guard and the `park` of a
`sem_down`: the thread does not sleep. -/
theorem sem_conserves_permits_early_unpark :
    ∃ c : Process, Reach (process 0) noKill c ∧
      (c.loc 1 = .downParked ∧ 1 ∉ c.shared.waitq.contents ∧ c.loc 2 = .user) ∧
      ((∃ u, c.loc u = .upUnpark 1) ∨ (c.shared.parking 1).asleep = false ∧
        (c.loc 1 = .downPark → (c.shared.parking 1).lostwakeup = true)) := by
  obtain ⟨c, -, hreach, hc⟩ := Interleaving.exists_of_scriptWhile act start_initial noKill
    ((1, .down) :: runs 1 4 ++ (2, .up) :: runs 2 5 ++ runs 1 1)
    (fun c => c.loc 1 = .downParked ∧ 1 ∉ c.shared.waitq.contents ∧ c.loc 2 = .user)
    (by decide)
  exact ⟨c, hreach, hc, (sem_conserves_permits hreach).2.2.1 1 (.inr hc.1) hc.2.1⟩

/-- As long as no thread exits while it waits, or is handing a permit or about to be
handed one, the queue holds threads that live and are in `sem_down`, there is room
in it, and a `sem_up` that finds threads waiting finds one in the queue and wakes
it. -/
theorem waitq_holds_live_waiters (h : Reach (process n) exitsOutside c) :
    (∀ p ∈ c.shared.waitq.contents, p ∈ c.shared.live ∧ (c.loc p).waits) ∧
      c.shared.waitq.contents.Nodup ∧ c.shared.waitq.count ≤ QMAX ∧
      (∀ u, c.loc u = .upDeq → u ∈ c.shared.live ∧ c.shared.waitq.contents ≠ []) ∧
      ∀ u p, c.loc u = .upUnpark p →
        u ∈ c.shared.live ∧ p ∈ c.shared.live ∧ (c.loc p).waits ∧
          ∃ s', act c.shared u (c.loc u) .run = some (s', .upRelease) ∧
            (s'.parking p).asleep = false ∧
            (c.loc p = .downPark → (s'.parking p).lostwakeup = true) := by
  have hinv := inv_of_reach h
  refine ⟨fun p hp => ?_, hinv.nodup, hinv.queue_le, fun u hu => ?_, fun u p => hinv.hands⟩
  · have hw := hinv.waiting_of_mem hp
    exact ⟨hinv.1.waiting p hw, hinv.waits hw⟩
  · have hlocal := hinv.2 u
    refine ⟨hlocal.alive (by rw [hu]; rfl), ?_⟩
    exact (hlocal.locked (by rw [hu]; rfl)).contents_ne_nil hu

/-- A waiter is killed, woken by another thread, and exits after that. -/
theorem waitq_holds_live_waiters_killed :
    ∃ c : Process, Reach (process 0) exitsOutside c ∧
      (c.shared.killed 2 = true ∧ 2 ∉ c.shared.live ∧ c.shared.waitq.contents = [3]) ∧
      3 ∈ c.shared.live ∧ (c.loc 3).waits := by
  obtain ⟨c, -, hreach, hc⟩ := Interleaving.exists_of_scriptWhile act start_initial exitsOutside
    ((2, .down) :: runs 2 5 ++ (3, .down) :: runs 3 5 ++ (1, .kill 2) :: (1, .up) :: runs 1 5 ++
      [(2, .exit)])
    (fun c => c.shared.killed 2 = true ∧ 2 ∉ c.shared.live ∧ c.shared.waitq.contents = [3])
    (by decide)
  have hmem : 3 ∈ c.shared.waitq.contents := by simp [hc.2.2]
  exact ⟨c, hreach, hc, (waitq_holds_live_waiters hreach).1 3 hmem⟩

/-- A thread that is killed while it waits leaves its pid in the queue. A `sem_up`
that has found threads waiting then wakes nobody, and a thread that lives sleeps
on. -/
theorem killed_waiter_takes_permit :
    (∃ c : Process, Reach (process 0) anyStep c ∧
      c.shared.waitq.contents = [2] ∧ 2 ∉ c.shared.live) ∧
    ∃ c : Process, Reach (process 0) anyStep c ∧ c.shared.guard = none ∧ c.shared.ups = 1 ∧
      c.loc 1 = .user ∧ 3 ∈ c.shared.live ∧ (c.shared.parking 3).asleep = true ∧
      ∀ p ∈ c.shared.live, p ≠ 3 → c.loc p = .user := by
  constructor
  · obtain ⟨c, -, hreach, hc⟩ := Interleaving.exists_of_script act start_initial
      ((2, .down) :: runs 2 5 ++ [(1, .kill 2), (2, .exit)])
      (fun c => c.shared.waitq.contents = [2] ∧ 2 ∉ c.shared.live) (by decide)
    exact ⟨c, hreach, hc⟩
  · obtain ⟨c, -, hreach, hc⟩ := Interleaving.exists_of_script act start_initial
      ((2, .down) :: runs 2 5 ++ [(1, .kill 2), (2, .exit)] ++ (3, .down) :: runs 3 5 ++
        (1, .up) :: runs 1 5)
      (fun c => c.shared.guard = none ∧ c.shared.ups = 1 ∧ c.loc 1 = .user ∧ 3 ∈ c.shared.live ∧
        (c.shared.parking 3).asleep = true ∧ ∀ p ∈ c.shared.live, p ≠ 3 → c.loc p = .user)
      (by decide)
    exact ⟨c, hreach, hc⟩

end KThreads.Sem
