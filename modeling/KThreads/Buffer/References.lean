import KThreads.Lib.Shares
import KThreads.Buffer.Calls

/-!
# Who uses a buffer

The reference count of a buffer is the number of the threads that have locked it, wait for
its lock, or are about to give their reference back. So a buffer whose count is 0 is
nobody's, and as long as somebody uses a buffer it stays with its block.
-/

namespace KThreads.Bcache

open Function (update)
open Log (NBUF)

variable {τ : Type*} {s s' : State τ}

/-- The `prev` and `next` pointers make a ring of all buffers. -/
def Ringed (l : Links Ptr) : Prop :=
  ∃ xs, l.Ring none xs ∧ xs.Perm ((List.finRange NBUF).map some)

theorem ringed_binit : Ringed binit := by
  have hstart : (⟨fun _ => none, fun _ => none⟩ : Links Ptr).Ring none [] :=
    ⟨List.nodup_singleton _, rfl, rfl⟩
  have hnodup : (none :: ([] ++ (List.finRange NBUF).map some) : List Ptr).Nodup := by
    rw [List.nil_append, List.nodup_cons]
    exact ⟨by simp, (List.nodup_finRange NBUF).map (Option.some_injective _)⟩
  have hring := hstart.foldl_push hnodup
  rw [List.foldl_map, List.append_nil] at hring
  exact ⟨_, hring, List.reverse_perm _⟩

theorem Ringed.moveFront {l : Links Ptr} (h : Ringed l) (b : Buf) :
    Ringed ((l.unlink (some b)).push none (some b)) := by
  obtain ⟨xs, hring, hperm⟩ := h
  have hmem : some b ∈ xs := hperm.mem_iff.mpr (List.mem_map_of_mem (List.mem_finRange b))
  obtain ⟨ys, hring', hperm'⟩ := hring.moveFront hmem
  exact ⟨ys, hring', hperm'.trans hperm⟩

section

variable {p : Buf → Bool} {xs : List Ptr}

theorem length_lt_of_perm (h : xs.Perm ((List.finRange NBUF).map some)) : xs.length < NBUF + 1 := by
  rw [h.length_eq, List.length_map, List.length_finRange]
  exact Nat.lt_succ_self _

theorem find_of_perm (h : xs.Perm ((List.finRange NBUF).map some)) :
    (∃ b, xs.find? (fun q => q.any p) = some (some b) ∧ p b = true) ∨
      xs.find? (fun q => q.any p) = none ∧ ∀ b, p b = false := by
  cases hfind : xs.find? (fun q => q.any p) with
  | none =>
    refine .inr ⟨rfl, fun b => ?_⟩
    have hmem : some b ∈ xs := h.mem_iff.mpr (List.mem_map_of_mem (List.mem_finRange b))
    simpa using List.find?_eq_none.mp hfind _ hmem
  | some q =>
    have hq := List.find?_some hfind
    cases q with
    | none => cases hq
    | some b => exact .inl ⟨b, rfl, hq⟩

theorem findCached_eq (h : Ringed s.links) (dev n : ℕ) :
    (∃ b, s.findCached dev n = some (some (some b)) ∧ s.holds dev n b = true) ∨
      s.findCached dev n = some none ∧ ∀ b, s.holds dev n b = false := by
  obtain ⟨xs, hring, hperm⟩ := h
  rw [State.findCached, hring.scan_next (length_lt_of_perm hperm)]
  simpa using find_of_perm hperm

theorem findUnused_eq (h : Ringed s.links) :
    (∃ b, s.findUnused = some (some (some b)) ∧ s.unused b = true) ∨
      s.findUnused = some none ∧ ∀ b, s.unused b = false := by
  obtain ⟨xs, hring, hperm⟩ := h
  rw [State.findUnused, hring.scan_prev (length_lt_of_perm hperm)]
  simpa using find_of_perm ((List.reverse_perm xs).trans hperm)

end

variable [DecidableEq τ]

/-- What a step does. -/
inductive Step (s : State τ) : State τ → Prop
  | panic : Step s s.panic
  /-- `bget` finds a buffer with the block. -/
  | hit {t : τ} {b : Buf} {dev n : ℕ} (hpc : s.pc t = .user) (hb : s.holds dev n b = true) :
      Step s ((s.set b { s.buf b with refcnt := (s.buf b).refcnt + 1 }).goto t (.lock b dev n))
  /-- `bget` finds none, and a buffer that is not in use. -/
  | recycle {t : τ} {b : Buf} {dev n : ℕ} (hpc : s.pc t = .user)
      (hnone : ∀ b, s.holds dev n b = false) (hb : s.unused b = true) :
      Step s ((s.set b { s.buf b with
        valid := false, dirty := false, dev := dev, blockno := n, refcnt := 1 }).goto t (.lock b dev n))
  | lock {t : τ} {b : Buf} {dev n : ℕ} (hpc : s.pc t = .lock b dev n)
      (hfree : (s.buf b).lock = none) :
      Step s ((s.set b { s.buf b with lock := some t }).goto t (.test b dev n))
  | test {t : τ} {b : Buf} {dev n : ℕ} (hpc : s.pc t = .test b dev n)
      (hvalid : (s.buf b).valid = true) : Step s (s.goto t .user)
  | miss {t : τ} {b : Buf} {dev n : ℕ} (hpc : s.pc t = .test b dev n)
      (hvalid : (s.buf b).valid = false) : Step s (s.goto t (.fill b dev n))
  | fill {t : τ} {b : Buf} {dev n : ℕ} (hpc : s.pc t = .fill b dev n) :
      Step s ((s.iderw b).goto t .user)
  | written {t : τ} {b : Buf} (hpc : s.pc t = .write b)
      (hwork : ¬((s.buf b).valid = true ∧ (s.buf b).dirty = false)) :
      Step s ((s.iderw b).goto t .user)
  | unref {t : τ} {b : Buf} (hpc : s.pc t = .unref b) : Step s (s.unref t b)
  | modify {t : τ} {b : Buf} {d : Log.Data} (hpc : s.pc t = .user)
      (hlock : (s.buf b).lock = some t) :
      Step s { s.set b { s.buf b with data := d } with changed := update s.changed b true }
  | logWrite {t : τ} {b : Buf} (hpc : s.pc t = .user) (hlock : (s.buf b).lock = some t) :
      Step s (s.commit b)
  | bwrite {t : τ} {b : Buf} (hpc : s.pc t = .user) (hlock : (s.buf b).lock = some t) :
      Step s ((s.commit b).goto t (.write b))
  | brelse {t : τ} {b : Buf} (hpc : s.pc t = .user) (hlock : (s.buf b).lock = some t)
      (hchanged : s.changed b = false) :
      Step s ((s.set b { s.buf b with lock := none }).goto t (.unref b))

theorem step_of_bget {t : τ} {dev n : ℕ} (hring : Ringed s.links) (hpc : s.pc t = .user)
    (h : s.bget t dev n = some s') : Step s s' := by
  rw [State.bget] at h
  rcases findCached_eq hring dev n with ⟨b, hfind, hb⟩ | ⟨hfind, hnone⟩
  · rw [hfind] at h
    cases h
    exact .hit hpc hb
  · rw [hfind] at h
    rcases findUnused_eq hring with ⟨b, hfree, hb⟩ | ⟨hfree, -⟩
    · rw [hfree] at h
      cases h
      exact .recycle hpc hnone hb
    · rw [hfree] at h
      cases h
      exact .panic

theorem step_of_call {t : τ} (h : s.step t (s.pc t) = some s') : Step s s' := by
  cases hpc : s.pc t with
  | user =>
    rw [hpc] at h
    cases h
  | lock b dev n =>
    rw [hpc] at h
    obtain ⟨hfree, h⟩ := Option.ite_none_right_eq_some.mp h
    cases h
    exact .lock hpc hfree
  | test b dev n =>
    rw [hpc] at h
    cases h
    cases hvalid : (s.buf b).valid with
    | true => exact .test hpc hvalid
    | false => exact .miss hpc hvalid
  | fill b dev n =>
    rw [hpc] at h
    cases h
    split
    · exact .panic
    · exact .fill hpc
  | write b =>
    rw [hpc] at h
    cases h
    split
    · exact .panic
    · next hwork =>
      refine .written hpc fun hidle => hwork (.inl ?_)
      simp [hidle]
  | unref b =>
    rw [hpc] at h
    cases h
    exact .unref hpc

theorem step_of_next {l : Label τ} (hring : Ringed s.links) (h : s.next l = some s') :
    Step s s' := by
  cases l with
  | bread t dev n =>
    obtain ⟨⟨-, hpc⟩, h⟩ := Option.ite_none_right_eq_some.mp h
    exact step_of_bget hring hpc h
  | modify t b d =>
    obtain ⟨⟨-, hpc, hlock⟩, h⟩ := Option.ite_none_right_eq_some.mp h
    cases h
    exact .modify hpc hlock
  | logWrite t b =>
    obtain ⟨⟨-, hpc, hlock⟩, h⟩ := Option.ite_none_right_eq_some.mp h
    cases h
    exact .logWrite hpc hlock
  | bwrite t b =>
    obtain ⟨⟨-, hpc⟩, h⟩ := Option.ite_none_right_eq_some.mp h
    cases h
    split
    · next hlock => exact .bwrite hpc hlock
    · exact .panic
  | brelse t b =>
    obtain ⟨⟨-, hpc, hchanged⟩, h⟩ := Option.ite_none_right_eq_some.mp h
    cases h
    split
    · next hlock => exact .brelse hpc hlock hchanged
    · exact .panic
  | step t =>
    obtain ⟨-, h⟩ := Option.ite_none_right_eq_some.mp h
    exact step_of_call h

theorem Step.ringed (h : Step s s') (hring : Ringed s.links) : Ringed s'.links := by
  cases h with
  | @unref t b hpc =>
    simp only [State.unref, State.goto]
    split
    · exact hring.moveFront b
    · exact hring
  | _ => exact hring

end KThreads.Bcache

namespace KThreads.Bcache

open Function (update update_eq_self update_of_ne update_self)

variable {τ : Type*}

namespace Pc

/-- A thread that has not locked the buffer counts as using it. -/
def refers (b : Buf) : Pc → Bool
  | .lock b' _ _ | .unref b' => decide (b' = b)
  | _ => false

/-- The buffer that a thread in `bread` uses, with the block it is for. -/
def block : Pc → Option (Buf × ℕ × ℕ)
  | .lock b dev n | .test b dev n | .fill b dev n => some (b, dev, n)
  | _ => none

/-- The buffer that a thread has locked in its call. -/
def owns : Pc → Option Buf
  | .test b _ _ | .fill b _ _ | .write b => some b
  | _ => none

end Pc

/-- The references by the threads that have not locked the buffer. -/
def waiting [Fintype τ] (pc : τ → Pc) (b : Buf) : ℕ := ∑ t, ((pc t).refers b).toNat

/-- What holds of the references to the buffers. -/
structure Refs [Fintype τ] (s : State τ) : Prop where
  count : ∀ b, (s.buf b).refcnt = (s.buf b).lock.isSome.toNat + waiting s.pc b
  named : ∀ t b dev n, (s.pc t).block = some (b, dev, n) →
    (s.buf b).dev = dev ∧ (s.buf b).blockno = n
  owned : ∀ t b, (s.pc t).owns = some b → (s.buf b).lock = some t

variable [Fintype τ] {s s' : State τ} {t u : τ} {b : Buf} {c : Pc} {q : Buffer τ}

theorem waiting_update [DecidableEq τ] (pc : τ → Pc) (t : τ) (c : Pc) (b : Buf) :
    waiting (update pc t c) b + ((pc t).refers b).toNat = waiting pc b + (c.refers b).toNat := by
  have hchange := Shares.sum_change (x := t) (f := fun u => ((pc u).refers b).toNat)
    (g := fun u => ((update pc t c u).refers b).toNat)
    fun u hu => by rw [update_of_ne hu]
  simpa [waiting] using hchange

theorem refers_le_waiting (pc : τ → Pc) (t : τ) (b : Buf) :
    ((pc t).refers b).toNat ≤ waiting pc b :=
  Finset.single_le_sum (f := fun u => ((pc u).refers b).toNat) (fun _ _ => Nat.zero_le _)
    (Finset.mem_univ t)

theorem Refs.free (h : Refs s) (hzero : (s.buf b).refcnt = 0) :
    (s.buf b).lock = none ∧ ∀ t, (s.pc t).owns ≠ some b ∧ ∀ dev n, (s.pc t).block ≠ some (b, dev, n) := by
  have hcount := h.count b
  have hlock : (s.buf b).lock = none := by
    cases hl : (s.buf b).lock with
    | none => rfl
    | some u =>
      simp only [hl, hzero, Option.isSome_some, Bool.toNat_true] at hcount
      omega
  have howns : ∀ t, (s.pc t).owns ≠ some b := fun t ht => by
    simpa [hlock] using h.owned t b ht
  refine ⟨hlock, fun t => ⟨howns t, fun dev n hblock => ?_⟩⟩
  have hrefers := refers_le_waiting s.pc t b
  have howns := howns t
  cases hpc : s.pc t with
  | lock b' dev' n' =>
    simp only [hpc, Pc.block, Option.some.injEq, Prod.mk.injEq] at hblock
    simp only [hpc, Pc.refers, hblock.1, decide_true, Bool.toNat_true] at hrefers
    omega
  | test b' dev' n' | fill b' dev' n' =>
    simp only [hpc, Pc.block, Option.some.injEq, Prod.mk.injEq] at hblock
    simp [hpc, Pc.owns, hblock.1] at howns
  | _ => simp [hpc, Pc.block] at hblock

theorem Refs.of_update [DecidableEq τ] (h : Refs s) (hpc : s'.pc = update s.pc t c)
    (hbuf : s'.buf = update s.buf b q)
    (hcount : q.refcnt + (s.buf b).lock.isSome.toNat + ((s.pc t).refers b).toNat =
      (s.buf b).refcnt + q.lock.isSome.toNat + (c.refers b).toNat)
    (hrefers : ∀ b', b' ≠ b → c.refers b' = (s.pc t).refers b')
    (hkeep : (s.buf b).refcnt = 0 ∨ q.dev = (s.buf b).dev ∧ q.blockno = (s.buf b).blockno ∧
      ∀ u, u ≠ t → (s.buf b).lock = some u → q.lock = some u)
    (hnamed : ∀ b' dev n, c.block = some (b', dev, n) →
      (s'.buf b').dev = dev ∧ (s'.buf b').blockno = n)
    (howned : ∀ b', c.owns = some b' → (s'.buf b').lock = some t) : Refs s' where
  count b' := by
    have hwaiting := waiting_update s.pc t c b'
    have hold := h.count b'
    rw [hbuf, hpc]
    by_cases hb' : b' = b
    · subst hb'
      rw [update_self]
      omega
    · rw [update_of_ne hb']
      rw [hrefers b' hb'] at hwaiting
      omega
  named u b' dev n hblock := by
    by_cases hut : u = t
    · subst hut
      exact hnamed b' dev n (by simpa [hpc] using hblock)
    · rw [hpc, update_of_ne hut] at hblock
      by_cases hb' : b' = b
      · subst hb'
        rcases hkeep with hzero | ⟨hdev, hblockno, -⟩
        · exact absurd hblock (((h.free hzero).2 u).2 dev n)
        · rw [hbuf, update_self, hdev, hblockno]
          exact h.named u b' dev n hblock
      · rw [hbuf, update_of_ne hb']
        exact h.named u b' dev n hblock
  owned u b' howns := by
    by_cases hut : u = t
    · subst hut
      exact howned b' (by simpa [hpc] using howns)
    · rw [hpc, update_of_ne hut] at howns
      by_cases hb' : b' = b
      · subst hb'
        rcases hkeep with hzero | ⟨-, -, hlock⟩
        · exact absurd howns ((h.free hzero).2 u).1
        · rw [hbuf, update_self]
          exact hlock u hut (h.owned u b' howns)
      · rw [hbuf, update_of_ne hb']
        exact h.owned u b' howns

theorem Refs.of_same [DecidableEq τ] (h : Refs s) (hpc : s'.pc = update s.pc t c)
    (hbuf : ∀ b, (s'.buf b).refcnt = (s.buf b).refcnt ∧ (s'.buf b).lock = (s.buf b).lock ∧
      (s'.buf b).dev = (s.buf b).dev ∧ (s'.buf b).blockno = (s.buf b).blockno)
    (hrefers : ∀ b, c.refers b = (s.pc t).refers b)
    (hnamed : c.block = none ∨ c.block = (s.pc t).block)
    (howned : ∀ b, c.owns = some b → (s.buf b).lock = some t) : Refs s' where
  count b := by
    have hwaiting := waiting_update s.pc t c b
    rw [hrefers b] at hwaiting
    rw [(hbuf b).1, (hbuf b).2.1, hpc, h.count b]
    omega
  named u b dev n hblock := by
    rw [(hbuf b).2.2.1, (hbuf b).2.2.2]
    by_cases hut : u = t
    · subst hut
      rw [hpc, update_self] at hblock
      rcases hnamed with hnone | hsame
      · simp [hnone] at hblock
      · exact h.named u b dev n (hsame ▸ hblock)
    · rw [hpc, update_of_ne hut] at hblock
      exact h.named u b dev n hblock
  owned u b howns := by
    rw [(hbuf b).2.1]
    by_cases hut : u = t
    · subst hut
      exact howned b (by simpa [hpc] using howns)
    · rw [hpc, update_of_ne hut] at howns
      exact h.owned u b howns

omit [Fintype τ] in
theorem State.iderw_same (s : State τ) (b b' : Buf) :
    ((s.iderw b).buf b').refcnt = (s.buf b').refcnt ∧ ((s.iderw b).buf b').lock = (s.buf b').lock ∧
      ((s.iderw b).buf b').dev = (s.buf b').dev ∧
      ((s.iderw b).buf b').blockno = (s.buf b').blockno := by
  by_cases hb' : b' = b
  · subst hb'
    simp only [iderw, set, update_self]
    split <;> exact ⟨rfl, rfl, rfl, rfl⟩
  · simp [iderw, set, hb']

omit [Fintype τ] in
theorem State.commit_same (s : State τ) (b b' : Buf) :
    ((s.commit b).buf b').refcnt = (s.buf b').refcnt ∧ ((s.commit b).buf b').lock = (s.buf b').lock ∧
      ((s.commit b).buf b').dev = (s.buf b').dev ∧
      ((s.commit b).buf b').blockno = (s.buf b').blockno := by
  by_cases hb' : b' = b
  · subst hb'
    simp [commit, set]
  · simp [commit, set, hb']

theorem Refs.step [DecidableEq τ] (h : Refs s) (hstep : Step s s') : Refs s' := by
  cases hstep with
  | panic => exact ⟨h.count, h.named, h.owned⟩
  | @hit t b dev n hpc hb =>
    simp only [State.holds, Bool.and_eq_true, decide_eq_true_eq] at hb
    refine h.of_update rfl rfl ?_ (fun b' hb' => ?_) (.inr ⟨rfl, rfl, fun _ _ hu => hu⟩)
      (fun b' dev' n' hblock => ?_) (by rintro _ ⟨⟩)
    · simp only [hpc, Pc.refers, decide_true, Bool.toNat_true, Bool.toNat_false]
      omega
    · simp [hpc, Pc.refers, hb'.symm]
    · cases hblock
      simpa [State.goto, State.set] using hb
  | @recycle t b dev n hpc hnone hb =>
    simp only [State.unused, Bool.and_eq_true, decide_eq_true_eq] at hb
    refine h.of_update rfl rfl ?_ (fun b' hb' => ?_) (.inl hb.1) (fun b' dev' n' hblock => ?_) (by rintro _ ⟨⟩)
    · simp only [hpc, Pc.refers, decide_true, Bool.toNat_true, Bool.toNat_false]
      omega
    · simp [hpc, Pc.refers, hb'.symm]
    · cases hblock
      simp [State.goto, State.set]
  | @lock t b dev n hpc hfree =>
    have hkey := h.named t b dev n (by rw [hpc]; rfl)
    refine h.of_update rfl rfl ?_ (fun b' hb' => ?_)
      (.inr ⟨rfl, rfl, fun u _ hu => by simp [hfree] at hu⟩) (fun b' dev' n' hblock => ?_)
      fun b' hb' => ?_
    · simp [hpc, hfree, Pc.refers]
    · simp [hpc, Pc.refers, hb'.symm]
    · cases hblock
      simpa [State.goto, State.set] using hkey
    · cases hb'
      simp [State.goto, State.set]
  | @test t b dev n hpc hvalid =>
    exact h.of_same rfl (fun _ => ⟨rfl, rfl, rfl, rfl⟩) (fun _ => by rw [hpc]; rfl) (.inl rfl) (by rintro _ ⟨⟩)
  | @miss t b dev n hpc hvalid =>
    refine h.of_same rfl (fun _ => ⟨rfl, rfl, rfl, rfl⟩) (fun _ => by rw [hpc]; rfl)
      (.inr (by rw [hpc]; rfl)) fun b' hb' => h.owned t b' ?_
    rw [hpc]
    exact hb'
  | @fill t b dev n hpc =>
    exact h.of_same rfl (s.iderw_same b) (fun _ => by rw [hpc]; rfl) (.inl rfl) (by rintro _ ⟨⟩)
  | @written t b hpc hwork =>
    exact h.of_same rfl (s.iderw_same b) (fun _ => by rw [hpc]; rfl) (.inl rfl) (by rintro _ ⟨⟩)
  | @unref t b hpc =>
    have hcount := h.count b
    have hrefers := refers_le_waiting s.pc t b
    simp only [hpc, Pc.refers, decide_true, Bool.toNat_true] at hrefers
    refine h.of_update rfl rfl ?_ (fun b' hb' => ?_) (.inr ⟨rfl, rfl, fun _ _ hu => hu⟩) (by intros; contradiction) (by intros; contradiction)
    · simp only [hpc, Pc.refers, decide_true, Bool.toNat_true, Bool.toNat_false]
      omega
    · simp [hpc, Pc.refers, hb'.symm]
  | @modify t b d hpc hlock =>
    refine h.of_same (t := t) (c := .user) ?_ (fun b' => ?_) (fun _ => by rw [hpc]) (.inl rfl) (by rintro _ ⟨⟩)
    · rw [← hpc, update_eq_self]
      rfl
    · by_cases hb' : b' = b
      · subst hb'
        simp [State.set]
      · simp [State.set, hb']
  | @logWrite t b hpc hlock =>
    refine h.of_same (t := t) (c := .user) ?_ (s.commit_same b) (fun _ => by rw [hpc]) (.inl rfl) (by rintro _ ⟨⟩)
    rw [← hpc, update_eq_self]
    rfl
  | @bwrite t b hpc hlock =>
    refine h.of_same rfl (s.commit_same b) (fun _ => by rw [hpc]; rfl) (.inl rfl) fun b' hb' => ?_
    cases hb'
    exact hlock
  | @brelse t b hpc hlock hchanged =>
    refine h.of_update rfl rfl ?_ (fun b' hb' => ?_) (.inr ⟨rfl, rfl, fun u hu hlock' => ?_⟩)
      (by intros; contradiction) (by intros; contradiction)
    · simp [hpc, hlock, Pc.refers]
    · simp [hpc, Pc.refers, hb'.symm]
    · rw [hlock] at hlock'
      exact absurd (Option.some.inj hlock').symm hu

omit [Fintype τ] in
theorem State.start_refs [Fintype τ] (disk : ℕ → ℕ → Log.Data) : Refs (State.start (τ := τ) disk) where
  count b := by simp [State.start, waiting, Pc.refers]
  named _ _ _ _ hblock := by cases hblock
  owned _ _ howns := by cases howns

end KThreads.Bcache
