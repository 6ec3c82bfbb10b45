import KThreads.Lib.Shares
import KThreads.Log.Recovery

/-!
# The log has room for the operations that `begin_op` admits

`begin_op` sets `MAXOPBLOCKS` blocks aside for each operation, of the `LOGSIZE` that
`struct logheader` can name. In the image that `mkfs` builds the header takes one of the
`LOGSIZE` blocks of the log, and `log_write` makes its test before it looks whether the
block is there already. So the room is enough for operations of one block less.
-/

namespace KThreads.Log

open Function (update update_of_ne)
open Transition (Reach anyStep)

variable {τ : Type*} [DecidableEq τ] {sb : Super} {disk : ℕ → Data} {s s' : State τ}

/-- `recover_from_log` runs from one state to another. -/
def Recovers (sb : Super) (s s' : State τ) : Prop :=
  ∃ k, Transition.exec (fun s l => s.next sb l) s (List.replicate k .recover) = some s'

section

variable {r : State τ}

theorem Recovers.refl : Recovers sb s s := ⟨0, rfl⟩

theorem Recovers.step (hstep : s.next sb .recover = some r) (h : Recovers sb r s') :
    Recovers sb s s' := by
  obtain ⟨k, hk⟩ := h
  exact ⟨k + 1, by simp [List.replicate_succ, Transition.exec, hstep, hk]⟩

theorem Recovers.inv [Fintype τ] (h : Recovers sb s s') (hinv : Inv sb disk s) :
    Inv sb disk s' := by
  obtain ⟨k, hk⟩ := h
  induction k generalizing s with
  | zero => exact Option.some.inj hk ▸ hinv
  | succ k ih =>
    obtain ⟨s₁, h₁, hrest⟩ := Option.bind_eq_some_iff.mp hk
    exact ih (hinv.next (l := .recover) trivial h₁) hrest

variable (sb) in
theorem exists_recovered_of_clearHead (hboot : s.boot = .clearHead) (hok : s.panicked = none) :
    ∃ s', Recovers sb s s' ∧ s'.boot = .up ∧ s'.committing = s.committing ∧
      s'.groups = s.groups := by
  refine ⟨_, .step (r := { s with
    store := s.store.write sb.start (putHead (s.store.mem sb.start) s.lh), boot := .up }) ?_ .refl,
    rfl, rfl, rfl⟩
  simp [State.next, State.recover, hboot, hok]

variable (sb) in
theorem exists_recovered_of_install {n : ℕ} : ∀ {s : State τ} {tail : ℕ},
    s.boot = .install tail → s.panicked = none → s.lh.length ≤ tail + n →
    ∃ s', Recovers sb s s' ∧ s'.boot = .up ∧ s'.committing = s.committing ∧
      s'.groups = s.groups := by
  induction n with
  | zero =>
    intro s tail hboot hok hlength
    have hend : s.lh[tail]? = none := List.getElem?_eq_none_iff.mpr hlength
    obtain ⟨s', hs', hrest⟩ := exists_recovered_of_clearHead sb
      (s := { s with lh := [], boot := .clearHead }) rfl hok
    exact ⟨s', .step (by simp [State.next, State.recover, hboot, hok, hend]) hs', hrest⟩
  | succ n ih =>
    intro s tail hboot hok hlength
    cases hb : s.lh[tail]? with
    | none =>
      obtain ⟨s', hs', hrest⟩ := exists_recovered_of_clearHead sb
        (s := { s with lh := [], boot := .clearHead }) rfl hok
      exact ⟨s', .step (by simp [State.next, State.recover, hboot, hok, hb]) hs', hrest⟩
    | some b =>
      obtain ⟨s', hs', hrest⟩ := ih (s := { s with
        store := s.store.write b (s.store.mem (sb.start + tail + 1))
        boot := .install (tail + 1) }) rfl hok (by simp only; omega)
      exact ⟨s', .step (by simp [State.next, State.recover, hboot, hok, hb]) hs', hrest⟩

theorem Inv.exists_recovered [Fintype τ] (h : Inv sb disk s) :
    ∃ s', Recovers sb s.crash s' ∧ s'.boot = .up ∧ s'.committing = false ∧
      s'.groups = s.groups := by
  have hlength : ¬LOGSIZE < (getHead (s.crash.store.mem sb.start)).length := by
    have hfits := h.sound_fits.1.durable.fits.length
    exact not_lt.mpr (hfits.trans (min_le_left _ _))
  obtain ⟨s', hs', hup, hc, hgroups⟩ := exists_recovered_of_install sb
    (s := { s.crash with lh := getHead (s.crash.store.mem sb.start), boot := .install 0 }) rfl rfl
    (Nat.le_add_left _ _)
  refine ⟨s', .step ?_ hs', hup, hc, hgroups⟩
  have hok : s.crash.panicked = none := rfl
  rw [State.next, State.recover, if_pos hok]
  exact congrArg some (if_neg hlength)

end

section

variable {l : Label τ} {b : ℕ}

theorem next_quiet (hnext : s.next sb l = some s') (hstep : ∀ t, l ≠ .step t)
    (hrecover : l ≠ .recover) : s'.store.disk = s.store.disk ∧ s'.groups = s.groups := by
  cases l with
  | beginOp t =>
    obtain ⟨-, -, -, -, rfl⟩ := State.of_next_beginOp hnext
    exact ⟨rfl, rfl⟩
  | logWrite t b d =>
    obtain ⟨-, -, -, ⟨rfl, -⟩ | ⟨rfl, -⟩ | rfl⟩ := State.of_next_logWrite hnext <;> exact ⟨rfl, rfl⟩
  | append t =>
    obtain ⟨b, d, -, -, rfl⟩ := State.of_next_append hnext
    rw [State.append]
    split <;> exact ⟨rfl, rfl⟩
  | endOp t =>
    obtain ⟨-, -, rfl⟩ := State.of_next_endOp hnext
    rw [State.endOp]
    split
    · exact ⟨rfl, rfl⟩
    · split <;> exact ⟨rfl, rfl⟩
  | step t => exact absurd rfl (hstep t)
  | recover => exact absurd rfl hrecover
  | crash =>
    cases hnext
    exact ⟨rfl, rfl⟩

/-- A step of `commit` or of `recover_from_log` writes the header, a slot or a block that it
installs. -/
inductive Writes (sb : Super) (s s' : State τ) : Prop
  | nothing (h : s'.store.disk = s.store.disk)
  | head {d : Data} (h : s'.store.disk = update s.store.disk sb.start d)
  | slot {t : τ} {tail : ℕ} {d : Data} (hpc : s.pc t = .writeLog tail) (hlt : tail < s.lh.length)
      (h : s'.store.disk = update s.store.disk (sb.start + tail + 1) d)
  | home {tail b : ℕ} {d : Data} (hb : s.lh[tail]? = some b)
      (hpc : (∃ t, s.pc t = .install tail) ∨ s.boot = .install tail)
      (h : s'.store.disk = update s.store.disk b d)

theorem writes_step {t : τ} (h : s.step sb t (s.pc t) = some s') :
    Writes sb s s' ∧ s.groups <+: s'.groups := by
  cases hpc : s.pc t with
  | user | op | logWrite b d =>
    rw [hpc] at h
    cases h
  | commit | finish =>
    rw [hpc] at h
    cases h
    exact ⟨.nothing rfl, List.prefix_rfl⟩
  | writeLog tail =>
    rw [hpc] at h
    cases h
    split
    · next b hb =>
      split
      · exact ⟨.nothing rfl, List.prefix_rfl⟩
      · exact ⟨.slot hpc (List.getElem?_eq_some_iff.mp hb).1 rfl, List.prefix_rfl⟩
    · exact ⟨.nothing rfl, List.prefix_rfl⟩
  | writeHead =>
    rw [hpc] at h
    cases h
    exact ⟨.head rfl, List.prefix_append _ _⟩
  | install tail =>
    rw [hpc] at h
    cases h
    split
    · next b hb => exact ⟨.home hb (.inl ⟨t, hpc⟩) rfl, List.prefix_rfl⟩
    · exact ⟨.nothing rfl, List.prefix_rfl⟩
  | clearHead =>
    rw [hpc] at h
    cases h
    exact ⟨.head rfl, List.prefix_rfl⟩

omit [DecidableEq τ] in
theorem writes_recover (h : s.recover sb = some s') : Writes sb s s' ∧ s'.groups = s.groups := by
  rw [State.recover] at h
  cases hboot : s.boot with
  | readHead =>
    rw [hboot] at h
    cases h
    split <;> exact ⟨.nothing rfl, rfl⟩
  | install tail =>
    rw [hboot] at h
    cases h
    split
    · next b hb => exact ⟨.home hb (.inr hboot) rfl, rfl⟩
    · exact ⟨.nothing rfl, rfl⟩
  | clearHead =>
    rw [hboot] at h
    cases h
    exact ⟨.head rfl, rfl⟩
  | up =>
    rw [hboot] at h
    cases h

theorem writes_next (hnext : s.next sb l = some s') :
    Writes sb s s' ∧ s.groups <+: s'.groups := by
  cases l with
  | step t => exact writes_step (State.of_next_step hnext).2
  | recover =>
    rw [State.next] at hnext
    split at hnext
    · obtain ⟨hwrites, hgroups⟩ := writes_recover hnext
      exact ⟨hwrites, by rw [hgroups]⟩
    · cases hnext
  | _ =>
    obtain ⟨hdisk, hgroups⟩ := next_quiet hnext (by simp) (by simp)
    exact ⟨.nothing hdisk, by rw [hgroups]⟩

omit [DecidableEq τ] in
theorem Inv.headed_of_write [Fintype τ] (h : Inv sb disk s) (hwrites : Writes sb s s')
    (hb : sb.IsHome b) (hne : s'.store.disk b ≠ s.store.disk b) :
    b ∈ sb.layout.headed s.store.disk := by
  cases hwrites with
  | nothing hdisk =>
    rw [hdisk] at hne
    exact absurd rfl hne
  | head hdisk =>
    have hhead : b ≠ sb.start := sb.layout.home_ne_head hb
    rw [hdisk, update_of_ne hhead] at hne
    exact absurd rfl hne
  | @slot t tail d hpc hlt hdisk =>
    have hfacts := h.busy t
    rw [hpc] at hfacts
    have hslot : b ≠ sb.start + tail + 1 :=
      sb.layout.home_ne_slot hb (Nat.lt_of_lt_of_le hlt hfacts.fits.length)
    rw [hdisk, update_of_ne hslot] at hne
    exact absurd rfl hne
  | @home tail b' d hmem hpc hdisk =>
    have heq : b = b' := by
      by_contra hbb'
      rw [hdisk, update_of_ne hbb'] at hne
      exact hne rfl
    have hinstalling : sb.layout.headed s.store.disk = s.lh := by
      rcases hpc with ⟨t, hpc⟩ | hboot
      · have hfacts := h.busy t
        rw [hpc] at hfacts
        exact hfacts.1.headed
      · have hfacts := h.boot
        rw [hboot] at hfacts
        exact hfacts.1.headed
    rw [hinstalling, heq]
    exact List.mem_of_getElem? hmem

end

/-- **Crash recovery.** On a disk with an empty log, in every run whose appends find room:
behind a crash, `recover_from_log` comes to its end and leaves each block with the contents
that all the groups with a header have given it; while a thread commits no operation is in
progress, and when `commit` returns everything that was logged is in a group; a step keeps
the groups, and it writes no block but those that the header on the disk names, which are
blocks of the last group. -/
theorem recovery_applies_groups (τ : Type*) [DecidableEq τ] [Fintype τ] (sb : Super)
    (disk : ℕ → Data) (hdisk : sb.layout.headed disk = []) (s : State τ)
    (h : Reach (machine τ sb disk) (hasRoom sb) s) :
    (∃ s', Recovers sb s.crash s' ∧ s'.boot = .up ∧
      ∀ b, sb.IsHome b → s'.store.disk b = applyWrites disk s.groups.flatten b) ∧
    (∀ t, (s.pc t).busy = true → ∀ u, (s.pc u).inOp = false) ∧
    (∀ t, s.pc t = .finish → s.pending = []) ∧
    ∀ l s', s.next sb l = some s' → s.groups <+: s'.groups ∧
      ∀ b, sb.IsHome b → s'.store.disk b ≠ s.store.disk b →
        b ∈ sb.layout.headed s.store.disk ∧ ∃ d, (b, d) ∈ s.groups.getLastD [] := by
  have hinv := inv_of_reach hdisk h
  refine ⟨?_, fun t ht => hinv.no_op_of_busy ht, fun t ht => ?_, fun l s' hnext => ?_⟩
  · obtain ⟨s', hs', hup, hc, hgroups⟩ := hinv.exists_recovered
    have hgathered := ((hs'.inv hinv.crash).idle hup hc).2
    refine ⟨s', hs', hup, fun b hb => ?_⟩
    rw [← hgroups]
    exact hgathered.durable.rest b hb (by simp [hgathered.empty])
  · have hfacts := hinv.busy t
    rw [ht] at hfacts
    obtain ⟨hgathered, hlh⟩ := hfacts
    -- Every write that is pending is to a block of the list, which is empty.
    refine List.eq_nil_iff_forall_not_mem.mpr fun w hw => ?_
    simpa [hlh] using (hgathered.written w.1).mpr ⟨w.2, hw⟩
  · obtain ⟨hwrites, hgroups⟩ := writes_next hnext
    refine ⟨hgroups, fun b hb hne => ?_⟩
    have hheaded := hinv.headed_of_write hwrites hb hne
    exact ⟨hheaded, hinv.header b hheaded⟩

section

/-- A disk with nothing on it. -/
def blank : ℕ → Data := fun _ _ => 0

/-- A thread logs some blocks, with all words 1. -/
def logs (t : τ) (blocks : List ℕ) : List (Label τ) :=
  blocks.flatMap fun b => [.logWrite t b fun _ => 1, .append t]

/-- The machine starts with an empty log. -/
def startUp : List (Label τ) := List.replicate 3 .recover

omit [DecidableEq τ] in
theorem headed_blank : mkfsLog.layout.headed blank = [] := by decide

theorem machine_step (sb : Super) (disk : ℕ → Data) (s : State τ) (l : Label τ) (s' : State τ)
    (h : s.next sb l = some s') : (machine τ sb disk).step s l s' := h

/-- **Commits.** `outstanding` counts the operations in progress. While a thread commits there is
none, and the others are outside the log. -/
theorem commit_alone [Fintype τ] {sb : Super} {disk : ℕ → Data} {s : State τ}
    (hdisk : sb.layout.headed disk = []) (h : Reach (machine τ sb disk) (hasRoom sb) s) :
    s.outstanding = (Finset.univ.filter fun t => (s.pc t).inOp = true).card ∧
      ∀ t, (s.pc t).busy = true → s.outstanding = 0 ∧ ∀ u, u ≠ t → s.pc u = .user := by
  have hinv := inv_of_reach hdisk h
  refine ⟨hinv.outstanding, fun t ht => ⟨?_, (hinv.lone t ht).2⟩⟩
  rw [hinv.outstanding, Finset.card_eq_zero, Finset.filter_eq_empty_iff]
  simp [hinv.no_op_of_busy ht]

theorem commit_alone_two : ∃ s : State (Fin 2), (s.pc 0).busy = true ∧ s.pc 1 = .user := by
  obtain ⟨s, -, hr, hs⟩ := Reach.exists_of_execWhile (machine_step mkfsLog blank) rfl
    (hasRoom mkfsLog) (startUp ++ [.beginOp (0 : Fin 2), .beginOp 1, .endOp 1, .endOp 0])
    (fun s => (s.pc 0).busy = true) (by decide)
  exact ⟨s, hs, ((commit_alone headed_blank hr).2 0 hs).2 1 (by decide)⟩

/-- A crash comes when one of two blocks has been installed, and another one while the
machine recovers. -/
theorem recovery_applies_groups_twice : ∃ s : State (Fin 2),
    Reach (machine (Fin 2) mkfsLog blank) (hasRoom mkfsLog) s ∧ s.boot = .install 1 ∧
      s.store.disk 101 0 = 0 ∧
      ∃ s', Recovers mkfsLog s.crash s' ∧
        s'.store.disk 101 = applyWrites blank s.groups.flatten 101 := by
  obtain ⟨s, -, hr, hboot, hdisk⟩ := Reach.exists_of_execWhile (machine_step mkfsLog blank) rfl
    (hasRoom mkfsLog)
    (startUp ++ [.beginOp 0, .beginOp 1] ++ logs 0 [100] ++ logs 1 [101] ++ [.endOp 0, .endOp 1] ++
      List.replicate 6 (.step 1) ++ [.crash, .recover, .recover])
    (fun s : State (Fin 2) => s.boot = .install 1 ∧ s.store.disk 101 0 = 0) (by decide)
  obtain ⟨s', hs', -, hhome⟩ := (recovery_applies_groups (Fin 2) mkfsLog blank headed_blank s hr).1
  exact ⟨s, hr, hboot, hdisk, s', hs', hhome 101 (by decide)⟩

/-- A log of one block less than that of `mkfs`. -/
def shortLog : Super where
  start := 2
  size := LOGSIZE - 1
  size_pos := by decide

/-- Three operations of ten blocks at most. When the list has 27 blocks two threads make the test
of `log_write`, and both append: the last slot is the first block behind the log, which
`write_log` changes before there is a header. The 29 blocks leave it one buffer. -/
theorem write_log_leaves_log : ∃ s s' : State (Fin 3),
    Reach (machine (Fin 3) shortLog blank) anyStep s ∧ s.groups = [] ∧
      shortLog.layout.headed s.store.disk = [] ∧ shortLog.IsHome 31 ∧
      Recovers shortLog s.crash s' ∧ s'.boot = .up ∧ s'.store.disk 31 ≠ blank 31 := by
  obtain ⟨s, -, hr, hgroups, hheaded, hany⟩ := Reach.exists_of_exec (machine_step shortLog blank) rfl
    (startUp ++ [.beginOp 0, .beginOp 1, .beginOp 2] ++ logs 0 (List.range' 100 9) ++
      logs 1 (List.range' 200 9) ++ logs 2 (List.range' 300 9) ++
      [.logWrite 1 209 fun _ => 1, .logWrite 2 309 fun _ => 1, .append 1, .append 2,
        .endOp 0, .endOp 1, .endOp 2] ++ List.replicate 30 (.step 2))
    (fun s : State (Fin 3) => s.groups.length = 0 ∧ shortLog.layout.headed s.store.disk = [] ∧
      (Transition.exec (fun s l => s.next shortLog l) s.crash startUp).any
        fun s' => decide (s'.boot = .up ∧ s'.store.disk 31 0 = 1)) (by decide +kernel)
  obtain ⟨s', hs', hboot⟩ := (Option.any_eq_true _ _).mp hany
  obtain ⟨hup, hblock⟩ := of_decide_eq_true hboot
  refine ⟨s, s', hr, List.eq_nil_of_length_eq_zero hgroups, hheaded, by decide, ⟨3, hs'⟩, hup, ?_⟩
  intro heq
  rw [heq] at hblock
  exact absurd hblock (by decide)

end

end KThreads.Log

namespace KThreads.Log

open Function (update update_eq_self update_of_ne update_self)
open Transition (Reach)

variable {τ : Type*} [DecidableEq τ]

/-- An operation logs at most `n` blocks. -/
def logsAtMost (n : ℕ) (s : State τ) : Label τ → Prop
  | .logWrite t b _ => (insert b (s.logged t)).card ≤ n
  | _ => True

instance (n : ℕ) (s : State τ) (l : Label τ) : Decidable (logsAtMost n s l) := by
  unfold logsAtMost
  induction l using Label.casesOn <;> dsimp only <;> infer_instance

/-- What an operation may still log. -/
def share (n : ℕ) (c : Pc) (logged : Finset ℕ) : ℕ := if c.inOp then n - logged.card else 0

variable [Fintype τ] {n : ℕ} {sb : Super} {disk : ℕ → Data} {s s' : State τ} {t : τ} {l : Label τ}

/-- What all operations may still log. -/
def reserved (n : ℕ) (pc : τ → Pc) (logged : τ → Finset ℕ) : ℕ := ∑ t, share n (pc t) (logged t)

/-- What holds of the room in the log while operations log one block less than
`MAXOPBLOCKS`. -/
structure Roomy (s : State τ) : Prop where
  running : s.panicked = none
  logged : ∀ t, (s.pc t).inOp = true → ∀ b ∈ s.logged t, b ∈ s.lh
  few : ∀ t b d, s.pc t = .logWrite b d → (insert b (s.logged t)).card ≤ MAXOPBLOCKS - 1
  empty : s.boot = .up → s.committing = false → s.outstanding = 0 → s.lh = []
  room : s.boot = .up → s.committing = false →
    s.lh.length + reserved (MAXOPBLOCKS - 1) s.pc s.logged + 2 ≤ LOGSIZE

section

variable (n t) (pc : τ → Pc) (logged : τ → Finset ℕ)

theorem reserved_update (c : Pc) (blocks : Finset ℕ) :
    reserved n (update pc t c) (update logged t blocks) +
      share n (pc t) (logged t) = reserved n pc logged + share n c blocks := by
  have hchange := Shares.sum_change (x := t) (f := fun u => share n (pc u) (logged u))
    (g := fun u => share n (update pc t c u) (update logged t blocks u))
    fun u hu => by rw [update_of_ne hu, update_of_ne hu]
  simpa [reserved] using hchange

theorem reserved_update_pc (c : Pc) :
    reserved n (update pc t c) logged + share n (pc t) (logged t) =
      reserved n pc logged + share n c (logged t) := by
  have h := reserved_update n t pc logged c (logged t)
  rwa [update_eq_self] at h

end

omit [DecidableEq τ] in
theorem reserved_le (h : Inv sb disk s) : reserved n s.pc s.logged ≤ s.outstanding * n := by
  rw [h.outstanding]
  exact Shares.sum_ite_le fun t _ => Nat.sub_le _ _

theorem room_of_admitted {length outstanding reserved : ℕ}
    (hadmitted : length + (outstanding + 1) * MAXOPBLOCKS ≤ LOGSIZE)
    (hreserved : reserved ≤ outstanding * (MAXOPBLOCKS - 1)) (hempty : outstanding = 0 → length = 0) :
    length + (reserved + (MAXOPBLOCKS - 1)) + 2 ≤ LOGSIZE := by
  simp only [MAXOPBLOCKS, LOGSIZE] at *
  omega

omit [DecidableEq τ] in
theorem Roomy.of_no_op (hnone : ∀ t, (s.pc t).inOp = false) (hrunning : s.panicked = none)
    (hempty : s.boot = .up → s.committing = false → s.lh = []) : Roomy s where
  running := hrunning
  logged t ht := by simp [hnone t] at ht
  few t b d ht := by simpa [ht, Pc.inOp] using hnone t
  empty hup hc _ := hempty hup hc
  room hup hc := by
    have hzero : reserved (MAXOPBLOCKS - 1) s.pc s.logged = 0 := by simp [reserved, share, hnone]
    rw [hempty hup hc, hzero]
    decide

omit [DecidableEq τ] in
theorem Inv.one_le_outstanding (h : Inv sb disk s) (ht : (s.pc t).inOp = true) :
    1 ≤ s.outstanding := by
  rw [h.outstanding, Nat.one_le_iff_ne_zero, Finset.card_ne_zero]
  exact ⟨t, by simpa using ht⟩

theorem Roomy.beginOp (hinv : Inv sb disk s) (h : Roomy s)
    (hnext : s.next sb (.beginOp t) = some s') : Roomy s' := by
  obtain ⟨hpc, hruns, hc, hadmitted, rfl⟩ := State.of_next_beginOp hnext
  refine ⟨h.running, fun u hu b hb => ?_, fun u b d hu => ?_, fun _ _ hout => ?_, fun _ _ => ?_⟩
  · by_cases hut : u = t
    · simp [State.goto, hut] at hb
    · exact h.logged u (by simpa [hut] using hu) b (by simpa [State.goto, hut] using hb)
  · by_cases hut : u = t
    · simp [hut] at hu
    · simpa [State.goto, hut] using h.few u b d (by simpa [hut] using hu)
  · cases hout
  · have hchange := reserved_update (MAXOPBLOCKS - 1) t s.pc s.logged .op ∅
    have hold : share (MAXOPBLOCKS - 1) (s.pc t) (s.logged t) = 0 := by simp [share, hpc, Pc.inOp]
    have hnew : share (MAXOPBLOCKS - 1) .op ∅ = MAXOPBLOCKS - 1 := rfl
    rw [hold, hnew, Nat.add_zero] at hchange
    simp only [State.goto, hchange]
    exact room_of_admitted hadmitted (reserved_le hinv) fun hout => by
      rw [h.empty hruns.1 hc hout, List.length_nil]

theorem Roomy.logWrite {b : ℕ} {d : Data} (hinv : Inv sb disk s) (h : Roomy s)
    (hsize : sb.size = LOGSIZE) (hfew : logsAtMost (MAXOPBLOCKS - 1) s (.logWrite t b d))
    (hnext : s.next sb (.logWrite t b d) = some s') : Roomy s' := by
  obtain ⟨hpc, hruns, -, hcases⟩ := State.of_next_logWrite hnext
  have hin : (s.pc t).inOp = true := by rw [hpc]; rfl
  have hroom := h.room hruns.1 (hinv.not_committing hin)
  obtain ⟨-, hbig⟩ | ⟨-, hout⟩ | rfl := hcases
  · omega
  · have := hinv.one_le_outstanding hin
    omega
  · refine ⟨h.running, fun u hu => ?_, fun u b' d' hu => ?_, h.empty, fun _ _ => ?_⟩
    · by_cases hut : u = t
      · subst hut
        exact h.logged u hin
      · exact h.logged u (by simpa [hut] using hu)
    · by_cases hut : u = t
      · subst hut
        simp only [State.goto_pc, update_self, Pc.logWrite.injEq] at hu
        obtain ⟨rfl, -⟩ := hu
        exact hfew
      · exact h.few u b' d' (by simpa [hut] using hu)
    · have hchange := reserved_update_pc (MAXOPBLOCKS - 1) t s.pc s.logged (.logWrite b d)
      have hsame : share (MAXOPBLOCKS - 1) (.logWrite b d) (s.logged t) =
          share (MAXOPBLOCKS - 1) (s.pc t) (s.logged t) := by
        rw [hpc]
        rfl
      rw [hsame] at hchange
      simp only [State.goto]
      omega

theorem Roomy.append (hinv : Inv sb disk s) (h : Roomy s)
    (hnext : s.next sb (.append t) = some s') : Roomy s' := by
  obtain ⟨b, d, hpc, hruns, rfl⟩ := State.of_next_append hnext
  have hin : (s.pc t).inOp = true := by rw [hpc]; rfl
  have hroom := h.room hruns.1 (hinv.not_committing hin)
  have hout := hinv.one_le_outstanding hin
  have hfew := h.few t b d hpc
  have hlh : ∀ b', b' ∈ (if b ∈ s.lh then s.lh else s.lh ++ [b]) ↔ b' ∈ s.lh ∨ b' = b := by
    intro b'
    split
    · next hb =>
      constructor
      · exact Or.inl
      · rintro (hb' | rfl) <;> assumption
    · simp
  rw [State.append, if_neg (by omega)]
  refine ⟨h.running, fun u hu b' hb' => (hlh b').mpr ?_, fun u b' d' hu => ?_,
    fun _ _ hzero => ?_, fun _ _ => ?_⟩
  · by_cases hut : u = t
    · subst hut
      simp only [State.goto, update_self, Finset.mem_insert] at hb'
      exact hb'.symm.imp_left (h.logged u hin b')
    · exact .inl (h.logged u (by simpa [hut] using hu) b' (by simpa [State.goto, hut] using hb'))
  · by_cases hut : u = t
    · simp [hut] at hu
    · simpa [State.goto, hut] using h.few u b' d' (by simpa [hut] using hu)
  · simp only [State.goto] at hzero
    omega
  · have hchange := reserved_update (MAXOPBLOCKS - 1) t s.pc s.logged .op (insert b (s.logged t))
    simp only [share, hpc, Pc.inOp, if_true] at hchange
    simp only [State.goto]
    split
    · have hcard := Finset.card_le_card (Finset.subset_insert b (s.logged t))
      omega
    · next hnew =>
      have hcard := Finset.card_insert_of_notMem fun hb => hnew (h.logged t hin b hb)
      rw [List.length_append, List.length_singleton]
      omega

theorem Roomy.endOp (hinv : Inv sb disk s) (h : Roomy s)
    (hnext : s.next sb (.endOp t) = some s') : Roomy s' := by
  obtain ⟨hpc, hruns, rfl⟩ := State.of_next_endOp hnext
  have hin : (s.pc t).inOp = true := by rw [hpc]; rfl
  have hc := hinv.not_committing hin
  rw [State.endOp, if_neg (by simp [hc])]
  split
  · next hlast =>
    refine .of_no_op (fun u => ?_) h.running fun _ hc' => by cases hc'
    by_cases hut : u = t
    · simp [hut, Pc.inOp]
    · simp [hut, hinv.alone hruns.1 hin hlast u hut, Pc.inOp]
  · next hmore =>
    refine ⟨h.running, fun u hu => ?_, fun u b d hu => ?_, fun _ _ hzero => absurd hzero hmore,
      fun _ _ => ?_⟩
    · by_cases hut : u = t
      · simp [hut, Pc.inOp] at hu
      · exact h.logged u (by simpa [hut] using hu)
    · by_cases hut : u = t
      · simp [hut] at hu
      · exact h.few u b d (by simpa [hut] using hu)
    · have hroom := h.room hruns.1 hc
      have hchange := reserved_update_pc (MAXOPBLOCKS - 1) t s.pc s.logged .user
      have hnew : share (MAXOPBLOCKS - 1) .user (s.logged t) = 0 := rfl
      rw [hnew] at hchange
      simp only [State.goto]
      omega

omit [Fintype τ] in
theorem of_step (hlh : s.lh.length < NBUF) (h : s.step sb t (s.pc t) = some s') :
    (s.pc t).busy = true ∧ s'.panicked = s.panicked ∧
      ∃ c, s'.pc = update s.pc t c ∧ c.inOp = false ∧
        (s'.committing = s.committing ∨ s.pc t = .finish ∧ s'.lh = s.lh) := by
  cases hpc : s.pc t with
  | user | op | logWrite b d =>
    rw [hpc] at h
    cases h
  | commit =>
    rw [hpc] at h
    cases h
    refine ⟨rfl, rfl, _, rfl, ?_, .inl rfl⟩
    split <;> rfl
  | writeLog tail =>
    simp only [hpc, State.step, if_neg (Nat.not_le.mpr hlh)] at h
    cases h
    split <;> exact ⟨rfl, rfl, _, rfl, rfl, .inl rfl⟩
  | install tail =>
    rw [hpc] at h
    cases h
    split <;> exact ⟨rfl, rfl, _, rfl, rfl, .inl rfl⟩
  | writeHead | clearHead =>
    rw [hpc] at h
    cases h
    exact ⟨rfl, rfl, _, rfl, rfl, .inl rfl⟩
  | finish =>
    rw [hpc] at h
    cases h
    exact ⟨rfl, rfl, _, rfl, rfl, .inr ⟨rfl, rfl⟩⟩

theorem Roomy.step (hinv : Inv sb disk s) (h : Roomy s) (hsize : sb.size = LOGSIZE)
    (hnext : s.next sb (.step t) = some s') : Roomy s' := by
  have hlh : s.lh.length < NBUF := by
    have hcap : s.lh.length ≤ sb.size - 1 := hinv.sound_fits.2.length.trans (min_le_right _ _)
    rw [hsize] at hcap
    exact hcap.trans_lt (by decide)
  obtain ⟨hbusy, hrunning, c, hpc, hc, hleave⟩ := of_step hlh (State.of_next_step hnext).2
  refine .of_no_op (fun u => ?_) (hrunning.trans h.running) fun _ hfalse => ?_
  · rw [hpc]
    by_cases hut : u = t
    · rw [hut, update_self, hc]
    · rw [update_of_ne hut]
      exact hinv.no_op_of_busy hbusy u
  · rcases hleave with hsame | ⟨hfinish, hlh⟩
    · rw [hsame, (hinv.lone t hbusy).1] at hfalse
      cases hfalse
    · have hfacts := hinv.busy t
      rw [hfinish] at hfacts
      rw [hlh]
      exact hfacts.2

omit [DecidableEq τ] in
theorem Roomy.recover (hinv : Inv sb disk s) (h : Roomy s)
    (hnext : s.recover sb = some s') : Roomy s' := by
  have hdown : s.boot ≠ .up := by
    intro hup
    rw [State.recover, hup] at hnext
    cases hnext
  have hnone : ∀ t, (s.pc t).inOp = false := fun t => by rw [(hinv.down hdown).2 t]; rfl
  have hfacts := hinv.boot
  rw [State.recover] at hnext
  cases hboot : s.boot with
  | readHead =>
    rw [hboot] at hnext hfacts
    have hfits : (getHead (s.store.mem sb.start)).length ≤ LOGSIZE := by
      rw [hfacts.2.1]
      exact hfacts.1.durable.fits.length.trans (min_le_left _ _)
    cases hnext
    rw [if_neg (not_lt.mpr hfits)]
    exact .of_no_op hnone h.running (by simp)
  | install tail =>
    rw [hboot] at hnext
    cases hnext
    split <;> exact .of_no_op hnone h.running (by simp)
  | clearHead =>
    rw [hboot] at hnext hfacts
    cases hnext
    exact .of_no_op hnone h.running fun _ _ => hfacts.2.1
  | up => exact absurd hboot hdown

theorem Roomy.hasRoom (hinv : Inv sb disk s) (h : Roomy s) (hsize : sb.size = LOGSIZE)
    (hnext : s.next sb l = some s') : hasRoom sb s l := by
  cases l with
  | append t =>
    obtain ⟨b, d, hpc, hruns, -⟩ := State.of_next_append hnext
    have hroom := h.room hruns.1 (hinv.not_committing (t := t) (by rw [hpc]; rfl))
    simp only [Log.hasRoom, hpc]
    exact .inr ⟨by omega, by omega⟩
  | _ => trivial

theorem Roomy.next (hinv : Inv sb disk s) (h : Roomy s) (hsize : sb.size = LOGSIZE)
    (hfew : logsAtMost (MAXOPBLOCKS - 1) s l) (hnext : s.next sb l = some s') : Roomy s' := by
  cases l with
  | beginOp t => exact .beginOp hinv h hnext
  | logWrite t b d => exact .logWrite hinv h hsize hfew hnext
  | append t => exact .append hinv h hnext
  | endOp t => exact .endOp hinv h hnext
  | step t => exact .step hinv h hsize hnext
  | recover =>
    rw [State.next] at hnext
    split at hnext
    · exact .recover hinv h hnext
    · cases hnext
  | crash =>
    cases hnext
    exact .of_no_op (fun _ => rfl) rfl (by rintro ⟨⟩)

theorem roomy_of_reach (hdisk : sb.layout.headed disk = []) (hsize : sb.size = LOGSIZE)
    (h : Reach (machine τ sb disk) (logsAtMost (MAXOPBLOCKS - 1)) s) :
    Inv sb disk s ∧ Roomy s := by
  refine h.invariant (P := fun s => Inv sb disk s ∧ Roomy s) ?_ fun s l s' _ hs hfew hnext => ?_
  · rintro s rfl
    exact ⟨.start hdisk, .of_no_op (fun _ => rfl) rfl nofun⟩
  · obtain ⟨hinv, hroomy⟩ := hs
    exact ⟨hinv.next (hroomy.hasRoom hinv hsize hnext) hnext, hroomy.next hinv hsize hfew hnext⟩

/-- **Log capacity.** On an image whose log has `LOGSIZE` blocks, in every run whose
operations log at most `MAXOPBLOCKS - 1` blocks: the machine does not panic, and the slot
of every block in the list is one of the blocks of the log. -/
theorem log_has_room (τ : Type*) [DecidableEq τ] [Fintype τ] (sb : Super) (disk : ℕ → Data)
    (hsize : sb.size = LOGSIZE) (hdisk : sb.layout.headed disk = []) (s : State τ)
    (h : Reach (machine τ sb disk) (logsAtMost (MAXOPBLOCKS - 1)) s) :
    s.panicked = none ∧
      ∀ tail, tail < s.lh.length → sb.start + 1 + tail < sb.start + sb.size := by
  obtain ⟨hinv, hroomy⟩ := roomy_of_reach hdisk hsize h
  refine ⟨hroomy.running, fun tail htail => ?_⟩
  have hcap : s.lh.length ≤ sb.size - 1 := hinv.sound_fits.2.length.trans (min_le_right _ _)
  omega

/-- Three operations log nine blocks each. -/
theorem log_has_room_three : ∃ s : State (Fin 3),
    Reach (machine (Fin 3) mkfsLog blank) (logsAtMost (MAXOPBLOCKS - 1)) s ∧ s.lh.length = 27 ∧
      s.panicked = none ∧
      ∀ tail, tail < s.lh.length → mkfsLog.start + 1 + tail < mkfsLog.start + mkfsLog.size := by
  obtain ⟨s, -, hr, hlength⟩ := Reach.exists_of_execWhile (machine_step mkfsLog blank) rfl
    (logsAtMost (MAXOPBLOCKS - 1))
    (startUp ++ [.beginOp 0, .beginOp 1, .beginOp 2] ++ logs 0 (List.range' 100 9) ++
      logs 1 (List.range' 200 9) ++ logs 2 (List.range' 300 9))
    (fun s : State (Fin 3) => s.lh.length = 27) (by decide)
  exact ⟨s, hr, hlength, log_has_room (Fin 3) mkfsLog blank rfl headed_blank s hr⟩

/-- Three operations of ten blocks are admitted. The one that comes to its last block when
the others are done with theirs finds 29 blocks and panics; when two of them make the test
at 28 blocks, both append, and the last slot is behind the log. -/
theorem log_overflows :
    (∃ s : State (Fin 3), Reach (machine (Fin 3) mkfsLog blank) (logsAtMost MAXOPBLOCKS) s ∧
      s.panicked = some .tooBig) ∧
    ∃ s : State (Fin 3), Reach (machine (Fin 3) mkfsLog blank) (logsAtMost MAXOPBLOCKS) s ∧
      29 < s.lh.length ∧ ¬mkfsLog.start + 1 + 29 < mkfsLog.start + mkfsLog.size := by
  constructor
  · obtain ⟨s, -, hr, hpanicked⟩ := Reach.exists_of_execWhile (machine_step mkfsLog blank) rfl
      (logsAtMost MAXOPBLOCKS)
      (startUp ++ [.beginOp 0, .beginOp 1, .beginOp 2] ++ logs 0 (List.range' 100 10) ++
        logs 1 (List.range' 200 10) ++ logs 2 (List.range' 300 9) ++ [.logWrite 2 309 fun _ => 1])
      (fun s : State (Fin 3) => s.panicked = some .tooBig) (by decide +kernel)
    exact ⟨s, hr, hpanicked⟩
  · obtain ⟨s, -, hr, hlength⟩ := Reach.exists_of_execWhile (machine_step mkfsLog blank) rfl
      (logsAtMost MAXOPBLOCKS)
      (startUp ++ [.beginOp 0, .beginOp 1, .beginOp 2] ++ logs 0 (List.range' 100 10) ++
        logs 1 (List.range' 200 9) ++ logs 2 (List.range' 300 9) ++
        [.logWrite 1 209 fun _ => 1, .logWrite 2 309 fun _ => 1, .append 1, .append 2])
      (fun s : State (Fin 3) => 29 < s.lh.length) (by decide)
    exact ⟨s, hr, hlength, by decide⟩

end KThreads.Log
