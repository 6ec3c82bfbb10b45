import Mathlib
import KThreads.Lib.Interleaving
import KThreads.Lib.RefCount

/-!
# The working directory of a process

The threads of a process share the pointer `process->cwd` and the reference that
goes with it. `namex` and `fork` read the pointer under the `cwdlock` and call
`idup` after they have released it; `sys_chdir` reads the pointer in one section,
gives its reference back with `iput`, and writes the pointer in another section.

Between the last two steps the pointer has no reference. The references are
accounted for in every state of a process whose calls do not overlap there.
-/

namespace KThreads.Directory

open Function (update update_apply update_self)
open RefCount (loose)
open Transition (Reach anyStep)

/-- What the threads share: the reference counts of the inode cache, the working
directory of the process, and the number of open files and of working
directories of other processes that point to an entry. -/
structure Shared (ι : Type*) where
  ref : ι → ℤ
  cwd : ι
  others : ι → ℕ

/-- What a path is looked up for: for `chdir`, or to open the file. -/
inductive Goal
  | chdir
  | open
  deriving DecidableEq

/-- Where a thread is in its call. -/
inductive Pc (ι : Type*)
  | user
  /-- `namex` reads `process->cwd` under the `cwdlock`. -/
  | readCwd (g : Goal)
  /-- `ip = idup(cwd)` in `namex`. -/
  | dup (cwd : ι) (g : Goal)
  /-- The loop of `namex`, with a reference to `ip`. -/
  | walk (ip : ι) (g : Goal)
  /-- `iunlockput(ip)` in the loop, once `dirlookup` has returned `next`. -/
  | step (ip next : ι) (g : Goal)
  /-- `iput(ip)` of a call that fails. -/
  | fail (ip : ι)
  /-- `sys_chdir` reads `oldwd` under the `cwdlock`. -/
  | readOld (ip : ι)
  /-- `iput(oldwd)` in `sys_chdir`. -/
  | putOld (ip oldwd : ι)
  /-- `sys_chdir` writes `process->cwd` under the `cwdlock`. -/
  | install (ip : ι)
  /-- `fork` reads `process->cwd` under the `cwdlock`. -/
  | forkCwd
  /-- `np->cwd = idup(cwd)` in `fork`. -/
  | forkDup (cwd : ι)
  deriving DecidableEq

/-- What a thread does next. A path starts at the root, whose entry of the cache
is given, or at the working directory. -/
inductive Event (ι : Type*)
  | call (g : Goal) (root : Option ι)
  | fork
  /-- An open file is closed, or another process drops its working directory. -/
  | close (i : ι)
  | run
  /-- `dirlookup` finds the next name of the path in the entry `i`. -/
  | next (i : ι)
  /-- The call fails here. -/
  | stop
  /-- The path ends here. -/
  | found

section

variable {ι : Type*} [DecidableEq ι]

/-- `ip->ref++`. -/
def Shared.idup (s : Shared ι) (i : ι) : Shared ι := { s with ref := update s.ref i (s.ref i + 1) }

/-- `ip->ref--`. -/
def Shared.iput (s : Shared ι) (i : ι) : Shared ι := { s with ref := update s.ref i (s.ref i - 1) }

/-- `iget` finds the inode in an entry with `ref > 0`, or takes one with `ref == 0`
for it. -/
def Shared.iget (s : Shared ι) (i : ι) : Option (Shared ι) :=
  if 0 ≤ s.ref i then some (s.idup i) else none

/-- A pointer to an entry, of an open file or of another process, is made. -/
def Shared.attach (s : Shared ι) (i : ι) : Shared ι :=
  { s with others := update s.others i (s.others i + 1) }

/-- A pointer to an entry is given up. -/
def Shared.detach (s : Shared ι) (i : ι) : Shared ι :=
  { s with others := update s.others i (s.others i - 1) }

/-- The step of a thread. -/
def act {τ : Type*} (s : Shared ι) (_t : τ) : Pc ι → Event ι → Option (Shared ι × Pc ι)
  | .user, .call g none => some (s, .readCwd g)
  | .user, .call g (some i) => (s.iget i).map fun s' => (s', .walk i g)
  | .user, .fork => some (s, .forkCwd)
  | .user, .close i => if s.others i = 0 then none else some ((s.detach i).iput i, .user)
  | .readCwd g, .run => some (s, .dup s.cwd g)
  | .dup cwd g, .run => some (s.idup cwd, .walk cwd g)
  -- `ilock` panics without a reference.
  | .walk ip g, .next i =>
      if 1 ≤ s.ref ip then (s.iget i).map fun s' => (s', .step ip i g) else none
  | .walk ip _, .stop => if 1 ≤ s.ref ip then some (s, .fail ip) else none
  | .walk ip .chdir, .found => if 1 ≤ s.ref ip then some (s, .readOld ip) else none
  | .walk ip .open, .found => if 1 ≤ s.ref ip then some (s.attach ip, .user) else none
  | .step ip next g, .run => some (s.iput ip, .walk next g)
  | .fail ip, .run => some (s.iput ip, .user)
  | .readOld ip, .run => some (s, .putOld ip s.cwd)
  | .putOld ip oldwd, .run => some (s.iput oldwd, .install ip)
  | .install ip, .run => some ({ s with cwd := ip }, .user)
  | .forkCwd, .run => some (s, .forkDup s.cwd)
  | .forkDup cwd, .run => some ((s.idup cwd).attach cwd, .user)
  | _, _ => none

end

/-- The references that a thread holds in its call. -/
def Pc.refs {ι : Type*} : Pc ι → List ι
  | .walk ip _ | .fail ip | .readOld ip | .putOld ip _ | .install ip => [ip]
  | .step ip next _ => [next, ip]
  | .user | .readCwd _ | .dup _ _ | .forkCwd | .forkDup _ => []

/-- The working directory that a thread has read and not used yet. -/
def Pc.read {ι : Type*} : Pc ι → Option ι
  | .dup cwd _ | .forkDup cwd => some cwd
  | .putOld _ oldwd => some oldwd
  | _ => none

/-- The thread is about to call `idup` on what it has read. -/
def Pc.dups {ι : Type*} : Pc ι → Option ι
  | .dup cwd _ | .forkDup cwd => some cwd
  | _ => none

/-- The thread has given the old directory back and not installed the new one. -/
def Pc.installs {ι : Type*} : Pc ι → Bool
  | .install _ => true
  | _ => false

/-- The next step of the thread reads `process->cwd`. -/
def Pc.reads {ι : Type*} : Pc ι → Bool
  | .readCwd _ | .readOld _ | .forkCwd => true
  | _ => false

/-- A process of the threads `τ`. -/
abbrev Process (τ ι : Type*) := Interleaving.Config τ (Shared ι) (Pc ι)

variable {τ ι : Type*}

section

variable [Fintype τ] [DecidableEq τ] [DecidableEq ι]

/-- No call is in progress, and the references are those of the open files and
of the working directories. -/
def Process.initial (c : Process τ ι) : Prop :=
  (∀ t, c.loc t = .user) ∧
    ∀ i, c.shared.ref i = c.shared.others i + if c.shared.cwd = i then 1 else 0

/-- The process as a transition system. -/
abbrev process (τ ι : Type*) [DecidableEq τ] [DecidableEq ι] :
    Transition.System (Process τ ι) (τ × Event ι) :=
  Interleaving.system Process.initial act

/-- A call of `chdir` has given the old directory back and not installed the new
one. -/
def Process.swapping (c : Process τ ι) : Prop := ∃ t, (c.loc t).installs = true

instance (c : Process τ ι) : Decidable c.swapping := inferInstanceAs (Decidable (∃ _, _))

/-- The references to an entry that the calls in progress hold. -/
def Process.inFlight (c : Process τ ι) (i : ι) : ℕ := loose (fun t => (c.loc t).refs) i

/-- The reference of `process->cwd`. -/
def Process.owned (c : Process τ ι) (i : ι) : ℤ :=
  if c.swapping then 0 else if c.shared.cwd = i then 1 else 0

/-- Every reference is accounted for. -/
def Process.Accounted (c : Process τ ι) : Prop :=
  ∀ i, c.shared.ref i = c.shared.others i + c.owned i + c.inFlight i

/-- The working directory is referenced, once by the process; references are
duplicated only where there is one; and the counts are exact when no call is in
progress. -/
structure Process.Sound (c : Process τ ι) : Prop where
  cwd_referenced : 1 ≤ c.shared.ref c.shared.cwd
  referenced_once : ∀ i, c.shared.ref i =
    c.shared.others i + (if c.shared.cwd = i then 1 else 0) + c.inFlight i
  dup_referenced : ∀ t i, (c.loc t).dups = some i → 1 ≤ c.shared.ref i
  quiescent : (∀ t, c.loc t = .user) →
    ∀ i, c.shared.ref i = c.shared.others i + if c.shared.cwd = i then 1 else 0

/-- No `chdir` gives the old directory back. -/
def keepsCwd (c : Process τ ι) (l : τ × Event ι) : Prop :=
  match c.loc l.1 with
  | .putOld _ _ => False
  | _ => True

/-- When `chdir` gives the old directory back, no other thread has read it and
not used it yet; and no thread reads the directory before the new one is
installed. -/
def orderly (c : Process τ ι) (l : τ × Event ι) : Prop :=
  match c.loc l.1 with
  | .putOld _ _ => ∀ u, u ≠ l.1 → (c.loc u).read = none
  | .readCwd _ | .readOld _ | .forkCwd => ¬c.swapping
  | _ => True

omit [Fintype τ] [DecidableEq τ] [DecidableEq ι] in
instance (c : Process τ ι) (l : τ × Event ι) : Decidable (keepsCwd c l) := by
  unfold keepsCwd
  split <;> infer_instance

instance (c : Process τ ι) (l : τ × Event ι) : Decidable (orderly c l) := by
  unfold orderly
  split <;> infer_instance

end

/-- What the steps have in common that neither give the old directory back nor
install the new one. -/
structure Balances [DecidableEq ι] (s : Shared ι) (pc : Pc ι) (s' : Shared ι) (pc' : Pc ι) :
    Prop where
  cwd : s'.cwd = s.cwd
  before : pc.installs = false
  after : pc'.installs = false
  ref : ∀ i, s'.ref i + s.others i + pc.refs.count i = s.ref i + s'.others i + pc'.refs.count i
  read : pc'.read = none ∨ pc.reads = true ∧ pc'.read = some s.cwd

section

variable [DecidableEq ι] {s s' : Shared ι} {t : τ} {pc pc' : Pc ι} {e : Event ι}

theorem update_ref (f : ι → ℤ) (i j : ι) (d : ℤ) :
    update f i (f i + d) j = f j + if i = j then d else 0 := by
  by_cases hj : i = j
  · subst hj
    simp
  · simp [hj, Ne.symm hj]

theorem count_cons (i : ι) (l : List ι) (j : ι) :
    ((i :: l).count j : ℤ) = l.count j + if i = j then 1 else 0 := by
  by_cases hj : i = j
  · simp [hj]
  · simp [hj]

theorem balances_ref {i : ι} {d : ℤ} (hs : s' = { s with ref := update s.ref i (s.ref i + d) })
    (hpc : pc.installs = false) (hpc' : pc'.installs = false) (hread : pc'.read = none)
    (hrefs : ∀ j, (pc'.refs.count j : ℤ) = pc.refs.count j + if i = j then d else 0) :
    Balances s pc s' pc' := by
  subst hs
  refine ⟨rfl, hpc, hpc', fun j => ?_, .inl hread⟩
  simp only [update_ref, hrefs j]
  omega

theorem balances_iget {i : ι} (h : s.iget i = some s') (hpc : pc.installs = false)
    (hpc' : pc'.installs = false) (hread : pc'.read = none)
    (hrefs : ∀ j, (pc'.refs.count j : ℤ) = pc.refs.count j + if i = j then 1 else 0) :
    Balances s pc s' pc' := by
  obtain ⟨-, rfl⟩ : 0 ≤ s.ref i ∧ s.idup i = s' := by simpa [Shared.iget] using h
  exact balances_ref rfl hpc hpc' hread hrefs

theorem balances_self (hpc : pc.installs = false) (hpc' : pc'.installs = false)
    (hrefs : pc'.refs = pc.refs) (hread : pc'.read = none ∨ pc.reads = true ∧ pc'.read = some s.cwd) :
    Balances s pc s pc' :=
  ⟨rfl, hpc, hpc', fun j => by rw [hrefs], hread⟩

theorem act_cases (h : act s t pc e = some (s', pc')) :
    (∃ ip oldwd, pc = .putOld ip oldwd ∧ s' = s.iput oldwd ∧ pc' = .install ip) ∨
      (∃ ip, pc = .install ip ∧ s' = { s with cwd := ip } ∧ pc' = .user) ∨
      Balances s pc s' pc' := by
  unfold act at h
  split at h
  case h_14 => cases h; exact .inl ⟨_, _, rfl, rfl, rfl⟩
  case h_15 => cases h; exact .inr (.inl ⟨_, rfl, rfl, rfl⟩)
  all_goals refine .inr (.inr ?_)
  case h_1 | h_3 => cases h; exact balances_self rfl rfl rfl (.inl rfl)
  case h_5 | h_13 | h_16 => cases h; exact balances_self rfl rfl rfl (.inr ⟨rfl, rfl⟩)
  case h_8 | h_9 =>
    rw [Option.ite_none_right_eq_some] at h
    cases h.2
    exact balances_self rfl rfl rfl (.inl rfl)
  case h_2 =>
    obtain ⟨s₁, hget, h⟩ := Option.map_eq_some_iff.mp h
    cases h
    exact balances_iget hget rfl rfl rfl fun j => count_cons _ [] j
  case h_7 =>
    obtain ⟨s₁, hget, h⟩ := Option.map_eq_some_iff.mp (Option.ite_none_right_eq_some.mp h).2
    cases h
    exact balances_iget hget rfl rfl rfl fun j => count_cons _ [_] j
  case h_6 => cases h; exact balances_ref rfl rfl rfl rfl fun j => count_cons _ [] j
  case h_11 | h_12 =>
    cases h
    refine balances_ref rfl rfl rfl rfl fun j => ?_
    simp only [Pc.refs, List.count_cons, List.count_nil]
    grind
  -- The pointers change in the other cases, with the counts or with the references
  -- of the thread.
  case h_4 i =>
    obtain ⟨hi, h⟩ := Option.ite_none_left_eq_some.mp h
    cases h
    refine ⟨rfl, rfl, rfl, fun j => ?_, .inl rfl⟩
    simp only [Shared.iput, Shared.detach, Pc.refs, update_apply]
    grind
  case h_10 =>
    cases (Option.ite_none_right_eq_some.mp h).2
    refine ⟨rfl, rfl, rfl, fun j => ?_, .inl rfl⟩
    simp only [Shared.attach, Pc.refs, update_apply, List.count_singleton, List.count_nil]
    grind
  case h_17 =>
    cases h
    refine ⟨rfl, rfl, rfl, fun j => ?_, .inl rfl⟩
    simp only [Shared.attach, Shared.idup, Pc.refs, update_apply]
    grind
  case h_18 => cases h

end

section

variable [Fintype τ] [DecidableEq τ] [DecidableEq ι] {c : Process τ ι} {s' : Shared ι} {t : τ}
variable {pc' : Pc ι} {e : Event ι}

theorem inFlight_step (c : Process τ ι) (s' : Shared ι) (t : τ) (pc' : Pc ι) (i : ι) :
    Process.inFlight ⟨s', update c.loc t pc'⟩ i + (c.loc t).refs.count i =
      c.inFlight i + pc'.refs.count i := by
  have h := RefCount.loose_update (fun u => (c.loc u).refs) t pc'.refs i
  have hfun : (fun u => (update c.loc t pc' u).refs) = update (fun u => (c.loc u).refs) t pc'.refs :=
    Function.comp_update Pc.refs c.loc t pc'
  rwa [Process.inFlight, hfun]

omit [Fintype τ] [DecidableEq ι] in
theorem swapping_step (hpc : pc'.installs = (c.loc t).installs) :
    Process.swapping ⟨s', update c.loc t pc'⟩ ↔ c.swapping := by
  refine exists_congr fun u => ?_
  by_cases hu : u = t
  · subst hu
    simp [hpc]
  · simp [hu]

/-- What holds in every state of an orderly process. -/
structure Process.Ordered (c : Process τ ι) : Prop where
  accounted : c.Accounted
  read_eq : ∀ t i, (c.loc t).read = some i → i = c.shared.cwd
  alone : ∀ t, (c.loc t).installs = true → ∀ u, u ≠ t →
    (c.loc u).read = none ∧ (c.loc u).installs = false

namespace Process.Ordered

omit [DecidableEq τ] in
theorem of_initial (h : c.initial) : c.Ordered := by
  obtain ⟨huser, href⟩ := h
  have hswap : ¬c.swapping := fun ⟨t, ht⟩ => by simp [huser t, Pc.installs] at ht
  refine ⟨fun i => ?_, fun t i ht => ?_, fun t ht => ?_⟩
  · simp [owned, hswap, inFlight, loose, huser, Pc.refs, href i]
  · simp [huser t, Pc.read] at ht
  · simp [huser t, Pc.installs] at ht

theorem not_swapping (h : c.Ordered) {i : ι} (hread : (c.loc t).read = some i) : ¬c.swapping := by
  rintro ⟨u, hu⟩
  by_cases htu : t = u
  · subst htu
    cases hpc : c.loc t <;> simp_all [Pc.read, Pc.installs]
  · have hnone := (h.alone u hu t htu).1
    rw [hread] at hnone
    cases hnone

omit [DecidableEq τ] in
theorem cwd_referenced (h : c.Ordered) (hswap : ¬c.swapping) : 1 ≤ c.shared.ref c.shared.cwd := by
  have haccount := h.accounted c.shared.cwd
  rw [owned, if_neg hswap, if_pos rfl] at haccount
  omega

omit [DecidableEq τ] in
theorem sound (h : c.Ordered) (hswap : ¬c.swapping) : c.Sound := by
  have hcwd := h.cwd_referenced hswap
  have href : ∀ i, c.shared.ref i =
      c.shared.others i + (if c.shared.cwd = i then 1 else 0) + c.inFlight i := fun i => by
    have haccount := h.accounted i
    rw [owned, if_neg hswap] at haccount
    simpa using haccount
  refine ⟨hcwd, href, fun t i ht => ?_, fun huser i => ?_⟩
  · have hread : (c.loc t).read = some i := by
      cases hpc : c.loc t <;> simp_all [Pc.read, Pc.dups]
    rwa [h.read_eq t i hread]
  · simpa [inFlight, loose, huser, Pc.refs] using href i

end Process.Ordered

theorem ordered_putOld {ip oldwd : ι} (h : c.Ordered) (hpc : c.loc t = .putOld ip oldwd)
    (hok : ∀ u, u ≠ t → (c.loc u).read = none) :
    Process.Ordered ⟨c.shared.iput oldwd, update c.loc t (.install ip)⟩ := by
  have hread : (c.loc t).read = some oldwd := by rw [hpc]; rfl
  have hbefore := h.not_swapping hread
  have hafter : Process.swapping ⟨c.shared.iput oldwd, update c.loc t (.install ip)⟩ :=
    ⟨t, by simp [Pc.installs]⟩
  obtain rfl := h.read_eq t oldwd hread
  refine ⟨fun i => ?_, fun u i hu => ?_, fun u hu v hv => ?_⟩
  · have haccount := h.accounted i
    have hflight := inFlight_step c (c.shared.iput c.shared.cwd) t (.install ip) i
    have href : (c.shared.iput c.shared.cwd).ref i = _ := update_ref c.shared.ref _ i (-1)
    simp only [hpc, Pc.refs] at hflight
    rw [Process.owned, if_neg hbefore] at haccount
    rw [Process.owned, if_pos hafter, href]
    change _ = (c.shared.others i : ℤ) + _ + _
    split_ifs at haccount ⊢ <;> omega
  · by_cases hut : u = t
    · subst hut
      simp [Pc.read] at hu
    · simp [hut, hok u hut] at hu
  · obtain rfl : u = t := by
      by_contra hut
      exact hbefore ⟨u, by simpa [hut] using hu⟩
    refine ⟨by simpa [hv] using hok v hv, ?_⟩
    simpa [hv] using fun hi => hbefore ⟨v, hi⟩

theorem ordered_install {ip : ι} (h : c.Ordered) (hpc : c.loc t = .install ip) :
    Process.Ordered ⟨{ c.shared with cwd := ip }, update c.loc t .user⟩ := by
  have hinstalls : (c.loc t).installs = true := by rw [hpc]; rfl
  have hbefore : c.swapping := ⟨t, hinstalls⟩
  have hafter : ¬Process.swapping ⟨{ c.shared with cwd := ip }, update c.loc t .user⟩ := by
    rintro ⟨u, hu⟩
    by_cases hut : u = t
    · subst hut
      simp [Pc.installs] at hu
    · simp [hut, (h.alone t hinstalls u hut).2] at hu
  refine ⟨fun i => ?_, fun u i hu => ?_, fun u hu => absurd ⟨u, hu⟩ hafter⟩
  · have haccount := h.accounted i
    have hflight := inFlight_step c { c.shared with cwd := ip } t .user i
    simp only [hpc, Pc.refs, List.count_singleton, List.count_nil, beq_iff_eq] at hflight
    simp only [Process.owned, if_pos hbefore] at haccount
    simp only [Process.owned, if_neg hafter]
    split_ifs at hflight ⊢ <;> omega
  · by_cases hut : u = t
    · subst hut
      simp [Pc.read] at hu
    · simp [hut, (h.alone t hinstalls u hut).1] at hu

theorem ordered_balances (h : c.Ordered) (hb : Balances c.shared (c.loc t) s' pc')
    (hok : (c.loc t).reads = true → ¬c.swapping) :
    Process.Ordered ⟨s', update c.loc t pc'⟩ := by
  have hswap : Process.swapping ⟨s', update c.loc t pc'⟩ ↔ c.swapping :=
    swapping_step (hb.after.trans hb.before.symm)
  refine ⟨fun i => ?_, fun u i hu => ?_, fun u hu v hv => ?_⟩
  · have haccount := h.accounted i
    have hflight := inFlight_step c s' t pc' i
    have href := hb.ref i
    simp only [Process.owned, hswap, hb.cwd] at haccount ⊢
    omega
  · change i = s'.cwd
    rw [hb.cwd]
    by_cases hut : u = t
    · subst hut
      simp only [update_self] at hu
      rcases hb.read with hnone | ⟨-, hsome⟩
      · rw [hnone] at hu
        cases hu
      · exact Option.some.inj (hu.symm.trans hsome)
    · exact h.read_eq u i (by simpa [hut] using hu)
  · have hut : u ≠ t := by
      rintro rfl
      simp [hb.after] at hu
    have hu' : (c.loc u).installs = true := by simpa [hut] using hu
    by_cases hvt : v = t
    · subst hvt
      simp only [update_self]
      refine ⟨hb.read.resolve_right fun hread => hok hread.1 ⟨u, hu'⟩, hb.after⟩
    · simpa [hvt] using h.alone u hu' v hv

theorem ordered_step (h : c.Ordered) (hok : orderly c (t, e))
    (hact : act c.shared t (c.loc t) e = some (s', pc')) :
    Process.Ordered ⟨s', update c.loc t pc'⟩ := by
  rcases act_cases hact with ⟨ip, oldwd, hpc, rfl, rfl⟩ | ⟨ip, hpc, rfl, rfl⟩ | hb
  · simp only [orderly, hpc] at hok
    exact ordered_putOld h hpc hok
  · exact ordered_install h hpc
  · refine ordered_balances h hb fun hreads => ?_
    cases hpc : c.loc t <;> simp_all [orderly, Pc.reads]

theorem ordered_of_reach (h : Reach (process τ ι) orderly c) : c.Ordered := by
  refine h.invariant (P := Process.Ordered) (fun _ => Process.Ordered.of_initial) ?_
  rintro c ⟨t, e⟩ c' - hc hok hstep
  obtain ⟨⟨s', pc'⟩, hact, rfl⟩ := Option.map_eq_some_iff.mp hstep
  exact ordered_step hc hok hact

theorem ordered_of_keepsCwd (h : Reach (process τ ι) keepsCwd c) : c.Ordered ∧ ¬c.swapping := by
  refine h.invariant (P := fun c => c.Ordered ∧ ¬c.swapping) (fun c hinit => ?_) ?_
  · refine ⟨.of_initial hinit, fun ⟨t, ht⟩ => ?_⟩
    simp [hinit.1 t, Pc.installs] at ht
  · rintro c ⟨t, e⟩ c' - ⟨hc, hswap⟩ hok hstep
    obtain ⟨⟨s', pc'⟩, hact, rfl⟩ := Option.map_eq_some_iff.mp hstep
    have horderly : orderly c (t, e) := by
      cases hpc : c.loc t <;> simp_all [orderly, keepsCwd]
    refine ⟨ordered_step hc horderly hact, ?_⟩
    rcases act_cases hact with ⟨ip, oldwd, hpc, -, -⟩ | ⟨ip, hpc, -, -⟩ | hb
    · simp [keepsCwd, hpc] at hok
    · exact absurd ⟨t, by simp [hpc, Pc.installs]⟩ hswap
    · rwa [swapping_step (hb.after.trans hb.before.symm)]

/-- The references to the working directory are accounted for in every state of a
process in which no `chdir` gives the old directory back. In an orderly process
they are, except between the last two steps of a `chdir`, where only the
reference of `process->cwd` is missing, and no thread is about to duplicate it. -/
theorem cwd_references (c : Process τ ι) :
    (Reach (process τ ι) keepsCwd c → c.Sound) ∧
      (Reach (process τ ι) orderly c →
        (¬c.swapping → c.Sound) ∧
          (c.swapping → (∀ i, c.shared.ref i = c.shared.others i + c.inFlight i) ∧
            ∀ t, (c.loc t).dups = none)) := by
  refine ⟨fun h => ?_, fun h => ⟨(ordered_of_reach h).sound, fun hswap => ⟨fun i => ?_, ?_⟩⟩⟩
  · obtain ⟨hc, hswap⟩ := ordered_of_keepsCwd h
    exact hc.sound hswap
  · have haccount := (ordered_of_reach h).accounted i
    rwa [Process.owned, if_pos hswap, add_zero] at haccount
  · intro t
    by_contra hdups
    obtain ⟨i, hi⟩ := Option.ne_none_iff_exists'.mp hdups
    refine (ordered_of_reach h).not_swapping (t := t) (i := i) ?_ hswap
    cases hpc : c.loc t <;> simp_all [Pc.read, Pc.dups]

end

/-- Two threads in the directory of the first entry of a cache of three. -/
def start : Process (Fin 2) (Fin 3) :=
  ⟨⟨fun i => if i = 0 then 1 else 0, 0, fun _ => 0⟩, fun _ => .user⟩

theorem start_initial : start.initial := by
  constructor <;> decide

/-- One thread changes the directory by a relative path, then the other forks. -/
theorem cwd_references_in_turn :
    ∃ c : Process (Fin 2) (Fin 3), Reach (process _ _) orderly c ∧
      (c.shared.cwd = 1 ∧ c.shared.others 1 = 1 ∧ ¬c.swapping) ∧ c.Sound := by
  obtain ⟨c, -, hreach, hc⟩ := Interleaving.exists_of_scriptWhile act start_initial orderly
    [(0, .call .chdir none), (0, .run), (0, .run), (0, .next 1), (0, .run), (0, .found),
      (0, .run), (0, .run), (0, .run), (1, .fork), (1, .run), (1, .run)]
    (fun c : Process _ _ => c.shared.cwd = 1 ∧ c.shared.others 1 = 1 ∧ ¬c.swapping)
    (by decide)
  exact ⟨c, hreach, hc, ((cwd_references c).2 hreach).1 hc.2.2⟩

/-- One `chdir` leaves the working directory without a reference before it installs
the new one, and a thread that has read it then duplicates a reference that is
not there. Two calls that overlap give the old directory back twice, and leave a
count of -1 when no call is in progress. -/
theorem chdir_drops_cwd_twice :
    (∃ c : Process (Fin 2) (Fin 3), Reach (process _ _) anyStep c ∧
      c.shared.ref c.shared.cwd = 0 ∧ (c.loc 1).dups = some c.shared.cwd) ∧
    ∃ c : Process (Fin 2) (Fin 3), Reach (process _ _) anyStep c ∧ (∀ t, c.loc t = .user) ∧
      c.shared.ref 0 = -1 ∧ c.shared.cwd = 2 ∧ c.shared.ref 1 = 1 ∧ c.shared.others 1 = 0 := by
  constructor
  · obtain ⟨c, -, hreach, hc⟩ := Interleaving.exists_of_script act start_initial
      [(1, .call .open none), (1, .run), (0, .call .chdir (some 1)), (0, .found), (0, .run),
        (0, .run)]
      (fun c => c.shared.ref c.shared.cwd = 0 ∧ (c.loc 1).dups = some c.shared.cwd)
      (by decide)
    exact ⟨c, hreach, hc⟩
  · obtain ⟨c, -, hreach, hc⟩ := Interleaving.exists_of_script act start_initial
      [(0, .call .chdir (some 1)), (0, .found), (0, .run), (1, .call .chdir (some 2)),
        (1, .found), (1, .run), (0, .run), (1, .run), (0, .run), (1, .run)]
      (fun c => (∀ t, c.loc t = .user) ∧ c.shared.ref 0 = -1 ∧ c.shared.cwd = 2 ∧
        c.shared.ref 1 = 1 ∧ c.shared.others 1 = 0)
      (by decide)
    exact ⟨c, hreach, hc⟩

end KThreads.Directory
