import KThreads.Access.Sections

/-!
# Concurrent calls of sbrk

`sys_sbrk` reads the size of the process before `growproc` takes the `vlock` and
reads it again. The size that it returns is the start of the region that it has
added only if no other thread has grown the process in between.

A log lists the calls in the order in which they have gone through `growproc`,
with what they return.
-/

namespace KThreads.Sbrk

open Access (growSize)
open Transition (Reach anyStep)

/-- Where a thread is in `sbrk(n)`. The number of calls that had gone through
`growproc` when it was called is kept as a history. -/
inductive Pc
  | user
  | sbrk (n : ℤ) (since : ℕ)
  | growproc (n : ℤ) (addr since : ℕ)
  | ret (r : ℤ)
  deriving DecidableEq

/-- A call that has gone through `growproc`. -/
structure Call (τ : Type*) where
  thread : τ
  n : ℤ
  /-- The address that is returned, `none` where the call fails. -/
  addr : Option ℕ
  since : ℕ
  deriving DecidableEq

/-- What the call returns. -/
def Call.value {τ : Type*} (c : Call τ) : ℤ := c.addr.elim (-1) fun a => a

/-- The region that the call returns. -/
def Call.region {τ : Type*} (c : Call τ) : Option (Set ℤ) :=
  c.addr.map fun a => Set.Ico (a : ℤ) (a + c.n)

/-- What the threads of the process share. -/
structure Shared (τ : Type*) where
  sz : ℕ
  log : List (Call τ)

/-- A thread calls `sbrk(n)`, or makes the next step of its call; what matters of
the rest of the kernel is whether there is memory. -/
inductive Event
  | call (n : ℤ)
  | run (ok : Bool)

variable {τ : Type*}

/-- The step of a thread. -/
def act (s : Shared τ) (t : τ) : Pc → Event → Option (Shared τ × Pc)
  | .user, .call n => if 0 < n ∧ n ≤ INT_MAX then some (s, .sbrk n s.log.length) else none
  | .sbrk n since, .run _ => some (s, .growproc n s.sz since)
  | .growproc n addr since, .run ok =>
      match growSize s.sz ok n with
      | none => some ({ s with log := s.log ++ [⟨t, n, none, since⟩] }, .ret (-1))
      | some sz => some (⟨sz, s.log ++ [⟨t, n, some addr, since⟩]⟩, .ret addr)
  | .ret _, .run _ => some (s, .user)
  | _, _ => none

/-- The threads of a process of the size `sz₀`. -/
abbrev Process (τ : Type*) := Interleaving.Config τ (Shared τ) Pc

/-- All threads are in user space, and no call has been made. -/
def Process.initial (sz₀ : ℕ) (c : Process τ) : Prop :=
  sz₀ < KERNBASE ∧ c.shared = ⟨sz₀, []⟩ ∧ ∀ t, c.loc t = .user

variable [DecidableEq τ]

/-- The process as a transition system. -/
abbrev process (τ : Type*) [DecidableEq τ] (sz₀ : ℕ) : Transition.System (Process τ) (τ × Event) :=
  Interleaving.system (Process.initial sz₀) act

/-- The calls of a log, made one after the other in a process of the size `s`,
leave the size `s'`: a call fails, or returns the size and adds to it. -/
def Sequential (s : ℤ) : List (Call τ) → ℤ → Prop
  | [], s' => s' = s
  | c :: cs, s' =>
      match c.addr with
      | none => Sequential s cs s'
      | some a => (a : ℤ) = s ∧ Sequential (s + c.n) cs s'

/-- `growproc` adds memory only to a process that has the size its caller has
read. -/
def growsFromRead (c : Process τ) (l : τ × Event) : Prop :=
  match c.loc l.1, l.2 with
  | .growproc n addr _, .run ok => growSize c.shared.sz ok n ≠ none → addr = c.shared.sz
  | _, _ => True

instance (c : Process τ) (l : τ × Event) : Decidable (growsFromRead c l) := by
  unfold growsFromRead
  split <;> infer_instance

section

omit [DecidableEq τ]

theorem sequential_append {s s' : ℤ} {cs : List (Call τ)} {c : Call τ} :
    Sequential s (cs ++ [c]) s' ↔ ∃ m, Sequential s cs m ∧ Sequential m [c] s' := by
  induction cs generalizing s with
  | nil => simp [Sequential]
  | cons d cs ih =>
    rw [List.cons_append]
    cases haddr : d.addr with
    | none =>
      have hcons : ∀ cs x, Sequential s (d :: cs) x ↔ Sequential s cs x := fun cs x => by
        simp only [Sequential, haddr]
      simp only [hcons, ih]
    | some a =>
      have hcons : ∀ cs x, Sequential s (d :: cs) x ↔ (a : ℤ) = s ∧ Sequential (s + d.n) cs x :=
        fun cs x => by simp only [Sequential, haddr]
      simp only [hcons, ih, and_assoc, exists_and_left]

theorem Sequential.regions {s s' : ℤ} {cs : List (Call τ)} (h : Sequential s cs s')
    (hpos : ∀ c ∈ cs, 0 < c.n) :
    s ≤ s' ∧ (cs.filterMap Call.region).Pairwise Disjoint ∧
      ⋃ r ∈ cs.filterMap Call.region, r = Set.Ico s s' := by
  induction cs generalizing s with
  | nil =>
    obtain rfl : s' = s := h
    simp
  | cons c cs ih =>
    obtain ⟨hc, hcs⟩ := List.forall_mem_cons.mp hpos
    cases haddr : c.addr with
    | none =>
      simp only [Sequential, haddr] at h
      simpa [Call.region, haddr] using ih h hcs
    | some a =>
      simp only [Sequential, haddr] at h
      obtain ⟨rfl, h⟩ := h
      obtain ⟨hle, hdisj, hunion⟩ := ih h hcs
      have hregion : c.region = some (Set.Ico (a : ℤ) (a + c.n)) := by simp [Call.region, haddr]
      rw [List.filterMap_cons_some hregion]
      refine ⟨by omega, List.pairwise_cons.mpr ⟨fun r hr => ?_, hdisj⟩, ?_⟩
      · -- the later regions lie behind the end of this one
        have hsub : r ⊆ Set.Ico (a + c.n) s' := hunion ▸ Set.subset_iUnion₂ (s := fun r _ => r) r hr
        exact (Set.Ico_disjoint_Ico_same).mono_right hsub
      · simp only [List.mem_cons, Set.iUnion_iUnion_eq_or_left, hunion]
        exact Set.Ico_union_Ico_eq_Ico (by omega) hle

end

theorem growSize_pos {sz r : ℕ} {ok : Bool} {n : ℤ} (hsz : sz < KERNBASE) (hn : 0 < n)
    (hmax : n ≤ INT_MAX) (h : growSize sz ok n = some r) : (r : ℤ) = sz + n ∧ r < KERNBASE := by
  have hnew : (toUint (sz + n) : ℤ) = sz + n := by
    simp only [toUint, KERNBASE, INT_MAX] at *
    omega
  simp only [growSize, hn, if_true] at h
  split_ifs at h <;> cases h <;> omega

/-- What holds of the size and the log. -/
structure Inv (sz₀ : ℕ) (s : Shared τ) : Prop where
  size : s.sz < KERNBASE
  sequential : Sequential sz₀ s.log s.sz
  pos : ∀ c ∈ s.log, 0 < c.n
  since : ∀ (i : ℕ) (c : Call τ), s.log[i]? = some c → c.since ≤ i

/-- What holds of a thread. -/
def Local (s : Shared τ) (t : τ) : Pc → Prop
  | .user => True
  | .sbrk n since | .growproc n _ since => 0 < n ∧ n ≤ INT_MAX ∧ since ≤ s.log.length
  | .ret r => ∃ c ∈ s.log, c.thread = t ∧ c.value = r

section

omit [DecidableEq τ]

variable {sz₀ : ℕ} {s s' : Shared τ} {t : τ} {pc pc' : Pc}

theorem act_log {e : Event} (h : act s t pc e = some (s', pc')) : s.log <+: s'.log := by
  unfold act at h
  split at h
  · split at h <;> cases h
    exact List.prefix_rfl
  · cases h
    exact List.prefix_rfl
  · split at h <;> cases h <;> exact List.prefix_append _ _
  · cases h
    exact List.prefix_rfl
  · cases h

theorem Local.mono (hlog : s.log <+: s'.log) (h : Local s t pc) : Local s' t pc := by
  cases pc with
  | user => trivial
  | sbrk n since | growproc n addr since => exact ⟨h.1, h.2.1, h.2.2.trans hlog.length_le⟩
  | ret r =>
    obtain ⟨c, hc, hcr⟩ := h
    exact ⟨c, hlog.subset hc, hcr⟩

theorem Inv.log {c : Call τ} {sz : ℕ} (h : Inv sz₀ s) (hsz : sz < KERNBASE)
    (hseq : Sequential s.sz [c] sz) (hpos : 0 < c.n) (hsince : c.since ≤ s.log.length) :
    Inv sz₀ ⟨sz, s.log ++ [c]⟩ := by
  refine ⟨hsz, sequential_append.mpr ⟨_, h.sequential, hseq⟩, ?_, fun i d hd => ?_⟩
  · exact List.forall_mem_append.mpr ⟨h.pos, List.forall_mem_singleton.mpr hpos⟩
  · rcases lt_or_ge i s.log.length with hi | hi
    · exact h.since i d (by rwa [List.getElem?_append_left hi] at hd)
    · rw [List.getElem?_append_right hi, List.getElem?_singleton] at hd
      obtain ⟨-, hd⟩ := Option.ite_none_right_eq_some.mp hd
      cases hd
      exact hsince.trans hi

end

variable {sz₀ : ℕ} {c : Process τ}

theorem inv_of_growsFromRead (h : Reach (process τ sz₀) growsFromRead c) :
    Inv sz₀ c.shared ∧ ∀ t, Local c.shared t (c.loc t) := by
  refine Interleaving.invariant ?_ ?_ ?_ h
  · rintro c ⟨hsz, hshared, hloc⟩
    refine ⟨?_, fun t => by rw [hloc t]; trivial⟩
    rw [hshared]
    exact ⟨hsz, rfl, by simp, by simp⟩
  · intro c t e s' pc' hinv hlocal hok hact
    unfold growsFromRead at hok
    generalize c.loc t = pc at hlocal hok hact
    cases pc with
    | user =>
      cases e with
      | call n =>
        simp only [act, Option.ite_none_right_eq_some] at hact
        obtain ⟨hn, hact⟩ := hact
        cases hact
        exact ⟨hinv, hn.1, hn.2, le_rfl⟩
      | run ok => cases hact
    | sbrk n since =>
      cases e with
      | call n => cases hact
      | run ok =>
        cases hact
        exact ⟨hinv, hlocal⟩
    | growproc n addr since =>
      cases e with
      | call n => cases hact
      | run ok =>
        obtain ⟨hn, hmax, hsince⟩ := hlocal
        simp only [act] at hact
        split at hact <;> cases hact
        · exact ⟨hinv.log hinv.size rfl hn hsince, _, List.mem_append_right _ (List.mem_singleton_self _),
            rfl, rfl⟩
        · next sz hsz =>
          obtain ⟨hsz', hlt⟩ := growSize_pos hinv.size hn hmax hsz
          obtain rfl : addr = c.shared.sz := hok (by simp [hsz])
          exact ⟨hinv.log hlt ⟨rfl, hsz'⟩ hn hsince, _,
            List.mem_append_right _ (List.mem_singleton_self _), rfl, rfl⟩
    | ret r =>
      cases e with
      | call n => cases hact
      | run ok =>
        cases hact
        exact ⟨hinv, trivial⟩
  · intro c t u e s' pc' _ _ _ hu _ hact
    exact hu.mono (act_log hact)

/-- **Sbrk** in a run in which no process is grown between the two reads of its
size. The regions returned by the calls that succeed are pairwise disjoint and
fill the interval between the size before and the size now. The calls are those
of the log, made one after the other: each call stands in the log behind those
that had been answered when it was made, and returns what it returns there. -/
theorem sbrk_linearizable (h : Reach (process τ sz₀) growsFromRead c) :
    (c.shared.log.filterMap Call.region).Pairwise Disjoint ∧
      ⋃ r ∈ c.shared.log.filterMap Call.region, r = Set.Ico (sz₀ : ℤ) c.shared.sz ∧
      Sequential sz₀ c.shared.log c.shared.sz ∧
      (∀ (i : ℕ) (d : Call τ), c.shared.log[i]? = some d → d.since ≤ i) ∧
      ∀ t r, c.loc t = .ret r → ∃ d ∈ c.shared.log, d.thread = t ∧ d.value = r := by
  obtain ⟨hinv, hloc⟩ := inv_of_growsFromRead h
  obtain ⟨-, hdisj, hunion⟩ := hinv.sequential.regions hinv.pos
  refine ⟨hdisj, hunion, hinv.sequential, hinv.since, fun t r hr => ?_⟩
  have hlocal := hloc t
  rwa [hr] at hlocal

/-- Two threads of a process of one page. -/
def onePage : Process (Fin 2) := ⟨⟨4096, []⟩, fun _ => .user⟩

/-- The next `n` steps of the call that a thread is in, with enough memory. -/
def runs (t : Fin 2) (n : ℕ) : List (Fin 2 × Event) := List.replicate n (t, .run true)

theorem initial_onePage : onePage.initial 4096 := ⟨by decide, rfl, fun _ => rfl⟩

/-- Two calls that are not interrupted return adjacent regions. -/
theorem sbrk_linearizable_two :
    ∃ c : Process (Fin 2), c.shared.sz = 12288 ∧ c.loc 1 = .ret 8192 ∧
      Sequential 4096 c.shared.log c.shared.sz := by
  obtain ⟨c, -, hr, hsz, hret⟩ := Interleaving.exists_of_scriptWhile act initial_onePage
    growsFromRead
    ((0, .call 4096) :: runs 0 2 ++ (1, .call 4096) :: runs 1 2)
    (fun c => c.shared.sz = 12288 ∧ c.loc 1 = .ret 8192) (by decide)
  exact ⟨c, hsz, hret, (sbrk_linearizable hr).2.2.1⟩

/-- Two threads read the size before either of them has grown the process: both
calls return the same page. -/
theorem sbrk_returns_page_twice :
    ∃ c : Process (Fin 2), Reach (process (Fin 2) 4096) anyStep c ∧ c.shared.sz = 12288 ∧
      c.loc 0 = .ret 4096 ∧ c.loc 1 = .ret 4096 ∧
      ¬(c.shared.log.filterMap Call.region).Pairwise Disjoint := by
  obtain ⟨c, -, hr, hsz, h0, h1, hlog⟩ := Interleaving.exists_of_script act initial_onePage
    ((0, .call 4096) :: runs 0 1 ++ (1, .call 4096) :: runs 1 1 ++ runs 0 1 ++ runs 1 1)
    (fun c => c.shared.sz = 12288 ∧ c.loc 0 = .ret 4096 ∧ c.loc 1 = .ret 4096 ∧
      c.shared.log = [⟨0, 4096, some 4096, 0⟩, ⟨1, 4096, some 4096, 0⟩]) (by decide)
  refine ⟨c, hr, hsz, h0, h1, fun hdisj => ?_⟩
  rw [hlog] at hdisj
  simp [Call.region, Set.Ico_eq_empty_iff] at hdisj

end KThreads.Sbrk
