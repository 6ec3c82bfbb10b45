import KThreads.Frame

/-!
# Sleep and wakeup

Whether a thread sleeps and on which channel, and the wakeup that waits for it in
its mailbox `lostwakeup`, is changed in a few ways only. A step of the kernel sends
signals to the slots, and the lemma at the end says which: every other step leaves
sleep and mailboxes alone.
-/

namespace KThreads

/-- The channel a thread sleeps on, if it sleeps, and its mailbox. -/
structure Seat where
  asleep : Option Chan
  lost : Chan
  deriving DecidableEq

def Proc.seat (q : Proc) : Seat :=
  ⟨if q.state = .sleeping then some q.chan else none, q.lostwakeup⟩

@[simp] theorem Proc.seat_lost (q : Proc) : q.seat.lost = q.lostwakeup := rfl

theorem Proc.awake_of_seat {q : Proc} (h : q.seat.asleep = none) : q.state ≠ .sleeping := by
  intro hs
  simp [Proc.seat, hs] at h

theorem Proc.seat_of_awake {q : Proc} (h : q.state ≠ .sleeping) : q.seat = ⟨none, q.lostwakeup⟩ := by
  simp [Proc.seat, h]

/-- What reaches the threads, which have names of the type `ν`. -/
inductive Signal (ν : Type*)
  /-- `wakeup1` -/
  | wake (c : Chan)
  /-- The thread is marked, which makes it runnable. -/
  | rouse (p : ν)
  | unpark (p : ν) (c : Chan)
  | park (t : ν) (c : Chan)
  /-- The thread falls asleep outside `park`. -/
  | doze (t : ν) (c : Chan)
  /-- The mailbox is emptied. -/
  | forget (p : ν)
  deriving DecidableEq

namespace Signal

variable {ν : Type*} [DecidableEq ν] {s : ν} {r : Seat} {x : Signal ν} {σ : List (Signal ν)} {c : Chan}

/-- What a signal does to the thread `s`. -/
def apply (s : ν) (r : Seat) : Signal ν → Seat
  | .wake c => { r with asleep := if r.asleep = some c then none else r.asleep }
  | .rouse p => if s = p then { r with asleep := none } else r
  | .unpark p c =>
      if s = p then
        if r.asleep = some c then { r with asleep := none } else { r with lost := c }
      else r
  | .park t c => if s = t then ⟨if r.lost = c then r.asleep else some c, .null⟩ else r
  | .doze t c => if s = t then { r with asleep := some c } else r
  | .forget p => if s = p then { r with lost := .null } else r

/-- What a list of signals does to the thread `s`. -/
def applyAll (s : ν) (r : Seat) (σ : List (Signal ν)) : Seat := σ.foldl (apply s) r

@[simp] theorem applyAll_nil : applyAll s r [] = r := rfl

@[simp] theorem applyAll_append (σ' : List (Signal ν)) :
    applyAll s r (σ ++ σ') = applyAll s (applyAll s r σ) σ' :=
  List.foldl_append

@[simp] theorem applyAll_singleton : applyAll s r [x] = apply s r x := rfl

theorem applyAll_cons : applyAll s r (x :: σ) = applyAll s (apply s r x) σ := rfl

theorem applyAll_rouse (ps : List ν) :
    applyAll s r (ps.map .rouse) = if s ∈ ps then { r with asleep := none } else r := by
  induction ps generalizing r with
  | nil => simp
  | cons p ps ih =>
    rw [List.map_cons, applyAll_cons, ih]
    by_cases hp : s = p <;> simp [apply, hp]

theorem applyAll_wake {ν' : Type*} [DecidableEq ν'] (s' : ν') (cs : List Chan) :
    applyAll s' r (cs.map .wake) = applyAll s r (cs.map .wake) := by
  induction cs generalizing r with
  | nil => rfl
  | cons c cs ih => exact ih

theorem asleep_wakes (h : r.asleep = none) (cs : List Chan) :
    (applyAll s r (cs.map .wake)).asleep = none := by
  induction cs generalizing r with
  | nil => exact h
  | cons c cs ih => exact ih (by simp [apply, h])

omit [DecidableEq ν] in
/-- The thread that a signal puts to sleep. -/
def lulls : Signal ν → Option ν
  | .park t _ | .doze t _ => some t
  | .wake _ | .rouse _ | .unpark .. | .forget _ => none

theorem asleep_apply (h : x.lulls ≠ some s) (hc : (apply s r x).asleep = some c) :
    r.asleep = some c := by
  cases x with
  | wake c' =>
    simp only [apply] at hc
    split at hc
    · cases hc
    · exact hc
  | rouse p =>
    simp only [apply] at hc
    split at hc
    · cases hc
    · exact hc
  | unpark p c' =>
    simp only [apply] at hc
    split at hc
    · split at hc
      · cases hc
      · exact hc
    · exact hc
  | park t c' | doze t c' =>
    have hst : s ≠ t := fun hst => h (congrArg some hst.symm)
    simpa [apply, hst] using hc
  | forget p =>
    simp only [apply] at hc
    split at hc <;> exact hc

theorem asleep_applyAll (h : ∀ x ∈ σ, x.lulls ≠ some s) (hc : (applyAll s r σ).asleep = some c) :
    r.asleep = some c := by
  induction σ generalizing r with
  | nil => exact hc
  | cons x σ ih =>
    have hrest := ih (fun y hy => h y (List.mem_cons_of_mem _ hy)) hc
    exact asleep_apply (h x List.mem_cons_self) hrest

omit [DecidableEq ν] in
/-- A signal leaves every mailbox alone. -/
def keepsMail : Signal ν → Bool
  | .unpark .. | .park .. | .forget _ => false
  | .wake _ | .rouse _ | .doze .. => true

theorem lost_apply (h : x.keepsMail = true) : (apply s r x).lost = r.lost := by
  cases x with
  | wake c => rfl
  | rouse p | doze t c =>
    simp only [apply]
    split <;> rfl
  | _ => cases h

theorem lost_applyAll (h : ∀ x ∈ σ, x.keepsMail = true) : (applyAll s r σ).lost = r.lost := by
  induction σ generalizing r with
  | nil => rfl
  | cons x σ ih =>
    have hrest := ih (r := apply s r x) fun y hy => h y (List.mem_cons_of_mem _ hy)
    exact hrest.trans (lost_apply (h x List.mem_cons_self))

end Signal

namespace Kernel

variable (k : Kernel)

/-- The child of the slot `t` for which `exit` wakes `initproc`. -/
def orphans (t : Slot) : Bool := ∃ p, (k.proc p).parent = some t ∧ (k.proc p).state = .zombie

/-- The channels on which the thread `t` of the process `L` calls `wakeup1` in `exit`. -/
def exitWakes (t L : Slot) : List Chan :=
  [.ofSlot (k.proc t).parent, .slot L] ++ if k.orphans t then [.slot k.initproc] else []

/-- The signals that the thread `t` of the process `L` sends at a point of the kernel.
Whether it falls asleep is read off the state `k'` behind its step. -/
def sent (t L : Slot) (e : Env) (k' : Kernel) : Pc → List (Signal Slot)
  | .fork (.init np) | .clone (.init np) => if e.mem = 0 then [] else [.forget np]
  | .exit .zombie => (k.exitWakes t L).map .wake
  | .wait | .join _ | .joinWait _ _ | .exec .wait =>
      if (k'.proc t).state = .sleeping then [.doze t (.slot L)] else []
  | .exec .mark =>
      if (k.proc t).killed then []
      else
        ((List.finRange NPROC).filter fun p =>
          (k.proc p).tgid = (k.proc t).tgid ∧ (k.proc p).pid ≠ (k.proc t).pid).map .rouse
  | .exec .setLost => [.forget L]
  | .kill pid => (k.findPid pid).toList.map .rouse
  | .park c => [.park t c]
  | .unpark pid c => (k.findPid pid).toList.map fun p => .unpark p c
  | _ => []

/-- The signals that a step of the kernel sends. -/
def signals (k' : Kernel) : Label → List (Signal Slot)
  | .step t e => (k.proc t).process.toList.flatMap fun L => k.sent t L e k' (k.pc t)
  | .block t a => [.doze t (.addr a)]
  | .wakeup a => [.wake (.addr a)]
  | _ => []

/-- From `k` to `k'` the slots receive the signals `σ` and nothing else. -/
def Sends (σ : List (Signal Slot)) (k k' : Kernel) : Prop :=
  ∀ s, (k'.proc s).seat = Signal.applyAll s (k.proc s).seat σ

variable {k} {k₁ k' : Kernel} {σ : List (Signal Slot)} {t L s : Slot} {e : Env} {f : Proc → Proc}

namespace Sends

theorem of_eq (h : k'.proc = k.proc) : Sends [] k k' := fun s => by rw [h]; rfl

theorem refl : Sends [] k k := .of_eq rfl

theorem goto (h : Sends σ k k₁) (c : Pc) : Sends σ k (k₁.goto t c) := h

theorem ret (h : Sends σ k k₁) (r : ℤ) : Sends σ k (k₁.ret t r) := h

theorem modify (h : Sends σ k k₁) (hf : (f (k₁.proc s)).seat = (k₁.proc s).seat) :
    Sends σ k (k₁.modify s f) := by
  intro u
  by_cases hu : u = s
  · subst hu
    simp only [Kernel.modify, Function.update_self]
    exact hf.trans (h u)
  · simp only [Kernel.modify, Function.update_of_ne hu]
    exact h u

theorem wakeful (h : Sends σ k k₁) (hs : (k₁.proc s).state ≠ .sleeping)
    (hf : (f (k₁.proc s)).state ≠ .sleeping)
    (hlost : (f (k₁.proc s)).lostwakeup = (k₁.proc s).lostwakeup) : Sends σ k (k₁.modify s f) := by
  apply h.modify
  rw [Proc.seat_of_awake hs, Proc.seat_of_awake hf, hlost]

theorem wakeup1 (h : Sends σ k k₁) (c : Chan) : Sends (σ ++ [.wake c]) k (k₁.wakeup1 c) := by
  intro s
  rw [Signal.applyAll_append, ← h s]
  by_cases hs : (k₁.proc s).state = .sleeping
  · by_cases hc : (k₁.proc s).chan = c <;>
      simp [Kernel.wakeup1, Signal.apply, Proc.seat, hs, hc]
  · simp [Kernel.wakeup1, Signal.apply, Proc.seat, hs]

theorem one {x : Signal Slot} (h : Sends σ k k₁)
    (hself : (f (k₁.proc s)).seat = x.apply s (k₁.proc s).seat)
    (hother : ∀ u r, u ≠ s → x.apply u r = r) : Sends (σ ++ [x]) k (k₁.modify s f) := by
  intro u
  rw [Signal.applyAll_append, ← h u, Signal.applyAll_singleton]
  by_cases hu : u = s
  · subst hu
    simpa only [Kernel.modify, Function.update_self] using hself
  · rw [hother u _ hu]
    simp only [Kernel.modify, Function.update_of_ne hu]

theorem sleep {c : Chan} : Sends [.doze t c] k (k.sleep t c) :=
  .one .refl (by simp [Proc.seat, Signal.apply]) fun u r hu => by simp [Signal.apply, hu]

theorem setFile (h : Sends σ k k₁) (fd : Fd) (g : Option File) :
    Sends σ k (k₁.setFile s fd g) :=
  h.modify rfl

theorem filedup {g : File} {next : Kernel → Kernel} (hnext : ∀ r, Sends [] k (next { k with ref := r })) :
    Sends [] k (k.filedup g next) := by
  unfold Kernel.filedup
  split
  · exact .of_eq rfl
  · exact hnext _

theorem fileclose {g : File} {next : Kernel → Kernel}
    (hnext : ∀ r, Sends [] k (next { k with ref := r })) : Sends [] k (k.fileclose g next) := by
  unfold Kernel.fileclose
  split
  · exact .of_eq rfl
  · exact hnext _

theorem filealloc {g : File} (h : k.filealloc = some (g, k')) : Sends [] k k' := by
  unfold Kernel.filealloc at h
  obtain ⟨_, _, heq⟩ := Option.map_eq_some_iff.mp h
  cases heq
  exact .of_eq rfl

theorem setDir {d : Pgdir} : Sends [] k (k.setDir s d) := by
  unfold Kernel.setDir
  split
  · exact .of_eq rfl
  · exact .refl

end Sends

theorem sends_allocproc {next : Slot → Pc} : Sends [] k (k.allocproc t next) := by
  unfold allocproc
  split
  · exact .ret .refl _
  · next p hp =>
    split
    · exact .of_eq rfl
    · have hunused : (k.proc p).state = .unused := by
        simpa using (Fin.find?_eq_some_iff.mp hp).1
      exact .goto (.wakeful (.of_eq rfl) (by simp [hunused]) (by nofun) rfl) _

theorem sends_allocKstack {np : Slot} {fields : Proc → Proc} {next : Pc}
    (hnp : (k.proc np).state = .embryo) (hfields : ∀ q, (fields q).state = q.state)
    (hlost : ∀ q, (fields q).lostwakeup = .null) :
    Sends (if e.mem = 0 then [] else [.forget np]) k (k.allocKstack t np e fields next) := by
  unfold allocKstack
  split
  · exact .ret (.wakeful .refl (by simp [hnp]) (by nofun) rfl) _
  · refine .goto (.one (.of_eq rfl) ?_ fun u r hu => by simp [Signal.apply, hu]) _
    simp [Proc.seat, Signal.apply, hfields, hlost, hnp]

theorem sends_dupFiles {fds : List Fd} {store : Fd → File → List Fd → Pc} {done : Pc} :
    Sends [] k (k.dupFiles t fds store done) := by
  unfold dupFiles
  split
  · exact .goto .refl _
  · exact .filedup fun r => .goto (.of_eq rfl) _

theorem sends_forkStep {c : ForkPc}
    (hnp : ∀ kd st np, (Pc.fork c).job = .build kd st np → (k.proc np).state = .embryo) :
    Sends (k.sent t L e k' (.fork c)) k (k.forkStep t L e c) := by
  cases c with
  | alloc => exact sends_allocproc
  | init np =>
    rw [forkStep]
    exact sends_allocKstack (hnp _ _ np rfl) (fun _ => rfl) fun _ => rfl
  | copy np =>
    have hembryo := hnp _ _ np rfl
    simp only [forkStep]
    split
    · exact .of_eq rfl
    · exact .ret (.wakeful (.of_eq rfl) (by simp [hembryo]) (by simp) rfl) _
    · exact .goto (.modify (.of_eq rfl) rfl) _
  | parent np => exact .goto (.modify (.of_eq rfl) rfl) _
  | files np fds => exact sends_dupFiles
  | file np fd f fds => exact .goto (.setFile .refl _ _) _
  | cwd np => exact .goto .refl _
  | idup np cwd => exact .goto (.modify (.of_eq rfl) rfl) _
  | publish np =>
    have hembryo := hnp _ _ np rfl
    exact .ret (.goto (.wakeful .refl (by simp [hembryo]) (by simp) rfl) _) _

theorem sends_cloneStep {c : ClonePc}
    (hnp : ∀ kd st np, (Pc.clone c).job = .build kd st np → (k.proc np).state = .embryo) :
    Sends (k.sent t L e k' (.clone c)) k (k.cloneStep t L e c) := by
  cases c with
  | check stack =>
    simp only [cloneStep]
    split
    · exact .ret .refl _
    · exact .goto .refl _
  | alloc => exact sends_allocproc
  | init np =>
    rw [cloneStep]
    exact sends_allocKstack (hnp _ _ np rfl) (fun _ => rfl) fun _ => rfl
  | pgdir np | parent np | setParent np p => exact .goto (.modify .refl rfl) _
  | files np fds => exact sends_dupFiles
  | file np fd f fds => exact .goto (.setFile .refl _ _) _
  | publish np =>
    have hembryo := hnp _ _ np rfl
    simp only [cloneStep]
    split
    · exact .ret (.wakeful .refl (by simp [hembryo]) (by simp) rfl) _
    · refine .ret (.goto (.modify (.wakeful .refl (by simp [hembryo]) (by simp) rfl) rfl) _) _

theorem sends_enterExit : Sends [] k (k.enterExit t) := by
  unfold enterExit
  split
  · exact .of_eq rfl
  · exact .goto .refl _

theorem orphans_wakeup1 (c : Chan) : (k.wakeup1 c).orphans t = k.orphans t := by
  unfold orphans
  congr! 4 with p
  · simp only [wakeup1]
    split <;> rfl
  · simp only [wakeup1]
    split
    · next h => simp [h.1]
    · rfl

theorem orphans_modify_count (g : ℕ → ℕ) :
    (k.modify s fun q => { q with threadcount := g q.threadcount }).orphans t = k.orphans t := by
  unfold orphans
  congr! 4 with p <;> (simp only [modify, Function.update_apply]; split <;> simp_all)

theorem sends_reparent (h : Sends σ k k₁) :
    Sends (σ ++ (if k₁.orphans s then [.slot k₁.initproc] else []).map .wake) k (k₁.reparent s) := by
  have hparents : ∀ p : Slot → Proc, (∀ u, (p u).seat = (k₁.proc u).seat) →
      Sends σ k { k₁ with proc := p } := fun p hp u => (hp u).trans (h u)
  have horphans : k₁.orphans s = true ↔
      ∃ p, (k₁.proc p).parent = some s ∧ (k₁.proc p).state = .zombie := by
    simp [orphans]
  unfold Kernel.reparent
  by_cases hex : k₁.orphans s = true
  · rw [if_pos hex, if_pos (horphans.mp hex)]
    exact (hparents _ fun u => by split <;> rfl).wakeup1 _
  · rw [if_neg hex, if_neg (mt horphans.mpr hex), List.map_nil, List.append_nil]
    exact hparents _ fun u => by split <;> rfl

theorem sends_exitWakes (count : ℕ → ℕ) :
    Sends ((k.exitWakes t L).map .wake) k ((((k.wakeup1 (.ofSlot (k.proc t).parent)).wakeup1
      (.slot L)).modify L fun q => { q with threadcount := count q.threadcount }).reparent t) := by
  have h := sends_reparent (s := t) (Sends.modify (s := L)
    (f := fun q => { q with threadcount := count q.threadcount })
    ((Sends.refl (k := k)).wakeup1 (.ofSlot (k.proc t).parent) |>.wakeup1 (.slot L)) rfl)
  rw [orphans_modify_count, orphans_wakeup1, orphans_wakeup1] at h
  rw [exitWakes, List.map_append]
  exact h

theorem sends_exitStep {c : ExitPc} (ht : (k.proc t).state = .running) :
    Sends (k.sent t L e k' (.exit c)) k (k.exitStep t L c) := by
  cases c with
  | close fds =>
    simp only [exitStep]
    split
    · exact .goto .refl _
    · exact .fileclose fun r => .goto (.of_eq rfl) _
  | clear fd fds => exact .goto (.setFile .refl _ _) _
  | count => exact .goto .refl _
  | iput => exact .goto (.modify (.of_eq rfl) (by rfl)) _
  | zombie =>
    have hall := sends_exitWakes (k := k) (t := t) (L := L) fun n => (n + (2 ^ 32 - 1)) % 2 ^ 32
    simp only [exitStep]
    refine .goto (.wakeful hall (fun hs => ?_) (by simp) (by rfl)) _
    -- The thread that exits is running, and nothing has put it to sleep.
    have hasleep := Signal.asleep_wakes (s := t) (r := (k.proc t).seat) (by simp [Proc.seat, ht])
      (k.exitWakes t L)
    rw [← hall t] at hasleep
    exact Proc.awake_of_seat hasleep hs

theorem sends_awake (hs : (k'.proc t).state ≠ .sleeping) (h : Sends [] k k') :
    Sends (if (k'.proc t).state = .sleeping then [.doze t (.slot L)] else []) k k' := by
  rwa [if_neg hs]

theorem sends_asleep {c : Pc} :
    Sends (if (((k.sleep t (.slot L)).goto t c).proc t).state = .sleeping then
      [.doze t (.slot L)] else []) k ((k.sleep t (.slot L)).goto t c) := by
  rw [if_pos (by simp [Kernel.sleep, Kernel.goto, Kernel.modify])]
  exact .goto .sleep _

theorem seat_reaped {q : Proc} (h : q.state = .zombie) : (reaped q).seat = q.seat := by
  rw [Proc.seat_of_awake (by nofun), Proc.seat_of_awake (by simp [h])]
  rfl

theorem sends_waitStep (ht : (k.proc t).state = .running) :
    Sends (if ((k.waitStep t L).proc t).state = .sleeping then [.doze t (.slot L)] else []) k
      (k.waitStep t L) := by
  unfold waitStep
  split
  · exact sends_awake (by simp [Kernel.ret, Kernel.goto, ht]) (.ret .refl _)
  · split
    · rw [if_pos (by simp [Kernel.sleep, Kernel.modify])]
      exact .sleep
    · unfold reapGroup
      split
      · next hz =>
        refine sends_awake ?_ (.ret (fun u => ?_) _)
        · simp only [Kernel.ret, Kernel.goto]
          split
          · rintro ⟨⟩
          · simp [ht]
        · simp only [Signal.applyAll_nil]
          split
          · next hu => exact seat_reaped (hz u hu)
          · rfl
      · exact sends_awake (by simp [Kernel.panic, Kernel.halt, ht]) (.of_eq rfl)

theorem sends_joinLoop {pid : ℤ} {p : Slot} (ht : (k.proc t).state = .running) :
    Sends (if ((k.joinLoop t L pid p).proc t).state = .sleeping then [.doze t (.slot L)] else []) k
      (k.joinLoop t L pid p) := by
  unfold joinLoop
  split
  · split
    · exact sends_awake (by simp [Kernel.ret, Kernel.goto, ht]) (.ret .refl _)
    · exact sends_asleep
  · next hz =>
    split
    · have hreap : Sends [] k (k.reapSlot p) :=
        .modify (.of_eq (by rfl)) (seat_reaped (not_not.mp hz))
      refine sends_awake ?_ (.ret hreap _)
      simp only [Kernel.ret, Kernel.goto, reapSlot, Kernel.modify, Function.update_apply]
      split
      · rintro ⟨⟩
      · simp [ht]
    · exact sends_awake (by simp [Kernel.ret, Kernel.goto, ht]) (.ret .refl _)

theorem sends_joinStep {pid : ℤ} (ht : (k.proc t).state = .running) :
    Sends (if ((k.joinStep t L e pid).proc t).state = .sleeping then [.doze t (.slot L)] else []) k
      (k.joinStep t L e pid) := by
  unfold joinStep
  split
  · split
    · exact sends_joinLoop ht
    · exact sends_awake (by simp [Kernel.ret, Kernel.goto, ht]) (.ret .refl _)
  · split
    · exact sends_awake (by simp [Kernel.ret, Kernel.goto, ht]) (.ret .refl _)
    · exact sends_awake (by simp [Kernel.halt, ht]) (.of_eq rfl)

theorem seat_marked (q : Proc) : (marked q).seat = { q.seat with asleep := none } := by
  rw [Proc.seat_of_awake marked_asleep]
  rfl

theorem sends_execStep {c : ExecPc} (ht : (k.proc t).state = .running) :
    Sends (k.sent t L e (k.execStep t L e c) (.exec c)) k (k.execStep t L e c) := by
  cases c with
  | mark =>
    simp only [execStep, execMark, sent]
    split
    · exact .ret .refl _
    · refine .goto (fun u => ?_) _
      simp only [Signal.applyAll_rouse, List.mem_filter, List.mem_finRange, true_and,
        decide_eq_true_eq]
      split
      · exact seat_marked _
      · rfl
  | wait =>
    simp only [execStep, sent]
    split
    · rw [if_pos (by simp [Kernel.sleep, Kernel.modify])]
      exact .sleep
    · exact sends_awake (by simp [Kernel.goto, ht]) (.goto .refl _)
  | swap | take | setCount => exact .goto (.modify .refl (by rfl)) _
  | setLost =>
    refine .goto (.one .refl ?_ fun u r hu => ?_) _
    · simp [Proc.seat, Signal.apply]
    · simp [Signal.apply, hu]
  | load =>
    simp only [execStep]
    split
    · exact .ret .refl _
    · split
      · exact .of_eq rfl
      · exact .ret .refl _
      · exact .goto (.of_eq rfl) _
  | commit image sz => exact .ret (.modify (.of_eq rfl) rfl) _

theorem sends_killStep {pid : ℤ} :
    Sends (k.sent t L e k' (.kill pid)) k (k.killStep t pid) := by
  simp only [killStep, sent]
  split
  · next h =>
    rw [h]
    exact .ret .refl _
  · next p h =>
    rw [h]
    refine .ret (.one .refl ?_ fun u r hu => ?_) _
    · simp [seat_marked, Signal.apply]
    · simp [Signal.apply, hu]

theorem sends_parkStep {c : Chan} (ht : (k.proc t).state = .running) :
    Sends (k.sent t L e k' (.park c)) k (k.parkStep t c) := by
  have hother : ∀ u r, u ≠ t → (Signal.park t c).apply u r = r := fun u r hu => by
    simp [Signal.apply, hu]
  unfold parkStep
  split
  · next hlost =>
    refine .ret (.one .refl ?_ hother) _
    simp [Proc.seat, Signal.apply, hlost, ht]
  · next hlost =>
    have htwo : ((k.sleep t c).modify t fun q => { q with lostwakeup := .null }) =
        k.modify t fun q => { q with chan := c, state := .sleeping, lostwakeup := .null } := by
      simp [Kernel.sleep, Kernel.modify]
    rw [htwo]
    refine .goto (.one .refl ?_ hother) _
    simp [Proc.seat, Signal.apply, hlost]

theorem sends_unparkStep {pid : ℤ} {c : Chan} :
    Sends (k.sent t L e k' (.unpark pid c)) k (k.unparkStep t e pid c) := by
  simp only [unparkStep, sent]
  split
  · next p h =>
    have hother : ∀ u r, u ≠ p → (Signal.unpark p c).apply u r = r := fun u r hu => by
      simp [Signal.apply, hu]
    rw [h]
    split
    · next hs =>
      refine .ret (.one .refl ?_ hother) _
      simp [Proc.seat, Signal.apply, hs]
    · next hs =>
      refine .ret (.one .refl ?_ hother) _
      by_cases hsleep : (k.proc p).state = .sleeping
      · have hc : (k.proc p).chan ≠ c := fun hc => hs ⟨hsleep, hc⟩
        simp [Proc.seat, Signal.apply, hsleep, hc]
      · simp [Proc.seat, Signal.apply, hsleep]
  · next h =>
    rw [h]
    split
    · exact .ret .refl _
    · exact .of_eq rfl

theorem sends_growprocStep {n : ℤ} {addr : ℕ} : Sends [] k (k.growprocStep t L e n addr) := by
  simp only [growprocStep]
  split
  · split
    · exact .of_eq rfl
    · split
      · exact .ret .setDir _
      · exact .ret (.modify .setDir rfl) _
  · split
    · split
      · exact .ret .setDir _
      · exact .ret (.modify .setDir rfl) _
    · exact .ret (.modify .refl rfl) _

theorem sends_fileStep {c : FilePc} : Sends [] k (k.fileStep t e c) := by
  cases c with
  | «open» =>
    simp only [fileStep]
    split
    · split
      · exact .ret .refl _
      · next h => exact .goto (.filealloc h) _
    · exact .ret .refl _
  | openFd g =>
    simp only [fileStep]
    split
    · exact .goto .refl _
    · exact .ret (.setFile .refl _ _) _
  | dup fd =>
    simp only [fileStep]
    split
    · exact .goto (.setFile .refl _ _) _
    · exact .ret .refl _
  | dupped f fd =>
    rw [fileStep]
    exact .filedup fun r => .ret (.of_eq rfl) _
  | close fd =>
    simp only [fileStep]
    split
    · exact .ret .refl _
    · exact .goto (.setFile .refl _ _) _
  | closing fs r =>
    cases fs with
    | nil => exact .ret .refl _
    | cons f fs =>
      rw [fileStep, closeFiles]
      exact .fileclose fun r => .goto (.of_eq rfl) _
  | pipe =>
    simp only [fileStep]
    split
    · exact .ret .refl _
    · next h => exact .goto (.filealloc h) _
  | pipeWrite rf =>
    simp only [fileStep]
    split
    · exact .goto .refl _
    · next h => exact .goto (.filealloc h) _
  | pipeFds rf wf =>
    simp only [fileStep]
    split
    · exact .goto .refl _
    · unfold pipeFds
      split
      · exact .goto .refl _
      · split
        · exact .goto (.setFile (.setFile .refl _ _) _ _) _
        · exact .ret (.setFile (.setFile .refl _ _) _ _) _

theorem sends_callStep (ht : (k.proc t).state = .running)
    (hnp : ∀ kd st np, (k.pc t).job = .build kd st np → (k.proc np).state = .embryo)
    (h : k.callStep t L e (k.pc t) = some k') : Sends (k.sent t L e k' (k.pc t)) k k' := by
  generalize k.pc t = c at h hnp
  cases c with
  | dead | user => simp [callStep] at h
  | ret r | trap =>
    simp only [callStep, Option.some.injEq] at h
    split at h <;> subst h
    · exact sends_enterExit
    · exact .goto .refl _
  | fork c => exact Option.some.inj h ▸ sends_forkStep hnp
  | clone c => exact Option.some.inj h ▸ sends_cloneStep hnp
  | exit c => exact Option.some.inj h ▸ sends_exitStep ht
  | wait =>
    cases h
    rw [sent]
    exact sends_waitStep ht
  | join pid =>
    cases h
    rw [sent]
    exact sends_joinStep ht
  | joinWait pid p =>
    cases h
    rw [sent]
    exact sends_joinLoop ht
  | exec c => exact Option.some.inj h ▸ sends_execStep ht
  | kill pid => exact Option.some.inj h ▸ sends_killStep
  | park ch => exact Option.some.inj h ▸ sends_parkStep ht
  | parked => exact Option.some.inj h ▸ .ret .refl _
  | unpark pid ch => exact Option.some.inj h ▸ sends_unparkStep
  | sbrk n => exact Option.some.inj h ▸ .goto .refl _
  | growproc n addr => exact Option.some.inj h ▸ sends_growprocStep
  | file c => exact Option.some.inj h ▸ sends_fileStep

theorem sends_next {l : Label} (hinv : Group.Inv k.group) (h : k.next l = some k') :
    Sends (k.signals k' l) k k' := by
  cases l with
  | schedule t | yield t =>
    obtain ⟨⟨_, hs⟩, ⟨⟩⟩ := Option.ite_none_right_eq_some.mp h
    exact .wakeful .refl (by simp [hs]) (by nofun) rfl
  | syscall t c =>
    obtain ⟨_, ⟨⟩⟩ := Option.ite_none_right_eq_some.mp h
    split
    · exact sends_enterExit
    · cases c with
      | exit => exact sends_enterExit
      | _ => exact .goto .refl _
  | interrupt t =>
    obtain ⟨_, ⟨⟩⟩ := Option.ite_none_right_eq_some.mp h
    exact sends_enterExit
  | fault t =>
    obtain ⟨_, ⟨⟩⟩ := Option.ite_none_right_eq_some.mp h
    exact .goto (.modify .refl (by rfl)) _
  | step t e =>
    obtain ⟨hs, L, hL, hstep⟩ := callStep_of_next hinv h
    rw [signals, hL]
    simp only [Option.toList_some, List.flatMap_cons, List.flatMap_nil, List.append_nil]
    refine sends_callStep hs (fun kd st np hj => ?_) hstep
    have hembryo := hinv.build_embryo t kd st np hj
    simp only [group] at hembryo
    cases hnp : (k.proc np).state <;> simp [hnp, ProcState.phase] at hembryo
    rfl
  | block t a =>
    obtain ⟨_, ⟨⟩⟩ := Option.ite_none_right_eq_some.mp h
    exact .sleep
  | wakeup a =>
    obtain ⟨_, ⟨⟩⟩ := Option.ite_none_right_eq_some.mp h
    exact Sends.refl.wakeup1 _

end Kernel

end KThreads
