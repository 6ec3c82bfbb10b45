import KThreads.Parking

/-!
# What other processes can do to the mailboxes of a group

The sleep and the mailboxes of the threads of one group, named by their pids, are a
function of what these threads do, of the `kill` and `exit` calls of all threads and of
the wakeups of the kernel: a run is projected to a list of such events, and the events
are replayed on a view of the group. Runs that agree on the events agree on the view,
as long as no thread of another group names one of the group in `unpark`, which does
not look at the group of the thread it is for.
-/

namespace KThreads

open Function (update update_of_ne update_self)
open Transition (Reach)

/-- The sleep and the mailbox of a thread, and whether it has the leader slot. -/
structure Place where
  seat : Seat
  leads : Bool

/-- What concerns the threads of a group; `mark` and `take` are steps of `exec`. -/
inductive Event
  | create (p : ℤ) (leads : Bool)
  | leave (p : ℤ)
  | mark (p : ℤ)
  | take (p : ℤ)
  | send (x : Signal ℤ)
  deriving DecidableEq

/-- The threads of a group by their pids. -/
abbrev View := ℤ → Option Place

namespace View

variable {g p : ℤ} {v : View} {l : Label}

/-- Replay an event on the view of the group `g`. -/
def apply (g : ℤ) (v : View) : Event → View
  | .create p leads => update v p (some ⟨⟨none, .null⟩, leads⟩)
  | .leave p => update v p none
  | .mark p => fun q => (v q).map fun r =>
      if q = p then r else { r with seat := { r.seat with asleep := none } }
  -- The thread becomes the process.
  | .take p => update (update v p none) g (v p)
  | .send x => fun q => (v q).map fun r => { r with seat := x.apply q r.seat }

/-- Replay a list of events. -/
def replay (g : ℤ) (v : View) (es : List Event) : View := es.foldl (apply g) v

@[simp] theorem replay_nil : replay g v [] = v := rfl

@[simp] theorem replay_singleton (e : Event) : replay g v [e] = apply g v e := rfl

@[simp] theorem replay_append (es es' : List Event) :
    replay g v (es ++ es') = replay g (replay g v es) es' :=
  List.foldl_append

theorem replay_send (xs : List (Signal ℤ)) :
    replay g v (xs.map .send) p =
      (v p).map fun r => { r with seat := Signal.applyAll p r.seat xs } := by
  induction xs generalizing v with
  | nil => simp
  | cons x xs ih =>
    have hcons : replay g v ((x :: xs).map .send) = replay g (apply g v (.send x)) (xs.map .send) :=
      rfl
    rw [hcons, ih]
    simp [apply, Signal.applyAll_cons, Function.comp_def]

/-- The view of a group after `userinit`. -/
def start (g : ℤ) : View := fun p => if g = 1 ∧ p = 1 then some ⟨⟨none, .null⟩, true⟩ else none

end View

namespace Kernel

variable (k : Kernel) (g : ℤ)

/-- The events of a step of the thread `t` of the process `L`. -/
def toldStep (k' : Kernel) (t L : Slot) (e : Env) : Pc → List Event
  | .fork (.init np) => if e.mem ≠ 0 ∧ (k.proc np).pid = g then [.create g true] else []
  | .fork (.copy np) =>
      if (k.proc np).tgid = g ∧ (k'.proc np).state = .unused then [.leave (k.proc np).pid] else []
  | .clone (.init np) =>
      if e.mem ≠ 0 ∧ (k.proc t).tgid = g then [.create (k.proc np).pid false] else []
  | .clone (.publish np) =>
      if (k.proc t).tgid = g ∧ (k.proc t).killed then [.leave (k.proc np).pid] else []
  | .exit .zombie =>
      ((k.exitWakes t L).map .wake).map .send ++
        if (k.proc t).tgid = g then [.leave (k.proc t).pid] else []
  | .wait | .join _ | .joinWait _ _ | .exec .wait =>
      if (k.proc t).tgid = g ∧ (k'.proc t).state = .sleeping then
        [.send (.doze (k.proc t).pid (.slot L))]
      else []
  | .exec .mark =>
      if (k.proc t).tgid = g ∧ (k.proc t).killed = false then [.mark (k.proc t).pid] else []
  | .exec .take => if (k.proc t).tgid = g then [.take (k.proc t).pid] else []
  | .exec .setLost =>
      if (k.proc t).tgid = g ∧ t = L then [.send (.forget (k.proc t).pid)] else []
  | .kill pid => [.send (.rouse pid)]
  | .park c => if (k.proc t).tgid = g then [.send (.park (k.proc t).pid c)] else []
  | .unpark pid c => if (k.proc t).tgid = g then [.send (.unpark pid c)] else []
  | _ => []

/-- The events of a step that concern the group `g`: what its threads do, and the `kill`
and `exit` calls and the wakeups of all others. -/
def told (k' : Kernel) : Label → List Event
  | .step t e => (k.proc t).process.toList.flatMap fun L => k.toldStep g k' t L e (k.pc t)
  | .block t a =>
      if (k.proc t).tgid = g then [.send (.doze (k.proc t).pid (.addr a))] else []
  | .wakeup a => [.send (.wake (.addr a))]
  | _ => []

/-- The history of the events of a group. -/
def tell (h : List Event) (l : Label) : List Event :=
  h ++ (k.next l).toList.flatMap fun k' => k.told g k' l

/-- A slot holds a thread of the group. -/
def Crew (s : Slot) : Prop := k.group.Seated s ∧ (k.proc s).tgid = g

/-- What the view of its group says about a thread. -/
def place (s : Slot) : Place := ⟨(k.proc s).seat, (k.proc s).process = some s⟩

/-- A pid of a thread of the group that is passed to `unpark` or `kill` belongs to one
slot in use only; and only threads of the group name it in `unpark`. -/
def MindsAt (t : Slot) : Prop :=
  match k.pc t with
  | .unpark pid _ => ∀ s, (k.proc s).state ≠ .unused → (k.proc s).state ≠ .zombie →
      (k.proc s).tgid = g → (k.proc s).pid = pid → (k.proc t).tgid = g ∧ k.findPid pid = some s
  | .kill pid => ∀ s, (k.proc s).state ≠ .unused → (k.proc s).state ≠ .zombie →
      (k.proc s).tgid = g → (k.proc s).pid = pid → k.findPid pid = some s
  | _ => True

instance (t : Slot) : Decidable (k.MindsAt g t) := by
  unfold MindsAt
  generalize k.pc t = c
  induction c using Pc.casesOn <;> dsimp only <;> infer_instance

end Kernel

/-- No thread of another group names one of the group in `unpark`. -/
abbrev minds (g : ℤ) : Kernel → Label → Prop := onStep fun k t => k.MindsAt g t

/-- The states reached with the history of the events of a group. -/
abbrev ToldReachable (g : ℤ) (ok : Kernel → Label → Prop) : Kernel × List Event → Prop :=
  Reach (kernel.recording [] fun h k l => k.tell g h l) fun x l => ok x.1 l

/-- A view shows the threads of the group as they are. -/
structure View.Shows (v : View) (g : ℤ) (k : Kernel) : Prop where
  seats : ∀ s, k.Crew g s → v (k.proc s).pid = some (k.place s)
  only : ∀ p, v p ≠ none → ∃ s, k.Crew g s ∧ (k.proc s).pid = p

/-- A move leaves the threads of all groups and their pids as they are. -/
def Group.Move.settled {ι : Type*} : Group.Move ι → Bool
  | .group .. | .exit .. | .release .. | .stillborn .. | .take .. => false
  | _ => true

/-- The thread that its group loses in a move. -/
def Group.Move.left {ι : Type*} : Group.Move ι → Option ι
  | .exit t _ => some t
  | .release _ np | .stillborn _ np => some np
  | _ => none

/-- The points at which a group gets or loses a thread, or a thread another pid. -/
def Pc.resettles : Pc → Bool
  | .fork (.init _) | .fork (.copy _) | .clone (.init _) | .clone (.publish _) => true
  | .exit .zombie | .exec .take => true
  | _ => false

namespace Kernel

variable {k k' : Kernel} {g : ℤ} {v v' : View} {t L s u : Slot} {e : Env}

theorem crew_of_running (ht : (k.proc t).state = .running) (hg : (k.proc t).tgid = g) :
    k.Crew g t :=
  ⟨Or.inl (phase_of_running ht), hg⟩

theorem Crew.pid_inj (hinv : Group.Inv k.group) (hs : k.Crew g s) (hu : k.group.Seated u) :
    (k.proc s).pid = (k.proc u).pid ↔ s = u := by
  refine ⟨fun h => ?_, fun h => h ▸ rfl⟩
  exact hinv.pid_inj s u (hinv.phase_of_seated hs.1) (hinv.phase_of_seated hu) h

theorem Crew.in_use (hinv : Group.Inv k.group) (hs : k.Crew g s) :
    (k.proc s).state ≠ .unused ∧ (k.proc s).state ≠ .zombie := by
  have hphase := hinv.phase_of_seated hs.1
  constructor <;> (intro hstate; simp [group, hstate, ProcState.phase] at hphase)

theorem shows_of_next (hshow : v.Shows g k)
    (hcrew : ∀ s, k'.Crew g s → k.Crew g s ∧ (k'.proc s).pid = (k.proc s).pid ∧
      (k'.proc s).process = (k.proc s).process)
    (hseats : ∀ s, k'.Crew g s → v' (k.proc s).pid =
      (v (k.proc s).pid).map fun r => { r with seat := (k'.proc s).seat })
    (honly : ∀ p, v' p ≠ none → v p ≠ none ∧
      ∀ s, k.Crew g s → (k.proc s).pid = p → k'.Crew g s) : v'.Shows g k' where
  seats s hs := by
    obtain ⟨hs₀, hpid, hprocess⟩ := hcrew s hs
    rw [hpid, hseats s hs, hshow.seats s hs₀]
    simp [place, hprocess]
  only p hp := by
    obtain ⟨hp₀, hstays⟩ := honly p hp
    obtain ⟨s, hs, hpid⟩ := hshow.only p hp₀
    have hs' := hstays s hs hpid
    exact ⟨s, hs', (hcrew s hs').2.1.trans hpid⟩

theorem settled_of_makes {c : Pc} {m : Group.Move Slot} (hm : k.Makes t c m)
    (hc : c.resettles = false) : m.settled = true := by
  cases hm <;> first | rfl | cases hc

theorem crew_of_settled (hinv : Group.Inv k.group)
    (hsettled : Follows k (fun m => m.settled = true) k') (s : Slot) :
    (k'.Crew g s ↔ k.Crew g s) ∧ (k.Crew g s → (k'.proc s).pid = (k.proc s).pid ∧
      (k'.proc s).process = (k.proc s).process) := by
  rcases hsettled with hstay | ⟨m, hsettled, hst⟩
  · have hpid : (k'.proc s).pid = (k.proc s).pid := congrFun (congrArg Group.Table.pid hstay) s
    have htgid : (k'.proc s).tgid = (k.proc s).tgid := congrFun (congrArg Group.Table.tgid hstay) s
    have hprocess : (k'.proc s).process = (k.proc s).process :=
      congrFun (congrArg Group.Table.process hstay) s
    exact ⟨by rw [Crew, Crew, hstay, htgid], fun _ => ⟨hpid, hprocess⟩⟩
  · have hback : k'.group.Seated s → k.group.Seated s ∧ (k'.proc s).tgid = (k.proc s).tgid ∧
        (k'.proc s).process = (k.proc s).process ∧ (k'.proc s).pid = (k.proc s).pid := by
      intro hs
      rcases hst.seated hinv hs with ⟨hs₀, htgid, hprocess, hpid | ⟨rfl, -⟩⟩ | ⟨t, kd, rfl⟩
      · exact ⟨hs₀, htgid, hprocess, hpid⟩
      · cases hsettled
      · cases hsettled
    have hforth : k.group.Seated s → k'.group.Seated s := by
      intro hs
      rcases hst.seated_stays hinv hs with hs' | ⟨L, rfl⟩ | ⟨t, rfl | rfl⟩
      · exact hs'
      all_goals cases hsettled
    refine ⟨⟨fun hs => ?_, fun hs => ?_⟩, fun hs => ?_⟩
    · exact ⟨(hback hs.1).1, (hback hs.1).2.1 ▸ hs.2⟩
    · exact ⟨hforth hs.1, (hback (hforth hs.1)).2.1.trans hs.2⟩
    · exact ⟨(hback (hforth hs.1)).2.2.2, (hback (hforth hs.1)).2.2.1⟩

theorem shows_of_settled (hinv : Group.Inv k.group) (hshow : v.Shows g k)
    (hsettled : Follows k (fun m => m.settled = true) k')
    (hseats : ∀ s, k.Crew g s → v' (k.proc s).pid =
      (v (k.proc s).pid).map fun r => { r with seat := (k'.proc s).seat })
    (hnone : ∀ p, v p = none → v' p = none) : v'.Shows g k' := by
  have hcrew := crew_of_settled (g := g) hinv hsettled
  refine shows_of_next hshow (fun s hs => ?_) (fun s hs => ?_) fun p hp => ⟨mt (hnone p) hp, ?_⟩
  · have hs₀ := (hcrew s).1.mp hs
    exact ⟨hs₀, (hcrew s).2 hs₀⟩
  · exact hseats s ((hcrew s).1.mp hs)
  · exact fun s hs _ => (hcrew s).1.mpr hs

theorem shows_of_send (xs : List (Signal ℤ)) (hinv : Group.Inv k.group)
    (hshow : v.Shows g k) (hsettled : Follows k (fun m => m.settled = true) k')
    (hnext : k.next l = some k')
    (hsame : ∀ s, k.Crew g s → Signal.applyAll (k.proc s).pid (k.proc s).seat xs =
      Signal.applyAll s (k.proc s).seat (k.signals k' l)) :
    (View.replay g v (xs.map .send)).Shows g k' := by
  refine shows_of_settled hinv hshow hsettled (fun s hs => ?_) fun p hp => ?_
  · rw [View.replay_send, hshow.seats s hs, Option.map_some, Option.map_some]
    simp only [place]
    rw [hsame s hs, ← sends_next hinv hnext s]
  · rw [View.replay_send, hp, Option.map_none]

theorem shows_of_own {x : Slot → Signal Slot} {y : ℤ → Signal ℤ}
    (hinv : Group.Inv k.group) (hshow : v.Shows g k)
    (hsettled : Follows k (fun m => m.settled = true) k') (hnext : k.next l = some k')
    (ht : (k.proc t).state = .running) (hsignals : k.signals k' l = [x t])
    (hself : ∀ r, (y (k.proc t).pid).apply (k.proc t).pid r = (x t).apply t r)
    (hother : ∀ r s, s ≠ t → (x t).apply s r = r) (hother' : ∀ r p q, q ≠ p → (y p).apply q r = r) :
    (View.replay g v (if (k.proc t).tgid = g then [.send (y (k.proc t).pid)] else [])).Shows g k' := by
  split
  · next hg =>
    refine shows_of_send [y (k.proc t).pid] hinv hshow hsettled hnext fun s hs => ?_
    have hinj := hs.pid_inj hinv (crew_of_running ht hg).1
    rw [hsignals, Signal.applyAll_singleton, Signal.applyAll_singleton]
    by_cases hst : s = t
    · subst hst
      exact hself _
    · rw [hother _ s hst, hother' _ _ _ (mt hinj.mp hst)]
  · next hg =>
    refine shows_of_send [] hinv hshow hsettled hnext fun s hs => ?_
    have hst : s ≠ t := by
      rintro rfl
      exact hg hs.2
    rw [hsignals, Signal.applyAll_singleton, hother _ s hst, Signal.applyAll_nil]

theorem apply_findPid {x : Slot → Signal Slot} {y : ℤ → Signal ℤ} {pid : ℤ} {r : Seat}
    (hself : ∀ p, (y pid).apply pid r = (x p).apply p r)
    (hother : ∀ p s, s ≠ p → (x p).apply s r = r) (hother' : ∀ q, q ≠ pid → (y pid).apply q r = r)
    (hfound : (k.proc s).pid = pid → k.findPid pid = some s) :
    Signal.applyAll (k.proc s).pid r [y pid] =
      Signal.applyAll s r ((k.findPid pid).toList.map x) := by
  rw [Signal.applyAll_singleton]
  by_cases hpid : (k.proc s).pid = pid
  · rw [hfound hpid, hpid]
    exact hself s
  · rw [hother' _ hpid]
    cases hfind : k.findPid pid with
    | none => rfl
    | some p =>
      have hsp : s ≠ p := by
        rintro rfl
        exact hpid (findPid_pid hfind)
      exact (hother p s hsp).symm

theorem shows_of_mark (hinv : Group.Inv k.group) (hshow : v.Shows g k) (hpc : k.pc t = .exec .mark)
    (hL : (k.proc t).process = some L) (hnext : k.next (.step t e) = some k')
    (hsettled : Follows k (fun m => m.settled = true) k') :
    (View.replay g v (k.toldStep g k' t L e (.exec .mark))).Shows g k' := by
  have hsignals : k.signals k' (.step t e) = k.sent t L e k' (.exec .mark) := by
    simp [signals, hL, hpc]
  have hseat := fun s => sends_next hinv hnext s
  rw [hsignals] at hseat
  by_cases hkilled : (k.proc t).killed = true
  · simp only [toldStep, hkilled, Bool.true_eq_false, and_false, if_false]
    refine shows_of_send [] hinv hshow hsettled hnext fun s hs => ?_
    simp [hsignals, sent, hkilled]
  simp only [sent, hkilled, Bool.false_eq_true, if_false, Signal.applyAll_rouse, List.mem_filter,
    List.mem_finRange, true_and, decide_eq_true_eq] at hseat
  by_cases hg : (k.proc t).tgid = g
  · simp only [toldStep, hg, hkilled, true_and, if_true, View.replay_singleton]
    refine shows_of_settled hinv hshow hsettled (fun s hs => ?_) fun p hp => ?_
    · simp only [View.apply, hshow.seats s hs, Option.map_some, place, hseat s, hs.2, hg, true_and]
      by_cases hpid : (k.proc s).pid = (k.proc t).pid <;> simp [hpid]
    · simp [View.apply, hp]
  · simp only [toldStep, hg, false_and, if_false]
    refine shows_of_send [] hinv hshow hsettled hnext fun s hs => ?_
    have hne : (k.proc s).tgid ≠ (k.proc t).tgid := fun h => hg (h.symm.trans hs.2)
    rw [← sends_next hinv hnext s, hseat s]
    simp [hne]

theorem shows_of_call (hinv : Group.Inv k.group) (hshow : v.Shows g k) (hok : k.MindsAt g t)
    (hL : (k.proc t).process = some L) (hnext : k.next (.step t e) = some k')
    (hc : (k.pc t).resettles = false) :
    (View.replay g v (k.toldStep g k' t L e (k.pc t))).Shows g k' := by
  have hsettled : Follows k (fun m => m.settled = true) k' :=
    (next_follows hinv hnext).imp_right fun ⟨m, hm, hst⟩ =>
      ⟨m, settled_of_makes (c := k.pc t) hm hc, hst⟩
  have hsignals : k.signals k' (.step t e) = k.sent t L e k' (k.pc t) := by simp [signals, hL]
  obtain ⟨ht, -⟩ := callStep_of_next hinv hnext
  have hquiet : k.signals k' (.step t e) = [] → v.Shows g k' := fun h =>
    shows_of_send [] hinv hshow hsettled hnext fun s _ => by rw [h]; rfl
  have hdoze : k.signals k' (.step t e) =
        (if (k'.proc t).state = .sleeping then [.doze t (.slot L)] else []) →
      (View.replay g v (if (k.proc t).tgid = g ∧ (k'.proc t).state = .sleeping then
        [.send (.doze (k.proc t).pid (.slot L))] else [])).Shows g k' := by
    intro h
    by_cases hasleep : (k'.proc t).state = .sleeping
    · simp only [hasleep, and_true]
      exact shows_of_own (x := fun t => .doze t (.slot L)) (y := fun p => .doze p (.slot L))
        hinv hshow hsettled hnext ht (by rw [h, if_pos hasleep]) (fun r => by simp [Signal.apply])
        (fun r s hs => by simp [Signal.apply, hs]) fun r p q hq => by simp [Signal.apply, hq]
    · simp only [hasleep, and_false, if_false]
      exact hquiet (by rw [h, if_neg hasleep])
  generalize hpc : k.pc t = c at hc hsignals
  unfold MindsAt at hok
  cases c with
  | kill pid =>
    rw [hpc] at hok
    refine shows_of_send [.rouse pid] hinv hshow hsettled hnext fun s hs => ?_
    rw [hsignals]
    refine apply_findPid (x := .rouse) (y := .rouse) (fun p => ?_) (fun p s hsp => ?_)
      (fun q hq => ?_) fun hpid => hok s (hs.in_use hinv).1 (hs.in_use hinv).2 hs.2 hpid
    · simp [Signal.apply]
    · simp [Signal.apply, hsp]
    · simp [Signal.apply, hq]
  | unpark pid ch =>
    rw [hpc] at hok
    have hfound : ∀ s, k.Crew g s → (k.proc s).pid = pid →
        (k.proc t).tgid = g ∧ k.findPid pid = some s :=
      fun s hs hpid => hok s (hs.in_use hinv).1 (hs.in_use hinv).2 hs.2 hpid
    have hsame : ∀ s, k.Crew g s → Signal.applyAll (k.proc s).pid (k.proc s).seat [.unpark pid ch] =
        Signal.applyAll s (k.proc s).seat (k.signals k' (.step t e)) := by
      intro s hs
      rw [hsignals]
      refine apply_findPid (x := fun p => .unpark p ch) (y := fun p => .unpark p ch) (fun p => ?_)
        (fun p s hsp => ?_) (fun q hq => ?_) fun hpid => (hfound s hs hpid).2
      · simp [Signal.apply]
      · simp [Signal.apply, hsp]
      · simp [Signal.apply, hq]
    simp only [toldStep]
    split
    · exact shows_of_send [.unpark pid ch] hinv hshow hsettled hnext hsame
    · next hg =>
      -- Another group: the call names no thread of this one.
      refine shows_of_send [] hinv hshow hsettled hnext fun s hs => ?_
      have hpid : (k.proc s).pid ≠ pid := fun hpid => hg (hfound s hs hpid).1
      rw [← hsame s hs]
      simp [Signal.apply, hpid]
  | park ch =>
    exact shows_of_own (x := fun t => .park t ch) (y := fun p => .park p ch) hinv hshow hsettled
      hnext ht hsignals (fun r => by simp [Signal.apply]) (fun r s hs => by simp [Signal.apply, hs])
      fun r p q hq => by simp [Signal.apply, hq]
  | wait | join pid | joinWait pid p => exact hdoze hsignals
  | exec c =>
    cases c with
    | mark => exact shows_of_mark hinv hshow hpc hL hnext hsettled
    | wait => exact hdoze hsignals
    | take => cases hc
    | swap | setCount | load | commit image sz => exact hquiet hsignals
    | setLost =>
      have hj : k.group.job t = .exec .taken := by simp [group, hpc, Pc.job]
      by_cases htL : t = L
      · subst htL
        simp only [toldStep, and_true]
        exact shows_of_own (x := .forget) (y := .forget) hinv hshow hsettled hnext ht hsignals
          (fun r => by simp [Signal.apply]) (fun r s hs => by simp [Signal.apply, hs])
          fun r p q hq => by simp [Signal.apply, hq]
      · -- The leader slot of a group that is taken over is a zombie.
        have hz := hinv.zombie_of_alone hj (by simp) hL (Ne.symm htL)
        simp only [toldStep, htL, and_false, if_false]
        refine shows_of_send [] hinv hshow hsettled hnext fun s hs => ?_
        have hsL : s ≠ L := by
          rintro rfl
          have hphase := hinv.phase_of_seated hs.1
          simp [hz] at hphase
        rw [hsignals]
        simp [sent, Signal.apply, hsL]
  | exit c =>
    cases c with
    | zombie => cases hc
    | _ => exact hquiet hsignals
  | fork c =>
    cases c with
    | init np | copy np => cases hc
    | _ =>
      exact hquiet hsignals
  | clone c =>
    cases c with
    | init np | publish np => cases hc
    | _ => exact hquiet hsignals
  | _ => exact hquiet hsignals

section

variable {m : Group.Move Slot}

theorem not_seated_of_left (hinv : Group.Inv k.group) (hst : Group.Step k.group m k'.group)
    (hm : m.left = some u) : ¬k'.group.Seated u := by
  intro hu
  have hphase := (hinv.step hst).phase_of_seated hu
  generalize k'.group = a at hst hphase
  cases hst <;> cases hm <;> simp at hphase

theorem shows_of_left (xs : List (Signal ℤ)) {P : Prop} [Decidable P]
    (hinv : Group.Inv k.group) (hshow : v.Shows g k) (hst : Group.Step k.group m k'.group)
    (hm : m.left = some u) (hP : P ↔ k.Crew g u) (hnext : k.next l = some k')
    (hsame : ∀ s, k.Crew g s → Signal.applyAll (k.proc s).pid (k.proc s).seat xs =
      Signal.applyAll s (k.proc s).seat (k.signals k' l)) :
    (View.replay g v (xs.map .send ++ if P then [.leave (k.proc u).pid] else [])).Shows g k' := by
  have hcrew : ∀ s, k'.Crew g s → (k.Crew g s ∧ (k'.proc s).pid = (k.proc s).pid ∧
      (k'.proc s).process = (k.proc s).process) ∧ s ≠ u := by
    intro s hs
    have hsu : s ≠ u := by
      rintro rfl
      exact not_seated_of_left hinv hst hm hs.1
    rcases hst.seated hinv hs.1 with ⟨hs₀, htgid, hprocess, hpid | ⟨rfl, -⟩⟩ | ⟨t, kd, rfl⟩
    · exact ⟨⟨⟨hs₀, htgid.symm.trans hs.2⟩, hpid, hprocess⟩, hsu⟩
    · cases hm
    · cases hm
  have hstays : ∀ s, k.Crew g s → s ≠ u → k'.Crew g s := by
    intro s hs hsu
    rcases hst.seated_stays hinv hs.1 with hs' | ⟨L, rfl⟩ | ⟨t, rfl | rfl⟩
    · rcases hst.seated hinv hs' with ⟨-, htgid, -⟩ | ⟨t, kd, rfl⟩
      · exact ⟨hs', htgid.trans hs.2⟩
      · cases hm
    all_goals exact absurd (Option.some.inj hm) hsu
  have hsent : ∀ s, k.Crew g s → View.replay g v (xs.map .send) (k.proc s).pid =
      (v (k.proc s).pid).map fun r => { r with seat := (k'.proc s).seat } := by
    intro s hs
    rw [View.replay_send, hshow.seats s hs, Option.map_some, Option.map_some]
    simp only [place]
    rw [hsame s hs, ← sends_next hinv hnext s]
  refine shows_of_next hshow (fun s hs => (hcrew s hs).1) (fun s hs => ?_) fun p hp => ?_
  · obtain ⟨⟨hs₀, -⟩, hsu⟩ := hcrew s hs
    rw [View.replay_append]
    split
    · next h =>
      have hpid := mt (hs₀.pid_inj hinv (hP.mp h).1).mp hsu
      rw [View.replay_singleton, View.apply, update_of_ne hpid]
      exact hsent s hs₀
    · exact hsent s hs₀
  · rw [View.replay_append] at hp
    split at hp
    · next h =>
      rw [View.replay_singleton, View.apply] at hp
      have hpu : p ≠ (k.proc u).pid := by
        rintro rfl
        simp at hp
      rw [update_of_ne hpu, View.replay_send] at hp
      refine ⟨fun hnone => hp (by simp [hnone]), fun s hs hpid => hstays s hs ?_⟩
      rintro rfl
      exact hpu hpid.symm
    · next h =>
      rw [View.replay_nil, View.replay_send] at hp
      refine ⟨fun hnone => hp (by simp [hnone]), fun s hs hpid => hstays s hs ?_⟩
      rintro rfl
      exact h (hP.mpr hs)

theorem shows_of_joined {kd : Group.Kind} {leads : Bool} {P : Prop} [Decidable P]
    (hinv : Group.Inv k.group) (hshow : v.Shows g k)
    (hst : Group.Step k.group (.group t u kd) k'.group) (hP : P ↔ (k'.proc u).tgid = g)
    (hleads : decide ((k'.proc u).process = some u) = leads)
    (hseat : ∀ s, (k'.proc s).seat = if s = u then ⟨none, .null⟩ else (k.proc s).seat) :
    (View.replay g v (if P then [.create (k.proc u).pid leads] else [])).Shows g k' := by
  obtain ⟨hraw, hgrouped, hpids, hrest⟩ := hst.joined
  have hpid : ∀ s, (k'.proc s).pid = (k.proc s).pid := fun s => congrFun hpids s
  have hnew : k'.group.Seated u := Or.inr ⟨t, kd, .grouped, hgrouped, nofun⟩
  have hother : ∀ s, k.Crew g s → s ≠ u ∧ (k.proc s).pid ≠ (k.proc u).pid := by
    intro s hs
    have hsu : s ≠ u := by
      rintro rfl
      exact hinv.not_seated_raw hraw hs.1
    refine ⟨hsu, fun h => hsu ?_⟩
    exact hinv.pid_inj s u (hinv.phase_of_seated hs.1) (Or.inr (hinv.build_embryo t kd _ u hraw)) h
  constructor
  · intro s hs
    by_cases hsu : s = u
    · subst hsu
      rw [if_pos (hP.mpr hs.2), View.replay_singleton, View.apply, hpid, update_self]
      simp [place, hseat s, hleads]
    · have hs₀ : k.Crew g s := by
        rcases hst.seated hinv hs.1 with ⟨hs₀, htgid, -⟩ | ⟨t', kd', h⟩
        · exact ⟨hs₀, htgid.symm.trans hs.2⟩
        · cases h
          exact absurd rfl hsu
      have hv : View.replay g v (if P then [.create (k.proc u).pid leads] else []) (k.proc s).pid =
          v (k.proc s).pid := by
        split
        · rw [View.replay_singleton, View.apply, update_of_ne (hother s hs₀).2]
        · rfl
      have hprocess : (k'.proc s).process = (k.proc s).process := (hrest s hsu).2
      rw [hpid, hv, hshow.seats s hs₀]
      simp [place, hseat s, hsu, hprocess]
  · intro p hp
    by_cases hpu : P ∧ p = (k.proc u).pid
    · exact ⟨u, ⟨hnew, hP.mp hpu.1⟩, (hpid u).trans hpu.2.symm⟩
    · have hv : v p ≠ none := by
        split at hp
        · next h =>
          rwa [View.replay_singleton, View.apply, update_of_ne fun heq => hpu ⟨h, heq⟩] at hp
        · exact hp
      obtain ⟨s, hs, rfl⟩ := hshow.only p hv
      rcases hst.seated_stays hinv hs.1 with hs' | ⟨L, h⟩ | ⟨t', h | h⟩
      · exact ⟨s, ⟨hs', (hrest s (hother s hs).1).1.trans hs.2⟩, hpid s⟩
      all_goals cases h

theorem shows_of_take (hinv : Group.Inv k.group) (hshow : v.Shows g k)
    (hst : Group.Step k.group (.take t) k'.group) (hseat : ∀ s, (k'.proc s).seat = (k.proc s).seat) :
    (View.replay g v (if (k.proc t).tgid = g then [.take (k.proc t).pid] else [])).Shows g k' := by
  obtain ⟨hj, htgids, hprocesses, hpids⟩ := hst.taken
  have htgid : ∀ s, (k'.proc s).tgid = (k.proc s).tgid := fun s => congrFun htgids s
  have hprocess : ∀ s, (k'.proc s).process = (k.proc s).process := fun s => congrFun hprocesses s
  have hlive := hinv.job_live t (by simp [hj])
  have hcrew : ∀ s, k'.Crew g s ↔ k.Crew g s := by
    intro s
    refine ⟨fun hs => ⟨?_, (htgid s).symm.trans hs.2⟩, fun hs => ⟨?_, (htgid s).trans hs.2⟩⟩
    · rcases hst.seated hinv hs.1 with ⟨hs₀, -⟩ | ⟨t', kd, h⟩
      · exact hs₀
      · cases h
    · rcases hst.seated_stays hinv hs.1 with hs' | ⟨L, h⟩ | ⟨t', h | h⟩
      · exact hs'
      all_goals cases h
  by_cases hg : (k.proc t).tgid = g
  · -- The thread is the only one of its group.
    have halone : ∀ s, k.Crew g s → s = t := by
      intro s hs
      by_contra hst'
      have hsame := hinv.tgid_process s t (Or.inl hlive) (hs.2.trans hg.symm)
      have hz := hinv.exec_alone t .swapping hj (by simp) s hst' hsame
      have hphase := hinv.phase_of_seated hs.1
      simp [hz] at hphase
    have ht : k.Crew g t := ⟨Or.inl hlive, hg⟩
    have hpid : (k'.proc t).pid = g := by
      have h : (k'.proc t).pid = (k.proc t).tgid := (congrFun hpids t).trans (by simp; rfl)
      exact h.trans hg
    rw [if_pos hg, View.replay_singleton]
    constructor
    · intro s hs
      have hst' := halone s ((hcrew s).mp hs)
      subst hst'
      rw [hpid, View.apply, update_self, hshow.seats s ht]
      simp [place, hseat s, hprocess s]
    · intro p hp
      by_cases hpg : p = g
      · exact ⟨t, (hcrew t).mpr ht, hpid.trans hpg.symm⟩
      · rw [View.apply, update_of_ne hpg] at hp
        have hpt : p ≠ (k.proc t).pid := by
          rintro rfl
          simp at hp
        rw [update_of_ne hpt] at hp
        obtain ⟨s, hs, hps⟩ := hshow.only p hp
        exact absurd (halone s hs ▸ hps).symm hpt
  · have hout : ∀ s, k.Crew g s → s ≠ t := by
      rintro s hs rfl
      exact hg hs.2
    rw [if_neg hg, View.replay_nil]
    refine shows_of_next hshow (fun s hs => ?_) (fun s hs => ?_) fun p hp => ?_
    · have hs₀ := (hcrew s).mp hs
      have hpid : (k'.proc s).pid = (k.proc s).pid := (congrFun hpids s).trans (by
        simp [hout s hs₀]; rfl)
      exact ⟨hs₀, hpid, hprocess s⟩
    · have hs₀ := (hcrew s).mp hs
      rw [hseat s, hshow.seats s hs₀]
      rfl
    · exact ⟨hp, fun s hs _ => (hcrew s).mpr hs⟩

theorem move_of_next (hinv : Group.Inv k.group) (hnext : k.next l = some k')
    (hne : k'.group ≠ k.group) : ∃ m, k.Enacts m l ∧ Group.Step k.group m k'.group := by
  rcases next_follows hinv hnext with hstay | ⟨m, hm, hst⟩
  · exact absurd hstay hne
  · exact ⟨m, hm, hst⟩

theorem shows_of_exit (hinv : Group.Inv k.group) (hshow : v.Shows g k) (hpc : k.pc t = .exit .zombie)
    (hL : (k.proc t).process = some L) (hnext : k.next (.step t e) = some k') :
    (View.replay g v (k.toldStep g k' t L e (.exit .zombie))).Shows g k' := by
  obtain ⟨ht, L', hL', hstep⟩ := callStep_of_next hinv hnext
  rw [hpc] at hstep
  have hzombie : (k'.proc t).state = .zombie := by
    cases hstep
    simp [exitStep, goto, modify]
  have hne : k'.group ≠ k.group := by
    intro heq
    have hphase : (k'.proc t).state.phase = (k.proc t).state.phase :=
      congrFun (congrArg Group.Table.phase heq) t
    simp [hzombie, ht, ProcState.phase] at hphase
  obtain ⟨m, hm, hst⟩ := move_of_next hinv hnext hne
  have hleft : m.left = some t := by
    replace hm : k.Makes t (k.pc t) m := hm
    rw [hpc] at hm
    cases hm
    rfl
  refine shows_of_left _ hinv hshow hst hleft ⟨crew_of_running ht, fun h => h.2⟩ hnext fun s _ => ?_
  simp only [signals, hL, hpc, sent, Option.toList_some, List.flatMap_cons, List.flatMap_nil,
    List.append_nil]
  exact Signal.applyAll_wake _ _

theorem shows_of_given_up (np : Slot) {P : Prop} [Decidable P] (hinv : Group.Inv k.group)
    (hshow : v.Shows g k) (hnext : k.next (.step t e) = some k')
    (hsignals : k.signals k' (.step t e) = [])
    (hfollows : Follows k (fun m => m.settled = true ∨ m.left = some np) k')
    (hP : P ↔ k.Crew g np ∧ ¬k'.group.Seated np) :
    (View.replay g v (if P then [.leave (k.proc np).pid] else [])).Shows g k' := by
  have hquiet : ∀ s, k.Crew g s → Signal.applyAll (k.proc s).pid (k.proc s).seat [] =
      Signal.applyAll s (k.proc s).seat (k.signals k' (.step t e)) := fun s _ => by
    rw [hsignals]
    rfl
  have hkept : Follows k (fun m => m.settled = true) k' →
      (View.replay g v (if P then [.leave (k.proc np).pid] else [])).Shows g k' := by
    intro hsettled
    have hno : ¬P := fun h => (hP.mp h).2 (((crew_of_settled hinv hsettled np).1.mpr (hP.mp h).1).1)
    rw [if_neg hno]
    exact shows_of_send [] hinv hshow hsettled hnext hquiet
  rcases hfollows with hstay | ⟨m, hsettled | hleft, hst⟩
  · exact hkept (.stay hstay)
  · exact hkept (Or.inr ⟨m, hsettled, hst⟩)
  · have hgone := not_seated_of_left hinv hst hleft
    exact shows_of_left [] hinv hshow hst hleft
      ⟨fun h => (hP.mp h).1, fun h => hP.mpr ⟨h, hgone⟩⟩ hnext hquiet

theorem not_seated_of_state (hinv' : Group.Inv k'.group)
    (hs : (k'.proc s).state = .unused ∨ (k'.proc s).state = .zombie) : ¬k'.group.Seated s := by
  intro h
  have hphase := hinv'.phase_of_seated h
  rcases hs with hs | hs <;> simp [group, hs, ProcState.phase] at hphase

theorem shows_of_publish {np : Slot} (hinv : Group.Inv k.group) (hinv' : Group.Inv k'.group)
    (hshow : v.Shows g k) (hpc : k.pc t = .clone (.publish np)) (hL : (k.proc t).process = some L)
    (hnext : k.next (.step t e) = some k') :
    (View.replay g v (k.toldStep g k' t L e (.clone (.publish np)))).Shows g k' := by
  obtain ⟨ht, L', hL', hstep⟩ := callStep_of_next hinv hnext
  have hj : k.group.job t = .build .clone .rooted np := by simp [group, hpc, Pc.job]
  have hseated : k.group.Seated np := Or.inr ⟨t, .clone, .rooted, hj, by simp⟩
  have htgid : (k.proc np).tgid = (k.proc t).tgid := (hinv.clone_group t .rooted np hj (by simp)).2
  refine shows_of_given_up _ hinv hshow hnext (by simp [signals, hL, hpc, sent]) ?_ ?_
  · refine (next_follows hinv hnext).imp_right ?_
    rintro ⟨m, hm, hst⟩
    refine ⟨m, ?_, hst⟩
    replace hm : k.Makes t (k.pc t) m := hm
    rw [hpc] at hm
    cases hm with
    | clonePublish => exact Or.inl rfl
    | cloneStillborn => exact Or.inr rfl
  · rw [hpc] at hstep
    simp only [callStep, cloneStep, Option.some.injEq] at hstep
    split at hstep
    · next hkilled =>
      have hgone := not_seated_of_state (s := np) hinv' (Or.inr (by simp [← hstep, ret, goto, modify]))
      simp [Crew, hseated, hgone, htgid, hkilled]
    · next hkilled =>
      have hlive : k'.group.Seated np := by
        refine Or.inl ?_
        rw [← hstep]
        by_cases hnp : np = L' <;> simp [group, ret, goto, modify, hnp, ProcState.phase]
      simp [hlive, hkilled]

theorem shows_of_copy {np : Slot} (hinv : Group.Inv k.group) (hinv' : Group.Inv k'.group)
    (hshow : v.Shows g k) (hpc : k.pc t = .fork (.copy np)) (hL : (k.proc t).process = some L)
    (hnext : k.next (.step t e) = some k') :
    (View.replay g v (k.toldStep g k' t L e (.fork (.copy np)))).Shows g k' := by
  obtain ⟨ht, L', hL', hstep⟩ := callStep_of_next hinv hnext
  have hj : k.group.job t = .build .fork .grouped np := by simp [group, hpc, Pc.job]
  have hseated : k.group.Seated np := Or.inr ⟨t, .fork, .grouped, hj, by simp⟩
  refine shows_of_given_up _ hinv hshow hnext (by simp [signals, hL, hpc, sent]) ?_ ?_
  · refine (next_follows hinv hnext).imp_right ?_
    rintro ⟨m, hm, hst⟩
    refine ⟨m, ?_, hst⟩
    replace hm : k.Makes t (k.pc t) m := hm
    rw [hpc] at hm
    cases hm with
    | forkNoMemory => exact Or.inr rfl
    | forkMap => exact Or.inl rfl
  · have hunused : (k'.proc np).state = .unused ↔ ¬k'.group.Seated np := by
      refine ⟨fun h => not_seated_of_state hinv' (Or.inl h), fun h => ?_⟩
      by_contra hstate
      apply h
      rw [hpc] at hstep
      simp only [callStep, forkStep, Option.some.injEq] at hstep
      split at hstep
      · exact Or.inr ⟨t, .fork, .grouped, by simp [← hstep, group, panic, halt, hpc, Pc.job], by simp⟩
      · simp [← hstep, ret, goto, modify] at hstate
      · exact Or.inr ⟨t, .fork, .mapped, by simp [← hstep, group, goto, Pc.job], by simp⟩
    rw [hunused]
    simp [Crew, hseated]

theorem shows_of_init {np : Slot} (kd : Group.Kind) {fields : Proc → Proc} {next : Pc} (leads : Bool)
    (hinv : Group.Inv k.group) (hshow : v.Shows g k) (hj : k.group.job t = .build kd .raw np)
    (hL : (k.proc t).process = some L) (hnext : k.next (.step t e) = some k')
    (hk' : k' = k.allocKstack t np e fields next)
    (hsent : k.sent t L e k' (k.pc t) = if e.mem = 0 then [] else [.forget np])
    (hmakes : ∀ m, k.Makes t (k.pc t) m → m = .release t np ∨ m = .group t np kd)
    (hgrouped : next.job = .build kd .grouped np)
    (hleads : decide ((fields { k.proc np with kstack := some k.npage }).process = some np) = leads) :
    (View.replay g v (if e.mem ≠ 0 ∧
      (fields { k.proc np with kstack := some k.npage }).tgid = g then
      [.create (k.proc np).pid leads] else [])).Shows g k' := by
  have hsignals : k.signals k' (.step t e) = if e.mem = 0 then [] else [.forget np] := by
    simpa [signals, hL] using hsent
  have hembryo := hinv.build_embryo t kd .raw np hj
  by_cases hmem : e.mem = 0
  · have hjob : k'.group.job t = .none := by
      simp [hk', allocKstack, hmem, group, ret, goto, Pc.job]
    have hnone := shows_of_given_up (P := False) np hinv hshow hnext
      (by rw [hsignals, if_pos hmem]) ?_
      (by simpa using fun h : k.Crew g np => absurd h.1 (hinv.not_seated_raw hj))
    · simpa [hmem] using hnone
    · refine (next_follows hinv hnext).imp_right ?_
      rintro ⟨m, hm, hst⟩
      refine ⟨m, ?_, hst⟩
      rcases hmakes m hm with rfl | rfl
      · exact Or.inr rfl
      · exact absurd (hst.joined.2.1.symm.trans hjob) (by simp)
  · have hjob : k'.group.job t = .build kd .grouped np := by
      simp [hk', allocKstack, hmem, group, goto, hgrouped]
    have hproc : k'.proc np = fields { k.proc np with kstack := some k.npage } := by
      simp [hk', allocKstack, hmem, goto, modify]
    have hne : k'.group ≠ k.group := fun heq => by simp [heq, hj] at hjob
    obtain ⟨m, hm, hst⟩ := move_of_next hinv hnext hne
    rcases hmakes m hm with rfl | rfl
    · simp [hst.released] at hjob
    · simp only [hmem, ne_eq, not_false_eq_true, true_and]
      refine shows_of_joined hinv hshow hst (by rw [hproc]) (by rw [hproc, hleads]) fun s => ?_
      rw [sends_next hinv hnext s, hsignals, if_neg hmem, Signal.applyAll_singleton, Signal.apply]
      split
      · next hs =>
        subst hs
        have hstate : (k.proc s).state ≠ .sleeping := fun h => by
          simp [group, h, ProcState.phase] at hembryo
        rw [Proc.seat_of_awake hstate]
      · rfl

end

theorem shows_next (hinv : Group.Inv k.group) (hinv' : Group.Inv k'.group)
    (hshow : v.Shows g k) (hok : minds g k l) (hnext : k.next l = some k') :
    (View.replay g v (k.told g k' l)).Shows g k' := by
  have hother : (∀ m, k.Enacts m l → m.settled = true) → Follows k (fun m => m.settled = true) k' :=
    fun h => (next_follows hinv hnext).imp_right fun ⟨m, hm, hst⟩ => ⟨m, h m hm, hst⟩
  cases l with
  | step t e =>
    obtain ⟨ht, L, hL, hstep⟩ := callStep_of_next hinv hnext
    have htold : k.told g k' (.step t e) = k.toldStep g k' t L e (k.pc t) := by simp [told, hL]
    rw [htold]
    by_cases hc : (k.pc t).resettles = false
    · exact shows_of_call hinv hshow hok hL hnext hc
    generalize hpc : k.pc t = c at hc hstep
    cases c with
    | fork c =>
      cases c with
      | init np =>
        have htold' : k.toldStep g k' t L e (.fork (.init np)) =
            if e.mem ≠ 0 ∧ (k.proc np).pid = g then [.create (k.proc np).pid true] else [] := by
          simp only [toldStep]
          split
          · next h => rw [h.2]
          · rfl
        have hj : k.group.job t = .build .fork .raw np := by simp [group, hpc, Pc.job]
        simp only [callStep, forkStep, Option.some.injEq] at hstep
        rw [htold']
        refine shows_of_init .fork true hinv hshow hj hL hnext hstep.symm (by rw [hpc]; rfl) (fun m hm => ?_) rfl (by simp)
        rw [hpc] at hm
        cases hm with
        | forkNoStack => exact Or.inl rfl
        | forkGroup => exact Or.inr rfl
      | copy np => exact shows_of_copy hinv hinv' hshow hpc hL hnext
      | _ => exact absurd rfl hc
    | clone c =>
      cases c with
      | init np =>
        have hj : k.group.job t = .build .clone .raw np := by simp [group, hpc, Pc.job]
        -- The leader of the builder is not under construction.
        have hne : L ≠ np := by
          rintro rfl
          obtain ⟨M, hM, hpub, -⟩ := hinv.leader t (Or.inl (phase_of_running ht))
          cases (show k.group.process t = some L from hL).symm.trans hM
          rcases hpub with hpub | hpub <;> simp [hinv.build_embryo t _ _ L hj] at hpub
        simp only [callStep, cloneStep, Option.some.injEq] at hstep
        refine shows_of_init .clone false hinv hshow hj hL hnext hstep.symm (by rw [hpc]; rfl) (fun m hm => ?_) rfl (by simp [hL, hne])
        rw [hpc] at hm
        cases hm with
        | cloneNoStack => exact Or.inl rfl
        | cloneGroup => exact Or.inr rfl
      | publish np => exact shows_of_publish hinv hinv' hshow hpc hL hnext
      | _ => exact absurd rfl hc
    | exit c =>
      cases c with
      | zombie => exact shows_of_exit hinv hshow hpc hL hnext
      | _ => exact absurd rfl hc
    | exec c =>
      cases c with
      | take =>
        have hj : k.group.job t = .exec .swapping := by simp [group, hpc, Pc.job]
        have hjob : k'.group.job t = .exec .taken := by
          simp [← Option.some.inj hstep, execStep, group, goto, Pc.job]
        obtain ⟨m, hm, hst⟩ := move_of_next hinv hnext fun heq => by simp [heq, hj] at hjob
        replace hm : k.Makes t (k.pc t) m := hm
        rw [hpc] at hm
        cases hm with
        | take =>
          refine shows_of_take hinv hshow hst fun s => ?_
          rw [sends_next hinv hnext s]
          simp [signals, hL, hpc, sent]
      | _ => exact absurd rfl hc
    | _ => exact absurd rfl hc
  | block t a =>
    obtain ⟨⟨_, ht, _⟩, -⟩ := Option.ite_none_right_eq_some.mp hnext
    exact shows_of_own (x := fun t => .doze t (.addr a)) (y := fun p => .doze p (.addr a)) hinv
      hshow (hother (by simp [Enacts])) hnext ht rfl (fun r => by simp [Signal.apply])
      (fun r s hs => by simp [Signal.apply, hs]) fun r p q hq => by simp [Signal.apply, hq]
  | wakeup a =>
    exact shows_of_send [.wake (.addr a)] hinv hshow (hother (by simp [Enacts])) hnext
      fun s _ => rfl
  | _ =>
    refine shows_of_send [] hinv hshow (hother ?_) hnext fun s _ => rfl
    simp [Enacts, Group.Move.settled]

theorem shows_of_reachable {x : Kernel × List Event} (hx : ToldReachable g (minds g) x) :
    (View.replay g (.start g) x.2).Shows g x.1 := by
  refine hx.invariant (P := fun x => (View.replay g (.start g) x.2).Shows g x.1) (fun x h0 => ?_)
    fun x l x' hr hshow hok hstep => ?_
  · obtain ⟨hk, hh⟩ := h0
    rw [hh, show x.1 = userinit from hk, View.replay_nil]
    have hfirst : ∀ s, userinit.Crew g s → s = 0 ∧ g = 1 := by
      rintro s ⟨hs, hg⟩
      rw [group_userinit] at hs
      have hs0 : s = 0 := by
        by_contra hne
        simp [Group.Table.Seated, Group.Table.initial, hne] at hs
      exact ⟨hs0, by simpa [hs0, userinit, initcode, eq_comm] using hg⟩
    constructor
    · intro s hs
      obtain ⟨rfl, rfl⟩ := hfirst s hs
      rfl
    · intro p hp
      by_cases hg : g = 1 ∧ p = 1
      · obtain ⟨rfl, rfl⟩ := hg
        exact ⟨0, ⟨Or.inl rfl, rfl⟩, rfl⟩
      · simp [View.start, hg] at hp
  · have hinv := inv_of_reachable (Reach.of_recording hr)
    have hinv' := inv_of_reachable (Reach.of_recording (hr.step hok hstep))
    have hnext : x.1.next l = some x'.1 := hstep.1
    have htold : x'.2 = x.2 ++ x.1.told g x'.1 l := by
      rw [hstep.2]
      simp [tell, hnext]
    rw [htold, View.replay_append]
    exact shows_next hinv hinv' hshow hok hnext

end Kernel

/-- **Isolation.** In two runs that agree on what the threads of a group do, on the `kill`
and `exit` calls and on the wakeups of the kernel, the group has the same threads, and
each of them sleeps on the same channel or not at all and has the same mailbox, as long
as no thread of another group names one of this group in `unpark`. -/
theorem park_isolated {g : ℤ} {x y : Kernel × List Event} (hx : ToldReachable g (minds g) x)
    (hy : ToldReachable g (minds g) y) (htold : x.2 = y.2) {s : Slot} (hs : x.1.Crew g s) :
    ∃ u, y.1.Crew g u ∧ (y.1.proc u).pid = (x.1.proc s).pid ∧
      (y.1.proc u).seat = (x.1.proc s).seat := by
  have hshow := (Kernel.shows_of_reachable hx).seats s hs
  rw [htold] at hshow
  have hshow' := Kernel.shows_of_reachable hy
  obtain ⟨u, hu, hpid⟩ := hshow'.only (x.1.proc s).pid (by simp [hshow])
  refine ⟨u, hu, hpid, ?_⟩
  have hplace := hshow'.seats u hu
  rw [hpid, hshow] at hplace
  exact (congrArg Place.seat (Option.some.inj hplace)).symm

/-- The first thread forks a child, which parks. -/
def childParks : List Label :=
  haveI := neZero_nproc
  .schedule 0 :: calls 0 .fork 9 ++ .schedule 1 :: calls 1 (.park (.addr 5)) 1

/-- What the child of `childParks` does. -/
def childEvents : List Event := [.create 2 true, .send (.park 2 (.addr 5))]

/-- The parent makes calls of its own in one of the runs. -/
theorem park_isolated_calls :
    ∃ x y, ToldReachable 2 (minds 2) x ∧ ToldReachable 2 (minds 2) y ∧ x.2 = y.2 ∧
      (x.1.proc 1).seat.asleep = some (.addr 5) ∧ (y.1.proc 0).lostwakeup = .addr 7 ∧
      ∃ u, y.1.Crew 2 u ∧ (y.1.proc u).pid = 2 ∧ (y.1.proc u).seat.asleep = some (.addr 5) := by
  obtain ⟨x, -, hx, hx2, hlive, hg, hpid, hasleep⟩ := exists_of_runRecordedBy []
    (fun h k l => k.tell 2 h l) (minds 2) childParks
    (fun x => x.2 = childEvents ∧ x.1.group.phase 1 = .live ∧ (x.1.proc 1).tgid = 2 ∧
      (x.1.proc 1).pid = 2 ∧ (x.1.proc 1).seat.asleep = some (.addr 5)) (by decide)
  obtain ⟨y, -, hy, hy2, hlost⟩ := exists_of_runRecordedBy []
    (fun h k l => k.tell 2 h l) (minds 2)
    (childParks ++ calls 0 .fork 9 ++ calls 0 (.unpark 1 (.addr 7)) 1)
    (fun y => y.2 = childEvents ∧ (y.1.proc 0).lostwakeup = .addr 7) (by decide +kernel)
  obtain ⟨u, hu, hupid, hseat⟩ := park_isolated hx hy (hx2.trans hy2.symm) (s := 1) ⟨Or.inl hlive, hg⟩
  exact ⟨x, y, hx, hy, hx2.trans hy2.symm, hasleep, hlost, u, hu, hupid.trans hpid, by rw [hseat, hasleep]⟩

/-- The parent wakes the child by its pid: the child does the same in both runs, and
sleeps in one of them only. -/
theorem unpark_crosses_groups :
    ∃ x y, ToldReachable 2 Transition.anyStep x ∧ ToldReachable 2 Transition.anyStep y ∧ x.2 = y.2 ∧
      x.1.Crew 2 1 ∧ y.1.Crew 2 1 ∧ (x.1.proc 1).pid = 2 ∧ (y.1.proc 1).pid = 2 ∧
      (x.1.proc 1).state = .sleeping ∧ (y.1.proc 1).state = .runnable := by
  obtain ⟨x, -, hx, hx2, hxlive, hxg, hxpid, hasleep⟩ := exists_of_runRecordedBy []
    (fun h k l => k.tell 2 h l) Transition.anyStep childParks
    (fun x => x.2 = childEvents ∧ x.1.group.phase 1 = .live ∧ (x.1.proc 1).tgid = 2 ∧
      (x.1.proc 1).pid = 2 ∧ (x.1.proc 1).state = .sleeping) (by decide)
  obtain ⟨y, -, hy, hy2, hylive, hyg, hypid, hawake⟩ := exists_of_runRecordedBy []
    (fun h k l => k.tell 2 h l) Transition.anyStep
    (childParks ++ calls 0 (.unpark 2 (.addr 5)) 1)
    (fun y => y.2 = childEvents ∧ y.1.group.phase 1 = .live ∧ (y.1.proc 1).tgid = 2 ∧
      (y.1.proc 1).pid = 2 ∧ (y.1.proc 1).state = .runnable) (by decide +kernel)
  exact ⟨x, y, hx, hy, hx2.trans hy2.symm, ⟨Or.inl hxlive, hxg⟩, ⟨Or.inl hylive, hyg⟩, hxpid, hypid,
    hasleep, hawake⟩

end KThreads
