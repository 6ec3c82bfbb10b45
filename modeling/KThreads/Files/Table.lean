import KThreads.Group.Table
import KThreads.Lib.RefCount

/-!
# Descriptor tables

The open files of the slots, without the rest of the process table: a table of
descriptors for each slot, a reference count for each file, and for each thread
the references that it holds outside the tables, or the table it is filling in
or emptying. An entry that a thread has closed and not yet cleared, or filled in
and not yet counted, stands in the table without a reference. Slots, descriptors
and files are arbitrary finite types.
-/

namespace KThreads.Files

open Function (update update_apply update_eq_self update_eq_self_iff update_idem update_of_ne update_self)
open KThreads.Group (Phase)
open RefCount (Balanced)

/-- What a thread does with open files: it holds references of its own, copies
its descriptors into a slot it is building, where it has got a reference to store
next, duplicates a file into a descriptor, or closes its descriptors in `exit`. The
lists are the descriptors that are still to be visited. -/
inductive Act (ι δ φ : Type*)
  | hold (fs : List φ)
  | build (np : ι) (got : Option (δ × φ)) (todo : List δ)
  | dup (d : δ) (f : φ)
  | exit (closed : Option δ) (todo : List δ)

/-- The references that a thread holds outside the descriptor tables. -/
def Act.held {ι δ φ : Type*} : Act ι δ φ → List φ
  | hold fs => fs
  | build _ got _ => (got.map Prod.snd).toList
  | dup .. | exit .. => []

/-- The entry of the thread's own table that stands there without a reference. -/
def Act.window {ι δ φ : Type*} : Act ι δ φ → Option δ
  | dup d _ => some d
  | exit closed _ => closed
  | hold _ | build .. => none

/-- The descriptor tables and reference counts. -/
@[ext]
structure Table (ι δ φ : Type*) where
  ofile : ι → δ → Option φ
  ref : φ → ℕ
  phase : ι → Phase
  act : ι → Act ι δ φ

/-- The moves. -/
inductive Move (ι : Type*)
  | alloc (t np : ι)
  | release (t np : ι)
  | skip (t : ι)
  | copy (t np : ι)
  | store (t np : ι)
  | publish (t np : ι)
  | stillborn (t np : ι)
  | exitEnter (t : ι)
  | exitClose (t : ι)
  | exitClear (t : ι)
  | exit (t : ι)
  | reap
  | take (t : ι)
  | install (t : ι)
  | dupEnter (t : ι)
  | dup (t : ι)
  | drop (t : ι)
  | close (t : ι)

variable {ι δ φ : Type*} [DecidableEq ι] [DecidableEq δ] [DecidableEq φ]

/-- Assign to one descriptor. -/
def Table.set (a : Table ι δ φ) (s : ι) (d : δ) (v : Option φ) : ι → δ → Option φ :=
  update a.ofile s (update (a.ofile s) d v)

/-- The entries that the counters count. -/
def Table.counted (a : Table ι δ φ) (s : ι) (d : δ) : Option φ :=
  if (a.act s).window = some d then none else a.ofile s d

/-- The references that the threads hold outside the tables. -/
def Table.held (a : Table ι δ φ) (t : ι) : List φ := (a.act t).held

/-- The effect of each move, with the guard under which it is made. -/
inductive Step : Table ι δ φ → Move ι → Table ι δ φ → Prop
  | alloc {a : Table ι δ φ} {t np : ι} {todo : List δ} (ht : a.phase t = .live)
      (hact : a.act t = .hold []) (hnp : a.phase np = .unused) (hall : ∀ d, d ∈ todo)
      (hnodup : todo.Nodup) :
      Step a (.alloc t np) { a with
        phase := update a.phase np .embryo
        act := update a.act t (.build np none todo) }
  | release {a : Table ι δ φ} {t np : ι} {todo : List δ} (hact : a.act t = .build np none todo)
      (hall : ∀ d, d ∈ todo) :
      Step a (.release t np) { a with
        phase := update a.phase np .unused
        act := update a.act t (.hold []) }
  /-- Descriptors that are null are passed over. -/
  | skip {a : Table ι δ φ} {t np : ι} {pre todo : List δ}
      (hact : a.act t = .build np none (pre ++ todo)) (hpre : ∀ d ∈ pre, a.ofile t d = none) :
      Step a (.skip t) { a with act := update a.act t (.build np none todo) }
  | exitSkip {a : Table ι δ φ} {t : ι} {pre todo : List δ}
      (hact : a.act t = .exit none (pre ++ todo)) (hpre : ∀ d ∈ pre, a.ofile t d = none) :
      Step a (.skip t) { a with act := update a.act t (.exit none todo) }
  /-- The next file is duplicated for the slot under construction. -/
  | copy {a : Table ι δ φ} {t np : ι} {pre todo : List δ} {d : δ} {f : φ}
      (hact : a.act t = .build np none (pre ++ d :: todo)) (hpre : ∀ d ∈ pre, a.ofile t d = none)
      (hd : a.ofile t d = some f) :
      Step a (.copy t np) { a with
        ref := update a.ref f (a.ref f + 1)
        act := update a.act t (.build np (some (d, f)) todo) }
  | store {a : Table ι δ φ} {t np : ι} {todo : List δ} {d : δ} {f : φ}
      (hact : a.act t = .build np (some (d, f)) todo) :
      Step a (.store t np) { a with
        ofile := a.set np d (some f)
        act := update a.act t (.build np none todo) }
  | publish {a : Table ι δ φ} {t np : ι} (hact : a.act t = .build np none []) :
      Step a (.publish t np) { a with
        phase := update a.phase np .live
        act := update a.act t (.hold []) }
  /-- A slot is published as a zombie, with the descriptors copied into it. -/
  | stillborn {a : Table ι δ φ} {t np : ι} (hact : a.act t = .build np none []) :
      Step a (.stillborn t np) { a with
        phase := update a.phase np .zombie
        act := update a.act t (.hold []) }
  | exitEnter {a : Table ι δ φ} {t : ι} {todo : List δ} (ht : a.phase t = .live)
      (hact : a.act t = .hold []) (hall : ∀ d, d ∈ todo) :
      Step a (.exitEnter t) { a with act := update a.act t (.exit none todo) }
  | exitClose {a : Table ι δ φ} {t : ι} {pre todo : List δ} {d : δ} {f : φ}
      (hact : a.act t = .exit none (pre ++ d :: todo)) (hpre : ∀ d ∈ pre, a.ofile t d = none)
      (hd : a.ofile t d = some f) :
      Step a (.exitClose t) { a with
        ref := update a.ref f (a.ref f - 1)
        act := update a.act t (.exit (some d) todo) }
  | exitClear {a : Table ι δ φ} {t : ι} {todo : List δ} {d : δ}
      (hact : a.act t = .exit (some d) todo) :
      Step a (.exitClear t) { a with
        ofile := a.set t d none
        act := update a.act t (.exit none todo) }
  | exit {a : Table ι δ φ} {t : ι} (hact : a.act t = .exit none []) :
      Step a (.exit t) { a with
        phase := update a.phase t .zombie
        act := update a.act t (.hold []) }
  | reap {a : Table ι δ φ} {S : ι → Prop} [DecidablePred S]
      (hS : ∀ s, S s → a.phase s = .zombie) :
      Step a .reap { a with phase := fun s => if S s then .unused else a.phase s }
  /-- An unused file is allocated to a thread. -/
  | take {a : Table ι δ φ} {t : ι} {fs : List φ} {f : φ} (ht : a.phase t = .live)
      (hact : a.act t = .hold fs) (hf : a.ref f = 0) :
      Step a (.take t) { a with
        ref := update a.ref f 1
        act := update a.act t (.hold (fs ++ [f])) }
  /-- A reference goes into a free descriptor. -/
  | install {a : Table ι δ φ} {t : ι} {d : δ} {f : φ} (hact : a.act t = .hold [f])
      (hd : a.ofile t d = none) :
      Step a (.install t) { a with
        ofile := a.set t d (some f)
        act := update a.act t (.hold []) }
  | installTwo {a : Table ι δ φ} {t : ι} {d e : δ} {f g : φ} (hact : a.act t = .hold [f, g])
      (hd : a.ofile t d = none) (he : a.ofile t e = none) (hde : d ≠ e) :
      Step a (.install t) { a with
        ofile := update a.ofile t (update (update (a.ofile t) d (some f)) e (some g))
        act := update a.act t (.hold []) }
  /-- The file of a descriptor goes into a free one before it is counted there. -/
  | dupEnter {a : Table ι δ φ} {t : ι} {c d : δ} {f : φ} (ht : a.phase t = .live)
      (hact : a.act t = .hold []) (hc : a.ofile t c = some f) (hd : a.ofile t d = none) :
      Step a (.dupEnter t) { a with
        ofile := a.set t d (some f)
        act := update a.act t (.dup d f) }
  | dup {a : Table ι δ φ} {t : ι} {d : δ} {f : φ} (hact : a.act t = .dup d f) :
      Step a (.dup t) { a with
        ref := update a.ref f (a.ref f + 1)
        act := update a.act t (.hold []) }
  /-- A descriptor is cleared, and its reference kept until it is closed. -/
  | drop {a : Table ι δ φ} {t : ι} {d : δ} {f : φ} (ht : a.phase t = .live)
      (hact : a.act t = .hold []) (hd : a.ofile t d = some f) :
      Step a (.drop t) { a with
        ofile := a.set t d none
        act := update a.act t (.hold [f]) }
  | close {a : Table ι δ φ} {t : ι} {f : φ} {fs : List φ} (hact : a.act t = .hold (f :: fs)) :
      Step a (.close t) { a with
        ref := update a.ref f (a.ref f - 1)
        act := update a.act t (.hold fs) }

/-- The tables without open files, and one live thread. -/
def Table.initial (i : ι) : Table ι δ φ where
  ofile _ _ := none
  ref _ := 0
  phase s := if s = i then .live else .unused
  act _ := .hold []

/-- The descriptor machine, started with the thread of the slot `i`. -/
def machine (i : ι) : Transition.System (Table ι δ φ) (Move ι) where
  init a := a = .initial i
  step := Step

/-- A thread that is born dead has been given no open files. -/
def StillbornEmpty (a : Table ι δ φ) (m : Move ι) : Prop :=
  ∀ t np, m = .stillborn t np → ∀ d, a.ofile t d = none

omit [DecidableEq δ] [DecidableEq φ] in
theorem held_update {a : Table ι δ φ} (t : ι) (x : Act ι δ φ) :
    (fun s => (update a.act t x s).held) = update a.held t x.held := by
  funext s
  simp only [Table.held, update_apply]
  split <;> rfl

variable [Fintype ι] [Fintype δ]

/-- What holds of the open files. -/
structure Inv (a : Table ι δ φ) : Prop where
  act_live : ∀ t, a.phase t ≠ .live → a.act t = .hold []
  build_embryo : ∀ t np got todo, a.act t = .build np got todo → a.phase np = .embryo
  build_inj : ∀ t t' np got got' todo todo',
    a.act t = .build np got todo → a.act t' = .build np got' todo' → t = t'
  build_nodup : ∀ t np got todo, a.act t = .build np got todo → todo.Nodup
  /-- A slot under construction has the descriptors visited so far. -/
  build_copy : ∀ t np got todo, a.act t = .build np got todo → ∀ d, a.ofile np d =
    if d ∈ todo ∨ got.map Prod.fst = some d then none else a.ofile t d
  build_got : ∀ t np d f todo, a.act t = .build np (some (d, f)) todo →
    a.ofile t d = some f ∧ d ∉ todo
  dup_open : ∀ t d f, a.act t = .dup d f →
    a.ofile t d = some f ∧ ∃ c, c ≠ d ∧ a.ofile t c = some f
  exit_closed : ∀ t closed todo, a.act t = .exit closed todo →
    ∀ d, d ∉ todo → closed ≠ some d → a.ofile t d = none
  /-- The slots without a thread have no open files. -/
  clear : ∀ s, a.phase s = .unused ∨ a.phase s = .zombie → ∀ d, a.ofile s d = none
  /-- The counters count the references. -/
  balanced : Balanced a.ref a.counted a.held

namespace Inv

variable {a a' : Table ι δ φ} {m : Move ι}

theorem act_live_step (h : Inv a) (hst : Step a m a') :
    ∀ t, a'.phase t ≠ .live → a'.act t = .hold [] := by
  have hlive := h.act_live
  have hbuild := h.build_embryo
  cases hst <;> simp only [update_apply] <;> grind

theorem build_embryo_step (h : Inv a) (hst : Step a m a') :
    ∀ t np got todo, a'.act t = .build np got todo → a'.phase np = .embryo := by
  have hlive := h.act_live
  have hbuild := h.build_embryo
  have hinj := h.build_inj
  cases hst <;> simp only [update_apply] <;> grind

theorem build_inj_step (h : Inv a) (hst : Step a m a') :
    ∀ t t' np got got' todo todo', a'.act t = .build np got todo →
      a'.act t' = .build np got' todo' → t = t' := by
  have hbuild := h.build_embryo
  have hinj := h.build_inj
  cases hst <;> simp only [update_apply] <;> grind

theorem build_nodup_step (h : Inv a) (hst : Step a m a') :
    ∀ t np got todo, a'.act t = .build np got todo → todo.Nodup := by
  have hnodup := h.build_nodup
  cases hst <;> simp only [update_apply] <;> grind

theorem build_got_step (h : Inv a) (hst : Step a m a') :
    ∀ t np d f todo, a'.act t = .build np (some (d, f)) todo →
      a'.ofile t d = some f ∧ d ∉ todo := by
  have hlive := h.act_live
  have hbuild := h.build_embryo
  have hnodup := h.build_nodup
  have hgot := h.build_got
  cases hst <;> simp only [update_apply, Table.set] <;> grind

theorem dup_open_step (h : Inv a) (hst : Step a m a') :
    ∀ t d f, a'.act t = .dup d f → a'.ofile t d = some f ∧ ∃ c, c ≠ d ∧ a'.ofile t c = some f := by
  have hlive := h.act_live
  have hbuild := h.build_embryo
  intro t d f hd
  have hkeeps : a.act t = .dup d f → a'.ofile t = a.ofile t →
      a'.ofile t d = some f ∧ ∃ c, c ≠ d ∧ a'.ofile t c = some f := fun hact hsame => by
    rw [hsame]
    exact h.dup_open t d f hact
  cases hst with
  | @dupEnter u c e g _ hact hc he =>
    by_cases htu : t = u
    · simp only [htu, update_self, Act.dup.injEq] at hd
      obtain ⟨rfl, rfl⟩ := hd
      have hne : c ≠ e := by
        rintro rfl
        simp [hc] at he
      exact ⟨by simp [htu, Table.set], c, hne, by simp [htu, Table.set, hne, hc]⟩
    · exact hkeeps (by simpa [htu] using hd) (by simp [htu, Table.set])
  | _ =>
    refine hkeeps ?_ ?_ <;> simp only [update_apply, Table.set] at hd ⊢ <;> grind

theorem exit_closed_step (h : Inv a) (hst : Step a m a') :
    ∀ t closed todo, a'.act t = .exit closed todo →
      ∀ d, d ∉ todo → closed ≠ some d → a'.ofile t d = none := by
  have hlive := h.act_live
  have hbuild := h.build_embryo
  have hclosed := h.exit_closed
  cases hst with
  | exitSkip hact hpre | exitClose hact hpre hd =>
    have hvisited := h.exit_closed _ _ _ hact
    simp only [update_apply]
    grind
  | _ =>
    simp only [update_apply, Table.set]
    grind

theorem clear_step (h : Inv a) (hok : StillbornEmpty a m) (hst : Step a m a') :
    ∀ s, a'.phase s = .unused ∨ a'.phase s = .zombie → ∀ d, a'.ofile s d = none := by
  have hlive := h.act_live
  have hbuild := h.build_embryo
  have hclear := h.clear
  cases hst with
  | release hact hall =>
    have hcopy := h.build_copy _ _ _ _ hact
    simp only [update_apply]
    grind
  | @stillborn t np hact =>
    have hcopy := h.build_copy t np none [] hact
    have hempty := hok t np rfl
    simp only [update_apply]
    grind
  | exit hact =>
    have hclosed := h.exit_closed _ _ _ hact
    simp only [update_apply]
    grind
  | _ =>
    simp only [update_apply, Table.set]
    grind

omit [DecidableEq ι] in
theorem builder_ne (h : Inv a) {t np : ι} {got : Option (δ × φ)} {todo : List δ}
    (hact : a.act t = .build np got todo) : t ≠ np := by
  rintro rfl
  simp [h.act_live t (by simp [h.build_embryo t t got todo hact])] at hact

theorem build_copy_step (h : Inv a) (hst : Step a m a') :
    ∀ t np got todo, a'.act t = .build np got todo → ∀ d, a'.ofile np d =
      if d ∈ todo ∨ got.map Prod.fst = some d then none else a'.ofile t d := by
  have hlive := h.act_live
  have hbuild := h.build_embryo
  have hinj := h.build_inj
  have hcopy := h.build_copy
  have hclear := h.clear
  cases hst with
  | @skip t np pre todo hact hpre | @copy t np pre todo c f hact hpre hc =>
    intro u nq got rest hu d
    by_cases hut : u = t
    · have hvisited := h.build_copy t np _ _ hact d
      have hnull := hpre d
      simp only [hut, update_self, Act.build.injEq] at hu
      obtain ⟨rfl, rfl, rfl⟩ := hu
      simp only [hut, List.mem_append, List.mem_cons, Option.map_none, Option.map_some] at hvisited ⊢
      grind
    · exact h.build_copy u nq got rest (by simpa [hut] using hu) d
  | @store t np todo c f hact =>
    intro u nq got rest hu d
    by_cases hut : u = t
    · have hvisited := h.build_copy t np _ _ hact d
      have hgot := h.build_got t np c f _ hact
      have hne := h.builder_ne hact
      simp only [hut, update_self, Act.build.injEq] at hu
      obtain ⟨rfl, rfl, rfl⟩ := hu
      simp only [hut, Table.set, update_apply]
      grind
    · -- Another builder fills in another slot.
      have hu' : a.act u = .build nq got rest := by simpa [hut] using hu
      have hnq : nq ≠ np := fun heq => hut (hinj u t np _ _ _ _ (heq ▸ hu') hact)
      have hunp : u ≠ np := by
        rintro rfl
        simp [hlive u (by simp [hbuild t u _ _ hact])] at hu'
      simpa [Table.set, hnq, hunp] using h.build_copy u nq got rest hu' d
  | _ =>
    simp only [update_apply, Table.set]
    grind

/-- One thread changes what it does, and one entry that is counted. -/
theorem balanced_assign (h : Inv a) {b : Table ι δ φ} {s t : ι} {d : δ} {v : Option φ} {x : Act ι δ φ}
    (hact : b.act = update a.act t x)
    (hcounted : ∀ u e, b.counted u e = if u = s ∧ e = d then v else a.counted u e)
    (href : ∀ f, b.ref f + RefCount.points (a.counted s d) f + (a.held t).count f =
      a.ref f + RefCount.points v f + x.held.count f) :
    Balanced b.ref b.counted b.held := by
  have hbal := h.balanced.assign (s := s) (t := t) (d := d) (v := v) (l := x.held) href
  have htable : b.counted = update a.counted s (update (a.counted s) d v) := by
    funext u e
    rw [hcounted]
    simp only [update_apply]
    grind
  have hheld : b.held = update a.held t x.held := by
    rw [← held_update, ← hact]
    rfl
  rwa [htable, hheld]

/-- One thread changes what it does, and no entry that is counted. -/
theorem balanced_hold (h : Inv a) {t : ι} {x : Act ι δ φ} (hact : a'.act = update a.act t x)
    (hcounted : ∀ u e, a'.counted u e = a.counted u e)
    (href : ∀ f, a'.ref f + (a.held t).count f = a.ref f + x.held.count f) :
    Balanced a'.ref a'.counted a'.held := by
  have hheld : a'.held = update a.held t x.held := by
    rw [← held_update, ← hact]
    rfl
  rw [hheld, funext fun u => funext (hcounted u)]
  exact h.balanced.hold href

omit [Fintype ι] [Fintype δ] [DecidableEq φ] in
theorem counted_same (hofile : a'.ofile = a.ofile) {t : ι} {x : Act ι δ φ}
    (hact : a'.act = update a.act t x) (hx : x.window = (a.act t).window) (u : ι) (e : δ) :
    a'.counted u e = a.counted u e := by
  simp only [Table.counted, hofile, hact, update_apply]
  grind

omit [Fintype ι] [Fintype δ] [DecidableEq ι] [DecidableEq φ] in
theorem counted_of_window {s : ι} (hs : (a.act s).window = none) (d : δ) :
    a.counted s d = a.ofile s d := by
  simp [Table.counted, hs]

theorem balanced_step (h : Inv a) (hst : Step a m a') : Balanced a'.ref a'.counted a'.held := by
  have hbal := h.balanced
  cases hst with
  | alloc _ hact | release hact | skip hact | exitSkip hact | publish hact | stillborn hact
  | exitEnter _ hact | exit hact =>
    refine h.balanced_hold rfl (counted_same rfl rfl (by simp [hact, Act.window])) fun g => ?_
    simp [Table.held, hact, Act.held]
  | reap => exact hbal
  | @copy t np pre todo d f hact _ hd =>
    refine h.balanced_hold rfl (counted_same rfl rfl (by simp [hact, Act.window])) fun g => ?_
    simp only [Table.held, hact, Act.held, update_apply]
    grind
  | @take t fs f _ hact hf =>
    refine h.balanced_hold rfl (counted_same rfl rfl (by simp [hact, Act.window])) fun g => ?_
    simp only [Table.held, hact, Act.held, update_apply, List.count_append]
    grind
  | @close t f fs hact =>
    have hpos := hbal.pos_of_held (t := t) (f := f) (by simp [Table.held, hact, Act.held])
    refine h.balanced_hold rfl (counted_same rfl rfl (by simp [hact, Act.window])) fun g => ?_
    simp only [Table.held, hact, Act.held, update_apply, List.count_cons]
    grind
  | @store t np todo d f hact =>
    have hne := h.builder_ne hact
    have hnp : (a.act np).window = none := by
      simp [h.act_live np (by simp [h.build_embryo t np _ _ hact]), Act.window]
    have hnone : a.ofile np d = none := by simp [h.build_copy t np _ _ hact d]
    refine h.balanced_assign (s := np) (d := d) (v := some f) rfl (fun u e => ?_) fun g => ?_
    · simp only [Table.counted, Table.set, update_apply]
      grind [Act.window]
    · simp [counted_of_window hnp, Table.held, hact, hnone, Act.held, RefCount.points]
      grind
  | @exitClose t pre todo d f hact _ hd =>
    have hcounted : a.counted t d = some f := by
      rw [counted_of_window (by simp [hact, Act.window]), hd]
    have hpos := hbal.pos_of_entry hcounted
    refine h.balanced_assign (s := t) (d := d) (v := none) rfl (fun u e => ?_) fun g => ?_
    · simp only [Table.counted, update_apply]
      grind [Act.window]
    · simp only [Table.held, hact, hcounted, Act.held, update_apply, RefCount.points]
      grind
  | @exitClear t todo d hact =>
    refine h.balanced_hold rfl (fun u e => ?_) fun g => by simp [Table.held, hact, Act.held]
    simp only [Table.counted, Table.set, update_apply]
    grind [Act.window]
  | @dupEnter t c d f _ hact hc hd =>
    refine h.balanced_hold rfl (fun u e => ?_) fun g => by simp [Table.held, hact, Act.held]
    simp only [Table.counted, Table.set, update_apply]
    grind [Act.window]
  | @dup t d f hact =>
    have hopen := (h.dup_open t d f hact).1
    refine h.balanced_assign (s := t) (d := d) (v := some f) rfl (fun u e => ?_) fun g => ?_
    · simp only [Table.counted, update_apply]
      grind [Act.window]
    · simp only [Table.counted, Table.held, hact, Act.held, Act.window, update_apply, RefCount.points]
      grind
  | @install t d f hact hd =>
    refine h.balanced_assign (s := t) (d := d) (v := some f) rfl (fun u e => ?_) fun g => ?_
    · simp only [Table.counted, Table.set, update_apply]
      grind [Act.window]
    · simp only [Table.counted, Table.held, hact, hd, Act.held, Act.window, RefCount.points]
      grind
  | @drop t d f _ hact hd =>
    refine h.balanced_assign (s := t) (d := d) (v := none) rfl (fun u e => ?_) fun g => ?_
    · simp only [Table.counted, Table.set, update_apply]
      grind [Act.window]
    · simp only [Table.counted, Table.held, hact, hd, Act.held, Act.window, RefCount.points]
      grind
  | @installTwo t d e f g hact hd he hde =>
    have hfirst := h.balanced_assign (b := { a with
      ofile := a.set t d (some f), act := update a.act t (.hold [g]) })
      (s := t) (d := d) (v := some f) rfl
      (fun u e => by simp only [Table.counted, Table.set, update_apply]; grind [Act.window])
      fun x => by
        simp only [Table.counted, Table.held, hact, hd, Act.held, Act.window, RefCount.points]
        grind
    have hsecond := hfirst.assign (r := a.ref) (s := t) (t := t) (d := e) (v := some g) (l := [])
      fun x => by
        simp only [Table.counted, Table.held, Table.set, update_self, update_of_ne hde.symm, he,
          Act.held, Act.window, RefCount.points]
        grind
    convert hsecond using 1
    · funext u c
      by_cases hu : u = t
      · simp [Table.counted, Table.set, Act.window, hu, update_apply]
      · simp [Table.counted, Table.set, hu]
    · funext u
      simp only [Table.held, update_apply]
      grind [Act.held]

theorem step (h : Inv a) (hok : StillbornEmpty a m) (hst : Step a m a') : Inv a' where
  act_live := h.act_live_step hst
  build_embryo := h.build_embryo_step hst
  build_inj := h.build_inj_step hst
  build_nodup := h.build_nodup_step hst
  build_copy := h.build_copy_step hst
  build_got := h.build_got_step hst
  dup_open := h.dup_open_step hst
  exit_closed := h.exit_closed_step hst
  clear := h.clear_step hok hst
  balanced := h.balanced_step hst

theorem of_reach {i : ι} (h : Transition.Reach (machine i) StillbornEmpty a) : Inv a := by
  refine h.invariant (fun a h0 => ?_) fun a m a' _ hinv hok hst => hinv.step hok hst
  cases h0
  constructor
  case balanced =>
    intro f
    simp [Table.initial, Table.counted, Table.held, Act.held, Act.window, RefCount.entries,
      RefCount.loose]
  all_goals simp [Table.initial]

end Inv

end KThreads.Files
