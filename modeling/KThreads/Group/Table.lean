import Mathlib
import KThreads.Lib.Transition

/-!
# Thread groups

What the process table is for, without the system calls: slots hold threads,
threads belong to groups with a leader slot, and a counter at the leader says
how many of them are alive. A step is one of the moves by which a slot changes
hands, a group loses or gains a thread, or a thread takes over a group. The
slots are an arbitrary finite type; the state is kept field by field, so that a
move says which fields it touches.

A slot under construction is public from its allocation on, and a thread that
is inside `exec`, `join` or `exit` relies on other slots. What a thread is
doing there is its job.
-/

namespace KThreads.Group

/-- The part of a slot's life that the group bookkeeping depends on. -/
inductive Phase
  | unused | embryo | live | zombie
  deriving DecidableEq

/-- Whether a slot is built for a new process or for a new thread. -/
inductive Kind
  | fork | clone
  deriving DecidableEq

/-- How far a slot under construction has been filled in: nothing, the group,
the page directory, the parent, which a builder in `clone` has read before. -/
inductive Stage (ι : Type*)
  | raw | grouped | mapped | reads (parent : Option ι) | rooted
  deriving DecidableEq

/-- How far a thread past the killed check of `exec` has come. -/
inductive Takeover
  | waiting | alone | swapping | taken | swapped | loaded (image : ℕ)
  deriving DecidableEq

/-- What a thread is doing that involves other slots. -/
inductive Job (ι : Type*)
  | none
  | build (kind : Kind) (stage : Stage ι) (np : ι)
  | exec (stage : Takeover)
  | join (pid : ℤ) (p : ι)
  | exit
  deriving DecidableEq

/-- The group bookkeeping of all slots. `freevms`, `owner` and `forker` are
history. -/
@[ext]
structure Table (ι : Type*) where
  phase : ι → Phase
  pid : ι → ℤ
  tgid : ι → ℤ
  process : ι → Option ι
  parent : ι → Option ι
  threadcount : ι → ℕ
  killed : ι → Bool
  pgdir : ι → Option ℕ
  job : ι → Job ι
  nextpid : ℤ
  npage : ℕ
  initproc : ι
  freevms : ℕ → ℕ
  owner : ℕ → Option ℤ
  forker : ι → ℤ

/-- The moves. -/
inductive Move (ι : Type*)
  | alloc (t np : ι) (kind : Kind)
  | release (t np : ι)
  | group (t np : ι) (kind : Kind)
  | map (t np : ι) (kind : Kind)
  | read (t np : ι)
  | root (t np : ι) (kind : Kind)
  | publish (t np : ι) (kind : Kind)
  | stillborn (t np : ι)
  | exitEnter (t : ι)
  | exit (t L : ι)
  | joinEnter (t : ι) (pid : ℤ) (p : ι)
  | joinLeave (t : ι)
  | joinReap (t p : ι)
  | waitReap (t p : ι)
  | mark (t : ι)
  | alone (t : ι)
  | swap (t L : ι)
  | take (t : ι)
  | settle (t : ι)
  | load (t : ι)
  | giveUp (t : ι)
  | commit (t : ι)
  | kill (s : ι)

namespace Table

variable {ι : Type*} (a : Table ι)

/-- A slot holds a thread that has been published. -/
def Published (s : ι) : Prop := a.phase s = .live ∨ a.phase s = .zombie

variable [DecidableEq ι]

/-- The live threads of the group led by a slot. -/
def members [Fintype ι] (L : ι) : Finset ι :=
  Finset.univ.filter fun s => a.phase s = .live ∧ a.process s = some L

/-- Clear the slots of a set, as a reaper does. -/
def clear (S : ι → Prop) [DecidablePred S] : Table ι :=
  { a with
    phase := fun s => if S s then .unused else a.phase s
    pid := fun s => if S s then 0 else a.pid s
    tgid := fun s => if S s then 0 else a.tgid s
    process := fun s => if S s then none else a.process s
    parent := fun s => if S s then none else a.parent s
    threadcount := fun s => if S s then 0 else a.threadcount s
    killed := fun s => if S s then false else a.killed s
    pgdir := fun s => if S s then none else a.pgdir s }

/-- The slots of a group whose directory the reaper of the group frees. -/
def freed [Fintype ι] (tgid : ℤ) (x : ℕ) : Finset ι :=
  Finset.univ.filter fun s =>
    a.tgid s = tgid ∧ (a.pid s = a.tgid s ∧ a.process s = some s) ∧ a.pgdir s = some x

end Table

open Function (update)

variable {ι : Type*} [DecidableEq ι] [Fintype ι]

/-- The effect of each move, with the guard under which it is made. -/
inductive Step : Table ι → Move ι → Table ι → Prop
  /-- An unused slot is allocated; only its phase and its pid are set. -/
  | alloc {a : Table ι} {t np : ι} {kind : Kind} (ht : a.phase t = .live) (hj : a.job t = .none)
      (hnp : a.phase np = .unused) :
      Step a (.alloc t np kind) { a with
        phase := update a.phase np .embryo
        pid := update a.pid np a.nextpid
        job := update a.job t (.build kind .raw np)
        nextpid := a.nextpid + 1 }
  /-- A slot for which there was no memory is given back. Its pid, and for a
  process its group, stay behind. -/
  | release {a : Table ι} {t np : ι} {kind : Kind} {stage : Stage ι}
      (hj : a.job t = .build kind stage np)
      (hs : stage = .raw ∨ kind = .fork ∧ stage = .grouped) :
      Step a (.release t np) { a with
        phase := update a.phase np .unused
        job := update a.job t .none }
  | groupFork {a : Table ι} {t np : ι} (hj : a.job t = .build .fork .raw np) :
      Step a (.group t np .fork) { a with
        tgid := update a.tgid np (a.pid np)
        process := update a.process np (some np)
        job := update a.job t (.build .fork .grouped np)
        npage := a.npage + 1 }
  | groupClone {a : Table ι} {t np : ι} (hj : a.job t = .build .clone .raw np) :
      Step a (.group t np .clone) { a with
        tgid := update a.tgid np (a.tgid t)
        process := update a.process np (a.process t)
        job := update a.job t (.build .clone .grouped np)
        npage := a.npage + 1 }
  | mapFork {a : Table ι} {t np : ι} (hj : a.job t = .build .fork .grouped np) :
      Step a (.map t np .fork) { a with
        pgdir := update a.pgdir np (some a.npage)
        job := update a.job t (.build .fork .mapped np)
        npage := a.npage + 1
        owner := update a.owner a.npage (some (a.tgid np)) }
  | mapClone {a : Table ι} {t np : ι} (hj : a.job t = .build .clone .grouped np) :
      Step a (.map t np .clone) { a with
        pgdir := update a.pgdir np (a.pgdir t)
        job := update a.job t (.build .clone .mapped np) }
  | rootFork {a : Table ι} {t np : ι} (hj : a.job t = .build .fork .mapped np) :
      Step a (.root t np .fork) { a with
        parent := update a.parent np (a.process t)
        job := update a.job t (.build .fork .rooted np)
        forker := update a.forker np (a.tgid t) }
  | read {a : Table ι} {t np : ι} (hj : a.job t = .build .clone .mapped np) :
      Step a (.read t np) { a with
        threadcount := update a.threadcount np 0
        job := update a.job t (.build .clone (.reads (a.parent t)) np) }
  | rootClone {a : Table ι} {t np : ι} {p : Option ι}
      (hj : a.job t = .build .clone (.reads p) np) :
      Step a (.root t np .clone) { a with
        parent := update a.parent np p
        job := update a.job t (.build .clone .rooted np) }
  | publishFork {a : Table ι} {t np : ι} (hj : a.job t = .build .fork .rooted np) :
      Step a (.publish t np .fork) { a with
        phase := update a.phase np .live
        threadcount := update a.threadcount np 1
        job := update a.job t .none }
  | publishClone {a : Table ι} {t np L : ι} (hj : a.job t = .build .clone .rooted np)
      (hk : a.killed t = false) (hL : a.process t = some L) :
      Step a (.publish t np .clone) { a with
        phase := update a.phase np .live
        threadcount := update a.threadcount L (a.threadcount L + 1)
        job := update a.job t .none }
  /-- The thread of a killed creator is born dead and is not counted. -/
  | stillborn {a : Table ι} {t np : ι} (hj : a.job t = .build .clone .rooted np)
      (hk : a.killed t = true) :
      Step a (.stillborn t np) { a with
        phase := update a.phase np .zombie
        job := update a.job t .none }
  | exitEnter {a : Table ι} {t : ι} (ht : a.phase t = .live) (hj : a.job t = .none)
      (hi : t ≠ a.initproc) :
      Step a (.exitEnter t) { a with job := update a.job t .exit }
  | exit {a : Table ι} {t L : ι} (hj : a.job t = .exit) (hL : a.process t = some L) :
      Step a (.exit t L) { a with
        phase := update a.phase t .zombie
        threadcount := update a.threadcount L (a.threadcount L - 1)
        parent := fun p => if a.parent p = some t then some a.initproc else a.parent p
        job := update a.job t .none }
  | joinEnter {a : Table ι} {t p : ι} {pid : ℤ} (ht : a.phase t = .live) (hj : a.job t = .none)
      (hpid : a.pid p = pid) (htgid : a.tgid p = a.tgid t) (hproc : a.process p = a.process t) :
      Step a (.joinEnter t pid p) { a with job := update a.job t (.join pid p) }
  | joinLeave {a : Table ι} {t p : ι} {pid : ℤ} (hj : a.job t = .join pid p) :
      Step a (.joinLeave t) { a with job := update a.job t .none }
  | joinReap {a : Table ι} {t p : ι} (ht : a.phase t = .live)
      (hj : (a.job t = .none ∧ a.tgid p = a.tgid t ∧ a.process p = a.process t) ∨
        ∃ pid, a.job t = .join pid p)
      (hp : a.phase p = .zombie)
      (hpid : a.tgid p ≠ a.pid p) (hproc : a.process p ≠ some p) :
      Step a (.joinReap t p)
        { a.clear fun s => s = p with job := update a.job t .none }
  /-- The group of a child without live threads is given back. -/
  | waitReap {a : Table ι} {t p L M : ι} (ht : a.phase t = .live) (hj : a.job t = .none)
      (hL : a.process t = some L) (hp : a.parent p = some L) (hM : a.process p = some M)
      (hzero : a.threadcount M = 0) (hz : ∀ s, a.tgid s = a.tgid p → a.phase s = .zombie) :
      Step a (.waitReap t p)
        { a.clear fun s => a.tgid s = a.tgid p with
          freevms := fun x => a.freevms x + (a.freed (a.tgid p) x).card }
  | mark {a : Table ι} {t : ι} (ht : a.phase t = .live) (hj : a.job t = .none)
      (hk : a.killed t = false) :
      Step a (.mark t) { a with
        killed := fun s => a.killed s || (a.tgid s = a.tgid t ∧ a.pid s ≠ a.pid t)
        job := update a.job t (.exec .waiting) }
  | alone {a : Table ι} {t : ι} (hj : a.job t = .exec .waiting)
      (hz : ∀ s, a.tgid s = a.tgid t → s ≠ t → a.phase s = .zombie) :
      Step a (.alone t) { a with job := update a.job t (.exec .alone) }
  /-- The identity of the leader goes to the thread that took the group over, in
  two assignments. -/
  | swap {a : Table ι} {t L : ι} (hj : a.job t = .exec .alone) (hL : a.process t = some L) :
      Step a (.swap t L) { a with
        pid := update a.pid L (a.pid t)
        job := update a.job t (.exec .swapping) }
  | take {a : Table ι} {t : ι} (hj : a.job t = .exec .swapping) :
      Step a (.take t) { a with
        pid := update a.pid t (a.tgid t)
        job := update a.job t (.exec .taken) }
  | settle {a : Table ι} {t : ι} (hj : a.job t = .exec .taken) :
      Step a (.settle t) { a with job := update a.job t (.exec .swapped) }
  | load {a : Table ι} {t : ι} (hj : a.job t = .exec .swapped) :
      Step a (.load t) { a with
        job := update a.job t (.exec (.loaded a.npage))
        npage := a.npage + 1 }
  | giveUp {a : Table ι} {t : ι} (hj : a.job t = .exec .swapped) :
      Step a (.giveUp t) { a with job := update a.job t .none }
  | commit {a : Table ι} {t : ι} {image : ℕ} (hj : a.job t = .exec (.loaded image)) :
      Step a (.commit t) { a with
        pgdir := update a.pgdir t (some image)
        job := update a.job t .none
        freevms := fun x => a.freevms x + if a.pgdir t = some x then 1 else 0
        owner := update a.owner image (some (a.tgid t)) }
  | kill {a : Table ι} {s : ι} :
      Step a (.kill s) { a with killed := update a.killed s true }

/-- The table with one thread, which leads the first group. -/
def Table.initial (i : ι) : Table ι where
  phase s := if s = i then .live else .unused
  pid s := if s = i then 1 else 0
  tgid s := if s = i then 1 else 0
  process s := if s = i then some i else none
  parent _ := none
  threadcount s := if s = i then 1 else 0
  killed _ := false
  pgdir s := if s = i then some 0 else none
  job _ := .none
  nextpid := 2
  npage := 2
  initproc := i
  freevms _ := 0
  owner x := if x = 0 then some 1 else none
  forker _ := 0

/-- The thread-group machine, started with the thread of the slot `i`. -/
def machine (i : ι) : Transition.System (Table ι) (Move ι) where
  init a := a = .initial i
  step := Step

end KThreads.Group
