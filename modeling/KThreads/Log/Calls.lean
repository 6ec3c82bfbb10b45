import Mathlib
import KThreads.Lib.RedoLog
import KThreads.Lib.Transition

/-!
# The log

`begin_op`, `log_write`, `end_op`, `commit` and `recover_from_log`. A step is a section
under `log.lock` or a write of one block; the test of `log_write` for room is made
without the lock and is a step of its own. The machine may crash at any time, also while
it recovers; a panic stops it until then.

The buffer cache is the contents that `bread` returns. A block in the list keeps its buffer, so
that `write_log` finds none for a block of the log when the list has `NBUF` blocks. A buffer is locked from `bread` to
`brelse`, so that a change to it is seen by others when `log_write` is done.
-/

namespace KThreads.Log

open Function (update)
open RedoLog (Layout)

/-- The most blocks that an operation is meant to write. -/
def MAXOPBLOCKS : ℕ := 10

/-- The most data blocks in the log. -/
def LOGSIZE : ℕ := MAXOPBLOCKS * 3

/-- The number of the buffers. -/
def NBUF : ℕ := MAXOPBLOCKS * 3

/-- The words of a block. -/
abbrev Data := Fin 128 → UInt32

/-- The blocks that `struct logheader` names: `n` is the first word, and an `int`. -/
def getHead (d : Data) : List ℕ :=
  if 2 ^ 31 ≤ (d 0).toNat then []
  else (List.range (d 0).toNat).map fun i => if h : i + 1 < 128 then (d ⟨i + 1, h⟩).toNat else 0

/-- Assign `n` and the first `n` entries of `block`. -/
def putHead (d : Data) (l : List ℕ) : Data := fun w =>
  if w = 0 then .ofNat l.length
  else match l[w.val - 1]? with
    | some b => .ofNat b
    | none => d w

/-- Where the log is, as the superblock has it. -/
structure Super where
  start : ℕ
  size : ℕ
  size_pos : 0 < size

namespace Super

variable (sb : Super)

/-- A block that is not part of the log. -/
def IsHome (b : ℕ) : Prop := b < 2 ^ 32 ∧ (b < sb.start ∨ sb.start + sb.size ≤ b)

instance (b : ℕ) : Decidable (sb.IsHome b) := inferInstanceAs (Decidable (_ ∧ _))

theorem getHead_putHead (d : Data) {l : List ℕ} (hlength : l.length < 128)
    (hblocks : ∀ b ∈ l, b < 2 ^ 32) : getHead (putHead d l) = l := by
  have hn : (UInt32.ofNat l.length).toNat = l.length := by
    rw [UInt32.toNat_ofNat']
    omega
  have hint : ¬2 ^ 31 ≤ (putHead d l 0).toNat := by
    rw [putHead, if_pos rfl, hn]
    omega
  rw [getHead, if_neg hint]
  apply List.ext_getElem
  · simp [putHead, hn]
  · intro i hi hi'
    have hlt : i + 1 < 128 := by omega
    have hb : l[i] < 2 ^ 32 := hblocks _ (List.getElem_mem hi')
    have hne : (⟨i + 1, hlt⟩ : Fin 128) ≠ 0 := by simp [Fin.ext_iff]
    simp only [putHead, List.getElem_map, List.getElem_range, dif_pos hlt, if_neg hne,
      Nat.add_sub_cancel, List.getElem?_eq_getElem hi', UInt32.toNat_ofNat']
    omega

/-- The log that the superblock describes. It has room for `LOGSIZE` blocks at most. -/
def layout : Layout ℕ Data where
  head := sb.start
  slot i := sb.start + i + 1
  cap := min LOGSIZE (sb.size - 1)
  Home := sb.IsHome
  get := getHead
  put := putHead
  slot_inj _ _ h := by omega
  slot_ne_head _ := by omega
  home_ne_head := by
    rintro b ⟨-, h⟩ rfl
    have := sb.size_pos
    omega
  home_ne_slot := by
    rintro b i ⟨-, h⟩ hi rfl
    omega
  get_put d l hlength hhome := by
    refine getHead_putHead d ?_ fun b hb => (hhome b hb).1
    have hmax : LOGSIZE = 30 := rfl
    omega

end Super

/-- The log of the image that `mkfs` builds. -/
def mkfsLog : Super where
  start := 2
  size := LOGSIZE
  size_pos := by decide

/-- What `log.c` stops the machine with. -/
inductive Panic
  | tooBig
  | outside
  | committing
  /-- `log.lh.block` is written behind its end. -/
  | overrun
  /-- That of `bget` in `write_log` -/
  | noBuffers
  deriving DecidableEq

/-- Where a thread is. -/
inductive Pc
  | user
  /-- Between `begin_op` and `end_op` -/
  | op
  /-- In `log_write` behind its tests, with the block and its new contents -/
  | logWrite (b : ℕ) (d : Data)
  | commit
  | writeLog (tail : ℕ)
  | writeHead
  | install (tail : ℕ)
  | clearHead
  /-- Behind the call of `commit` in `end_op` -/
  | finish

/-- How far `recover_from_log` has come. -/
inductive Boot
  | readHead
  | install (tail : ℕ)
  | clearHead
  | up
  deriving DecidableEq

/-- The disk with its cache, `struct log`, and the threads. The fields from `pending` on
are history. -/
structure State (τ : Type*) where
  store : BlockStore ℕ Data
  /-- The first `n` entries of `log.lh.block` -/
  lh : List ℕ
  outstanding : ℕ
  committing : Bool
  boot : Boot
  panicked : Option Panic
  pc : τ → Pc
  /-- The calls of `log_write` since the last commit. -/
  pending : List (ℕ × Data)
  /-- The calls of `log_write` that each commit has written a header for. -/
  groups : List (List (ℕ × Data))
  /-- The blocks that the operation of a thread has logged. -/
  logged : τ → Finset ℕ

/-- What happens next. -/
inductive Label (τ : Type*)
  | beginOp (t : τ)
  /-- The tests of `log_write` for a block with new contents. -/
  | logWrite (t : τ) (b : ℕ) (d : Data)
  /-- The section of `log_write`. -/
  | append (t : τ)
  | endOp (t : τ)
  /-- The next step of `commit`. -/
  | step (t : τ)
  | recover
  | crash

variable {τ : Type*} [DecidableEq τ]

namespace State

variable (s : State τ) (sb : Super) (t : τ)

def goto (c : Pc) : State τ := { s with pc := update s.pc t c }

omit [DecidableEq τ] in
def panic (p : Panic) : State τ := { s with panicked := some p }

/-- The section of `log_write`: a block that is there already is absorbed. -/
def append (b : ℕ) (d : Data) : State τ :=
  if b ∉ s.lh ∧ LOGSIZE ≤ s.lh.length then s.panic .overrun
  else
    { s with
      store := s.store.modify b d
      lh := if b ∈ s.lh then s.lh else s.lh ++ [b]
      pending := s.pending ++ [(b, d)]
      logged := update s.logged t (insert b (s.logged t)) }.goto t .op

/-- The section of `end_op`. -/
def endOp : State τ :=
  if s.committing then s.panic .committing
  else if s.outstanding - 1 = 0 then
    { s with outstanding := s.outstanding - 1, committing := true }.goto t .commit
  else { s with outstanding := s.outstanding - 1 }.goto t .user

/-- The steps of `commit` and of the end of `end_op`. -/
def step : Pc → Option (State τ)
  | .user | .op | .logWrite _ _ => none
  | .commit => some (s.goto t (if s.lh = [] then .finish else .writeLog 0))
  | .writeLog tail =>
      some (match s.lh[tail]? with
        | some b =>
            if NBUF ≤ s.lh.length then s.panic .noBuffers
            else
              { s with store := s.store.write (sb.start + tail + 1) (s.store.mem b) }.goto t
                (.writeLog (tail + 1))
        | none => s.goto t .writeHead)
  | .writeHead =>
      some ({ s with
        store := s.store.write sb.start (putHead (s.store.mem sb.start) s.lh)
        pending := []
        groups := s.groups ++ [s.pending] }.goto t (.install 0))
  | .install tail =>
      some (match s.lh[tail]? with
        | some b =>
            { s with store := s.store.write b (s.store.mem (sb.start + tail + 1)) }.goto t
              (.install (tail + 1))
        | none => { s with lh := [] }.goto t .clearHead)
  | .clearHead =>
      some ({ s with
        store := s.store.write sb.start (putHead (s.store.mem sb.start) s.lh) }.goto t .finish)
  | .finish => some ({ s with committing := false }.goto t .user)

omit [DecidableEq τ] in
/-- The steps of `recover_from_log`. -/
def recover : Option (State τ) :=
  match s.boot with
  | .readHead =>
      let lh := getHead (s.store.mem sb.start)
      some (if LOGSIZE < lh.length then s.panic .overrun else { s with lh, boot := .install 0 })
  | .install tail =>
      some (match s.lh[tail]? with
        | some b =>
            { s with
              store := s.store.write b (s.store.mem (sb.start + tail + 1))
              boot := .install (tail + 1) }
        | none => { s with lh := [], boot := .clearHead })
  | .clearHead =>
      some { s with
        store := s.store.write sb.start (putHead (s.store.mem sb.start) s.lh)
        boot := .up }
  | .up => none

omit [DecidableEq τ] in
/-- The machine is started again with what is on the disk. -/
def crash : State τ :=
  { s with
    store := s.store.crash, lh := [], outstanding := 0, committing := false, boot := .readHead
    panicked := none, pc := fun _ => .user, pending := [], logged := fun _ => ∅ }

omit [DecidableEq τ] in
/-- The threads run. -/
def Runs : Prop := s.boot = .up ∧ s.panicked = none

instance : Decidable s.Runs := inferInstanceAs (Decidable (_ ∧ _))

/-- One step, `none` when the label is not enabled. A thread that has to wait in
`begin_op` sleeps until it need not. -/
def next : Label τ → Option (State τ)
  | .beginOp t =>
      match s.pc t with
      | .user =>
          if s.Runs ∧ s.committing = false ∧
              s.lh.length + (s.outstanding + 1) * MAXOPBLOCKS ≤ LOGSIZE then
            some ({ s with
              outstanding := s.outstanding + 1
              logged := update s.logged t ∅ }.goto t .op)
          else none
      | _ => none
  | .logWrite t b d =>
      match s.pc t with
      | .op =>
          if s.Runs ∧ sb.IsHome b then
            some (if s.lh.length ≥ LOGSIZE ∨ s.lh.length ≥ sb.size - 1 then s.panic .tooBig
              else if s.outstanding < 1 then s.panic .outside
              else s.goto t (.logWrite b d))
          else none
      | _ => none
  | .append t =>
      match s.pc t with
      | .logWrite b d => if s.Runs then some (s.append t b d) else none
      | _ => none
  | .endOp t =>
      match s.pc t with
      | .op => if s.Runs then some (s.endOp t) else none
      | _ => none
  | .step t => if s.Runs then s.step sb t (s.pc t) else none
  | .recover => if s.panicked = none then s.recover sb else none
  | .crash => some s.crash

omit [DecidableEq τ] in
/-- The machine is started with a disk. -/
def start (disk : ℕ → Data) : State τ where
  store := ⟨disk, disk⟩
  lh := []
  outstanding := 0
  committing := false
  boot := .readHead
  panicked := none
  pc _ := .user
  pending := []
  groups := []
  logged _ := ∅

section

variable {s sb t} {s' : State τ} {b : ℕ} {d : Data}

@[simp] theorem goto_pc (c : Pc) : (s.goto t c).pc = update s.pc t c := rfl

theorem of_next_beginOp (h : s.next sb (.beginOp t) = some s') :
    s.pc t = .user ∧ s.Runs ∧ s.committing = false ∧
      s.lh.length + (s.outstanding + 1) * MAXOPBLOCKS ≤ LOGSIZE ∧
      s' = { s with
        outstanding := s.outstanding + 1
        logged := update s.logged t ∅ }.goto t .op := by
  simp only [next] at h
  split at h
  · next hpc =>
    split at h
    · next hif => exact ⟨hpc, hif.1, hif.2.1, hif.2.2, (Option.some.inj h).symm⟩
    · cases h
  · cases h

theorem of_next_logWrite (h : s.next sb (.logWrite t b d) = some s') :
    s.pc t = .op ∧ s.Runs ∧ sb.IsHome b ∧
      (s' = s.panic .tooBig ∧ (LOGSIZE ≤ s.lh.length ∨ sb.size - 1 ≤ s.lh.length) ∨
        s' = s.panic .outside ∧ s.outstanding < 1 ∨ s' = s.goto t (.logWrite b d)) := by
  simp only [next] at h
  split at h
  · next hpc =>
    split at h
    · next hif =>
      refine ⟨hpc, hif.1, hif.2, ?_⟩
      cases Option.some.inj h
      split
      · next hbig => exact .inl ⟨rfl, hbig⟩
      · split
        · next hout => exact .inr (.inl ⟨rfl, hout⟩)
        · exact .inr (.inr rfl)
    · cases h
  · cases h

theorem of_next_append (h : s.next sb (.append t) = some s') :
    ∃ b d, s.pc t = .logWrite b d ∧ s.Runs ∧ s' = s.append t b d := by
  simp only [next] at h
  split at h
  · next b d hpc =>
    split at h
    · next hruns => exact ⟨b, d, hpc, hruns, (Option.some.inj h).symm⟩
    · cases h
  · cases h

theorem of_next_endOp (h : s.next sb (.endOp t) = some s') :
    s.pc t = .op ∧ s.Runs ∧ s' = s.endOp t := by
  simp only [next] at h
  split at h
  · next hpc =>
    split at h
    · next hruns => exact ⟨hpc, hruns, (Option.some.inj h).symm⟩
    · cases h
  · cases h

theorem of_next_step (h : s.next sb (.step t) = some s') :
    s.Runs ∧ s.step sb t (s.pc t) = some s' := by
  simp only [next] at h
  split at h
  · next hruns => exact ⟨hruns, h⟩
  · cases h

end

end State

/-- The log as a transition system, on a disk that `mkfs` or a run has left. -/
def machine (τ : Type*) [DecidableEq τ] (sb : Super) (disk : ℕ → Data) :
    Transition.System (State τ) (Label τ) where
  init s := s = .start disk
  step s l s' := s.next sb l = some s'

end KThreads.Log
