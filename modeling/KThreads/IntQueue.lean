import Mathlib
import KThreads.Lib.Circular

/-!
# The queue of the user library

A queue of at most `QMAX` numbers in an array that is used around its end. The start and the end
are equal when the queue is empty and when it is full; the count tells which.
-/

namespace KThreads.IntQueue

open Function (update)

/-- `QMAX`: the length of the array. -/
abbrev QMAX : ℕ := 100

/-- `queue`; `stop` is the field `end`. -/
structure Queue where
  arr : Fin QMAX → ℤ
  start : ℤ
  stop : ℤ
  count : UInt32

namespace Queue

variable (q : Queue)

def qinit : Queue := { q with start := 0, stop := 0, count := 0 }

/-- `enq`: `none` when `end` is no index of the array. -/
def enq (x : ℤ) : Option Queue :=
  if h : 0 ≤ q.stop ∧ q.stop < QMAX then
    some { q with
      arr := update q.arr ⟨q.stop.toNat, by omega⟩ x
      stop := (q.stop + 1).tmod QMAX
      count := q.count + 1 }
  else none

/-- `deq`: `none` when `start` is no index of the array. -/
def deq : Option (ℤ × Queue) :=
  if h : 0 ≤ q.start ∧ q.start < QMAX then
    some (q.arr ⟨q.start.toNat, by omega⟩,
      { q with start := (q.start + 1).tmod QMAX, count := q.count - 1 })
  else none

def qisfull : Bool := q.count = UInt32.ofNat QMAX

def qisempty : Bool := q.count = 0

end Queue

/-- A call. -/
inductive Op
  | enq (x : ℤ)
  | deq
  deriving DecidableEq

/-- One call; the second component is what the calls of `deq` have returned. -/
def step (s : Queue × List ℤ) : Op → Option (Queue × List ℤ)
  | .enq x => (s.1.enq x).map fun q => (q, s.2)
  | .deq => s.1.deq.map fun y => (y.2, s.2 ++ [y.1])

/-- A sequence of calls. -/
def run (q : Queue) (ops : List Op) : Option (Queue × List ℤ) := ops.foldlM step (q, [])

/-- The values of the calls of `enq`. -/
def enqueued (ops : List Op) : List ℤ :=
  ops.filterMap fun
    | .enq x => some x
    | .deq => none

/-- The number of calls of `deq`. -/
def dequeued (ops : List Op) : ℕ := ops.count .deq

/-- The number of elements is never negative and never exceeds `QMAX`. -/
def Fits (ops : List Op) : Prop :=
  ∀ l, l <+: ops → dequeued l ≤ (enqueued l).length ∧ (enqueued l).length ≤ dequeued l + QMAX

/-- The queue holds the elements `xs` from the index `i` on, the first one first. -/
structure Holds (q : Queue) (i : ℕ) (xs : List ℤ) : Prop where
  le : xs.length ≤ QMAX
  start_lt : i < QMAX
  start : q.start = i
  stop : q.stop = ((i + xs.length) % QMAX : ℕ)
  count : q.count.toNat = xs.length
  elements : Circular.segment q.arr i xs.length = xs

section

variable {q : Queue} {xs : List ℤ} {x : ℤ} {i : ℕ}

theorem tmod_succ (m : ℕ) : ((m : ℤ) + 1).tmod QMAX = ((m + 1) % QMAX : ℕ) := rfl

theorem natCast_bounds {m : ℕ} (h : m < QMAX) : (0 : ℤ) ≤ m ∧ (m : ℤ) < QMAX :=
  ⟨Int.natCast_nonneg m, Int.ofNat_lt.mpr h⟩

theorem Holds.stop_bounds (h : Holds q i xs) : 0 ≤ q.stop ∧ q.stop < QMAX := by
  rw [h.stop]
  exact natCast_bounds (Nat.mod_lt _ (by decide))

theorem holds_qinit (q : Queue) : Holds q.qinit 0 [] :=
  ⟨Nat.zero_le _, by decide, rfl, rfl, rfl, rfl⟩

theorem Holds.enq (h : Holds q i xs) (hroom : xs.length < QMAX) (x : ℤ) :
    ∃ q', q.enq x = some q' ∧ Holds q' i (xs ++ [x]) := by
  have hstop := h.stop_bounds
  have hcell : (⟨q.stop.toNat, by omega⟩ : Fin QMAX) = Circular.cell QMAX (i + xs.length) := by
    refine Fin.ext ?_
    simp only [h.stop, Int.toNat_natCast]
    rfl
  have hlength : (xs ++ [x]).length = xs.length + 1 := by simp
  refine ⟨_, dif_pos hstop, ?_⟩
  rw [hcell]
  refine ⟨hlength ▸ hroom, h.start_lt, h.start, ?_, ?_, ?_⟩
  · dsimp only
    rw [h.stop, tmod_succ, hlength, Nat.mod_add_mod, Nat.add_assoc]
  · have hone : (1 : UInt32).toNat = 1 := rfl
    have hq : QMAX = 100 := rfl
    dsimp only
    rw [UInt32.toNat_add, h.count, hone, hlength]
    omega
  · have hput : update q.arr (Circular.cell QMAX (i + xs.length)) x =
        Circular.put q.arr (i + xs.length) [x] := rfl
    dsimp only
    rw [hput, List.length_append, Circular.segment_put hroom, h.elements]

theorem Holds.deq (h : Holds q i (x :: xs)) :
    ∃ q', q.deq = some (x, q') ∧ Holds q' ((i + 1) % QMAX) xs := by
  have hstart : 0 ≤ q.start ∧ q.start < QMAX := by
    rw [h.start]
    exact natCast_bounds h.start_lt
  have hcell : (⟨q.start.toNat, by omega⟩ : Fin QMAX) = Circular.cell QMAX i := by
    refine Fin.ext ?_
    simp only [h.start, Int.toNat_natCast]
    exact (Nat.mod_eq_of_lt h.start_lt).symm
  have hcount := h.count
  have helements := h.elements
  rw [List.length_cons] at hcount helements
  rw [Circular.segment, List.cons.injEq] at helements
  refine ⟨{ q with start := (q.start + 1).tmod QMAX, count := q.count - 1 }, ?_, ?_⟩
  · rw [Queue.deq, dif_pos hstart, hcell, helements.1]
  refine ⟨(Nat.le_succ _).trans h.le, Nat.mod_lt _ (by decide), ?_, ?_, ?_, ?_⟩
  · dsimp only
    rw [h.start, tmod_succ]
  · dsimp only
    rw [h.stop, List.length_cons, Nat.mod_add_mod, Nat.add_right_comm, Nat.add_assoc]
  · have hone : (1 : UInt32).toNat = 1 := rfl
    have hle : (1 : UInt32) ≤ q.count := by
      rw [UInt32.le_iff_toNat_le, hcount, hone]
      omega
    dsimp only
    rw [UInt32.toNat_sub_of_le _ _ hle, hcount, hone, Nat.add_sub_cancel]
  · dsimp only
    rw [Circular.segment_congr (Nat.mod_mod _ _)]
    exact helements.2

end

section

variable {ops : List Op} {op : Op}

theorem enqueued_append (l l' : List Op) : enqueued (l ++ l') = enqueued l ++ enqueued l' :=
  List.filterMap_append ..

theorem Fits.init (h : Fits (ops ++ [op])) : Fits ops := fun l hl =>
  h l (hl.trans (List.prefix_append ops [op]))

theorem run_holds (q : Queue) (h : Fits ops) : ∃ q' out i xs, run q.qinit ops = some (q', out) ∧
    Holds q' i xs ∧ enqueued ops = out ++ xs ∧ out.length = dequeued ops := by
  induction ops using List.reverseRecOn with
  | nil => exact ⟨q.qinit, [], 0, [], rfl, holds_qinit q, rfl, rfl⟩
  | append_singleton ops op ih =>
    obtain ⟨q', out, i, xs, hrun, hholds, hsplit, hout⟩ := ih h.init
    have hfits := h _ List.prefix_rfl
    have hstep : run q.qinit (ops ++ [op]) = step (q', out) op := by
      rw [run, List.foldlM_append]
      rw [run] at hrun
      rw [hrun]
      simp
    rw [hstep, enqueued_append, hsplit]
    rw [enqueued_append, hsplit] at hfits
    cases op with
    | enq x =>
      have hroom : xs.length < QMAX := by
        simp [enqueued, dequeued] at hfits hout
        omega
      obtain ⟨q'', henq, hholds'⟩ := hholds.enq hroom x
      refine ⟨q'', out, i, xs ++ [x], ?_, hholds', ?_, ?_⟩
      · simp [step, henq]
      · simp [enqueued]
      · simp [dequeued] at hout ⊢
        exact hout
    | deq =>
      cases xs with
      | nil =>
        simp [enqueued, dequeued] at hfits hout
        omega
      | cons x xs =>
        obtain ⟨q'', hdeq, hholds'⟩ := hholds.deq
        refine ⟨q'', out ++ [x], _, xs, ?_, hholds', ?_, ?_⟩
        · simp [step, hdeq]
        · simp [enqueued]
        · simp [dequeued] at hout ⊢
          exact hout

/-- **The queue is first in, first out.** For every sequence of calls in which the number of
elements stays between zero and `QMAX`: no call leaves the array, `deq` has returned the enqueued
values in their order, and the fields are exact. -/
theorem queue_fifo (q : Queue) (h : Fits ops) : ∃ q' out, run q.qinit ops = some (q', out) ∧
    out = (enqueued ops).take (dequeued ops) ∧
    (q'.count.toNat : ℤ) = (enqueued ops).length - dequeued ops ∧
    (0 ≤ q'.start ∧ q'.start < QMAX) ∧ (0 ≤ q'.stop ∧ q'.stop < QMAX) ∧
    (q'.qisempty = true ↔ (enqueued ops).length = dequeued ops) ∧
    (q'.qisfull = true ↔ (enqueued ops).length = dequeued ops + QMAX) := by
  obtain ⟨q', out, i, xs, hrun, hholds, hsplit, hout⟩ := run_holds q h
  have hcount := hholds.count
  have hle := hholds.le
  have hlength : (enqueued ops).length = dequeued ops + xs.length := by
    rw [hsplit, List.length_append, hout]
  have hstart : 0 ≤ q'.start ∧ q'.start < QMAX := by
    rw [hholds.start]
    exact natCast_bounds hholds.start_lt
  refine ⟨q', out, hrun, ?_, by omega, hstart, hholds.stop_bounds, ?_, ?_⟩
  · rw [hsplit, ← hout, List.take_left]
  · have hzero : (0 : UInt32).toNat = 0 := rfl
    rw [Queue.qisempty, decide_eq_true_iff, ← UInt32.toNat_inj, hcount, hzero]
    omega
  · have hmax : (UInt32.ofNat QMAX).toNat = QMAX := rfl
    rw [Queue.qisfull, decide_eq_true_iff, ← UInt32.toNat_inj, hcount, hmax]
    omega

/-- Two numbers go in, and the first one comes out. -/
theorem queue_fifo_two : ∃ q' out, run (Queue.mk (fun _ => 7) 3 5 1).qinit [.enq 4, .enq 9, .deq] =
    some (q', out) ∧ out = [4] := by
  have hfits : Fits [.enq 4, .enq 9, .deq] := by
    intro l hl
    have hmem := (List.mem_inits _ _).mpr hl
    simp only [List.inits, List.map_cons, List.map_nil, List.mem_cons, List.not_mem_nil,
      or_false] at hmem
    rcases hmem with rfl | rfl | rfl | rfl <;> decide
  obtain ⟨q', out, hrun, hout, -⟩ := queue_fifo (Queue.mk (fun _ => 7) 3 5 1) hfits
  exact ⟨q', out, hrun, hout⟩

end

end KThreads.IntQueue
