import KThreads.Lib.Transition

/-!
# Circular buffers and bounded queues

A buffer of `N` cells is read and written at positions that are taken modulo
`N`. The elements from a position on, one after the other and around the end, are
a segment; a buffer that holds a queue keeps it in the segment from its read
position to its write position. Copies of whole blocks within the buffer do what
the loop over single elements does as long as the blocks do not cross the end.
-/

namespace KThreads.Circular

open Function (update)

variable {α : Type*} {N : ℕ} [NeZero N]

/-- The cell of a position. -/
def cell (N : ℕ) [NeZero N] (i : ℕ) : Fin N := Fin.ofNat N i

/-- The `n` elements from position `i` on. -/
def segment (data : Fin N → α) (i : ℕ) : ℕ → List α
  | 0 => []
  | n + 1 => data (cell N i) :: segment data (i + 1) n

/-- Store elements from position `i` on, one at a time. -/
def put (data : Fin N → α) (i : ℕ) : List α → Fin N → α
  | [] => data
  | b :: bs => put (update data (cell N i) b) (i + 1) bs

omit [NeZero N] in
/-- The block of `n` elements at the index `i`. -/
def load (data : Fin N → α) (i n : ℕ) : List α := ((List.ofFn data).drop i).take n

omit [NeZero N] in
/-- Store a block at the index `i`. -/
def store (data : Fin N → α) (i : ℕ) (bs : List α) : Fin N → α :=
  fun j => if i ≤ j then bs[j - i]?.getD (data j) else data j

theorem cell_add_inj {i a b : ℕ} (ha : a < N) (hb : b < N) :
    cell N (i + a) = cell N (i + b) ↔ a = b := by
  constructor
  · intro h
    have hmod : i + a ≡ i + b [MOD N] := congrArg Fin.val h
    exact (Nat.ModEq.add_left_cancel' i hmod).eq_of_lt_of_lt ha hb
  · rintro rfl
    rfl

theorem cell_congr {i j : ℕ} (h : i % N = j % N) : cell N i = cell N j := Fin.ext h

section

variable {data : Fin N → α} {i n : ℕ}

@[simp]
theorem length_segment : (segment data i n).length = n := by
  induction n generalizing i with
  | zero => rfl
  | succ n ih => rw [segment, List.length_cons, ih]

theorem segment_congr {j : ℕ} (h : i % N = j % N) : segment data i n = segment data j n := by
  induction n generalizing i j with
  | zero => rfl
  | succ n ih => rw [segment, segment, cell_congr h, ih (Nat.ModEq.add_right 1 h)]

theorem segment_add (m : ℕ) :
    segment data i (n + m) = segment data i n ++ segment data (i + n) m := by
  induction n generalizing i with
  | zero => simp [segment]
  | succ n ih => rw [Nat.succ_add_eq_add_succ, Nat.add_succ, segment, ih, segment,
      List.cons_append, Nat.succ_add_eq_add_succ]

theorem getElem?_segment (k : ℕ) :
    (segment data i n)[k]? = if k < n then some (data (cell N (i + k))) else none := by
  induction n generalizing i k with
  | zero => simp [segment]
  | succ n ih =>
    cases k with
    | zero => simp [segment]
    | succ k => simp [segment, ih, Nat.add_assoc, Nat.add_comm 1]

theorem segment_eq_of_forall {data' : Fin N → α}
    (h : ∀ k < n, data' (cell N (i + k)) = data (cell N (i + k))) :
    segment data' i n = segment data i n := by
  refine List.ext_getElem? fun k => ?_
  simp only [getElem?_segment]
  split
  · next hk => rw [h k hk]
  · rfl

theorem load_eq_segment (h : i + n ≤ N) : load data i n = segment data i n := by
  refine List.ext_getElem? fun k => ?_
  rw [getElem?_segment, load, List.getElem?_take, List.getElem?_drop]
  split
  · next hk =>
    have hik : i + k < N := by omega
    rw [List.getElem?_ofFn, dif_pos hik]
    exact congrArg (fun j => some (data j)) (Fin.ext (Nat.mod_eq_of_lt hik).symm)
  · rfl

theorem load_append_load {m : ℕ} (hn : i % N + n ≤ N) (hm : m ≤ N)
    (h : m = 0 ∨ i % N + n = N) :
    load data (i % N) n ++ load data 0 m = segment data i (n + m) := by
  rw [load_eq_segment hn, load_eq_segment (by omega), segment_add,
    segment_congr (Nat.mod_mod i N)]
  rcases h with rfl | h
  · rfl
  · refine congrArg _ (segment_congr ?_)
    rw [← Nat.mod_add_mod, h, Nat.mod_self, Nat.zero_mod]

end

section

variable {data : Fin N → α} {i : ℕ} {bs : List α}

theorem put_congr {j : ℕ} (h : i % N = j % N) : put data i bs = put data j bs := by
  induction bs generalizing data i j with
  | nil => rfl
  | cons b bs ih => rw [put, put, cell_congr h, ih (Nat.ModEq.add_right 1 h)]

theorem put_append (cs : List α) :
    put data i (bs ++ cs) = put (put data i bs) (i + bs.length) cs := by
  induction bs generalizing data i with
  | nil => rfl
  | cons b bs ih =>
    rw [List.cons_append, put, ih, put, List.length_cons, Nat.add_right_comm, Nat.add_assoc]

theorem put_of_forall_ne {j : Fin N} (h : ∀ k < bs.length, j ≠ cell N (i + k)) :
    put data i bs j = data j := by
  induction bs generalizing data i with
  | nil => rfl
  | cons b bs ih =>
    rw [put, ih fun k hk => ?_, Function.update_of_ne]
    · exact h 0 (Nat.succ_pos _)
    · have := h (k + 1) (Nat.succ_lt_succ hk)
      rwa [Nat.add_comm k, ← Nat.add_assoc] at this

theorem segment_put_self (h : bs.length ≤ N) : segment (put data i bs) i bs.length = bs := by
  induction bs generalizing data i with
  | nil => rfl
  | cons b bs ih =>
    rw [List.length_cons] at h
    rw [List.length_cons, segment, put, ih (by omega), put_of_forall_ne, Function.update_self]
    intro k hk heq
    have := (cell_add_inj (i := i) (by omega : 0 < N) (by omega : 1 + k < N)).mp
      (by rwa [Nat.add_zero, ← Nat.add_assoc])
    omega

theorem segment_put {n : ℕ} (h : n + bs.length ≤ N) :
    segment (put data (i + n) bs) i (n + bs.length) = segment data i n ++ bs := by
  rw [segment_add, segment_put_self (by omega)]
  refine congrArg (· ++ bs) (segment_eq_of_forall fun k hk => put_of_forall_ne fun m hm => ?_)
  rw [Nat.add_assoc, Ne, cell_add_inj (by omega) (by omega)]
  omega

theorem segment_put_of_le {n : ℕ} (h : n + bs.length ≤ N) :
    segment (put data (i + n) bs) i n = segment data i n := by
  refine segment_eq_of_forall fun k hk => put_of_forall_ne fun m hm => ?_
  rw [Nat.add_assoc, Ne, cell_add_inj (by omega) (by omega)]
  omega

theorem put_segment (n : ℕ) : put data i (segment data i n) = data := by
  induction n generalizing i with
  | zero => rfl
  | succ n ih => rw [segment, put, Function.update_eq_self, ih]

theorem store_eq_put (h : i + bs.length ≤ N) : store data i bs = put data i bs := by
  induction bs generalizing data i with
  | nil =>
    funext j
    simp [store, put]
  | cons b bs ih =>
    rw [List.length_cons] at h
    rw [put, ← ih (by omega)]
    funext j
    have hcell : j = cell N i ↔ (j : ℕ) = i := by
      rw [Fin.ext_iff, cell, Fin.val_ofNat, Nat.mod_eq_of_lt (by omega)]
    rcases lt_trichotomy (j : ℕ) i with hj | hj | hj
    · have hne : j ≠ cell N i := fun heq => by have := hcell.mp heq; omega
      simp [store, hne, not_le.mpr hj, not_le.mpr (Nat.lt_succ_of_lt hj)]
    · rw [hcell.mpr hj]
      simp [store, cell, Nat.mod_eq_of_lt (by omega : i < N)]
    · have hne : j ≠ cell N i := fun heq => by have := hcell.mp heq; omega
      have hsub : (j : ℕ) - i = (j - (i + 1)) + 1 := by omega
      simp [store, hne, hj.le, Nat.succ_le_of_lt hj, hsub]

theorem store_store {cs : List α} (hb : i % N + bs.length ≤ N) (hc : cs.length ≤ N)
    (h : cs = [] ∨ i % N + bs.length = N) :
    store (store data (i % N) bs) 0 cs = put data i (bs ++ cs) := by
  rw [store_eq_put hb, store_eq_put (by omega), put_append, put_congr (Nat.mod_mod i N)]
  rcases h with rfl | h
  · rfl
  · refine put_congr ?_
    rw [← Nat.mod_add_mod, h, Nat.mod_self, Nat.zero_mod]

end

end KThreads.Circular

namespace KThreads

open Transition (System Reach)

/-- A queue, with everything that has been published to it and delivered from it. -/
structure Fifo (α : Type*) where
  queue : List α
  published : List α
  delivered : List α

namespace Fifo

variable {α : Type*}

/-- Elements are published at the end of the queue or delivered from its front. -/
inductive Event (α : Type*)
  | publish (bs : List α)
  | deliver (n : ℕ)

/-- The queue after elements have been published. -/
def publish (q : Fifo α) (bs : List α) : Fifo α :=
  { q with queue := q.queue ++ bs, published := q.published ++ bs }

/-- The queue after `n` elements have been delivered. -/
def deliver (q : Fifo α) (n : ℕ) : Fifo α :=
  { q with queue := q.queue.drop n, delivered := q.delivered ++ q.queue.take n }

/-- The step of a queue of the capacity `cap`. -/
def Step (cap : ℕ) (q : Fifo α) : Event α → Fifo α → Prop
  | .publish bs, q' => q.queue.length + bs.length ≤ cap ∧ q' = q.publish bs
  | .deliver n, q' => n ≤ q.queue.length ∧ q' = q.deliver n

/-- A queue of the capacity `cap` as a transition system. Nothing has been
delivered from it at first. -/
def system (α : Type*) (cap : ℕ) : System (Fifo α) (Event α) where
  init q := q.queue.length ≤ cap ∧ q.published = q.queue ∧ q.delivered = []
  step := Step cap

theorem published_eq {cap : ℕ} {ok : Fifo α → Event α → Prop} {q : Fifo α}
    (h : Reach (system α cap) ok q) :
    q.published = q.delivered ++ q.queue ∧ q.queue.length ≤ cap := by
  refine h.invariant (P := fun q => q.published = q.delivered ++ q.queue ∧ q.queue.length ≤ cap)
    ?_ ?_
  · rintro q ⟨hcap, hpub, hdel⟩
    exact ⟨by simp [hpub, hdel], hcap⟩
  · rintro q l q' - ⟨hpub, hcap⟩ - hstep
    cases l with
    | publish bs =>
      obtain ⟨hle, rfl⟩ := hstep
      exact ⟨by simp [publish, hpub], by simpa [publish] using hle⟩
    | deliver n =>
      obtain ⟨-, rfl⟩ := hstep
      refine ⟨by simp [deliver, hpub], ?_⟩
      simp only [deliver, List.length_drop]
      omega

end Fifo

end KThreads
