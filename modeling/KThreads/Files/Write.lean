import KThreads.Inode.Calls
import KThreads.Lib.Interleaving

/-!
# Writing to a shared file

`filewrite` of any number of threads on one `struct file`, which is open for writing on a
regular file. A step is the part of the loop between two calls; `writei` is one step, since it
runs under the sleep lock of the inode. `begin_op` and `end_op` return at any time: the log
delays a thread only.
-/

namespace KThreads.FileWrite

open Inode (Layout Slot)

/-- `max` -/
def maxBytes : ℕ := (Log.MAXOPBLOCKS - 1 - 1 - 2) / 2 * 512

/-- The file and its inode. `asked`, `pending` and `done` are history. -/
structure Shared (τ : Type*) where
  inode : Inode.State
  /-- `f->off` -/
  off : UInt32
  /-- The thread that has the lock of the inode. -/
  lock : Option τ
  /-- The buffers of all calls. -/
  asked : List (τ × List UInt8)
  /-- Those that were not written yet. -/
  pending : List (τ × List UInt8)
  /-- What was written, in this order. -/
  done : List (τ × List UInt8)

/-- Where a thread is. In `filewrite` it knows the buffer and `i`. -/
inductive Pc
  | user
  /-- At the test of the loop -/
  | loop (buf : List UInt8) (i : ℕ)
  /-- Behind `begin_op` -/
  | begun (buf : List UInt8) (i : ℕ)
  /-- Behind `ilock` -/
  | locked (buf : List UInt8) (i : ℕ)
  /-- In front of `writei`, with the offset that it is called with -/
  | loaded (buf : List UInt8) (i : ℕ) (off : UInt32)
  /-- Behind `writei` -/
  | wrote (buf : List UInt8) (i : ℕ) (r : ℤ)
  /-- In front of `iunlock` -/
  | advanced (buf : List UInt8) (i : ℕ) (r : ℤ)
  /-- In front of `end_op` -/
  | unlocked (buf : List UInt8) (i : ℕ) (r : ℤ)
  | returned (buf : List UInt8) (r : ℤ)
  deriving DecidableEq

/-- What a thread does next. -/
inductive Event
  | filewrite (buf : List UInt8)
  | run
  /-- `writei`; `copies i` says whether the copy number `i` succeeds. -/
  | writei (copies : ℕ → Bool)

/-- `n1` -/
def chunk (buf : List UInt8) (i : ℕ) : ℕ := min (buf.length - i) maxBytes

variable {τ : Type*}

/-- The end of `filewrite` -/
def result (buf : List UInt8) (i : ℕ) : ℤ := if i = buf.length then buf.length else -1

section

variable [DecidableEq τ]

/-- History: a part of a buffer was written. -/
def Shared.settle (s : Shared τ) (t : τ) (buf : List UInt8) (i : ℕ) : Shared τ :=
  { s with
    pending := s.pending.erase (t, buf)
    done := s.done ++ [(t, (buf.drop i).take (chunk buf i))] }

/-- The step of the thread `t`. -/
def act (L : Layout) (e : Slot) (s : Shared τ) (t : τ) : Pc → Event → Option (Shared τ × Pc)
  | .user, .filewrite buf =>
      some ({ s with asked := s.asked ++ [(t, buf)], pending := s.pending ++ [(t, buf)] },
        .loop buf 0)
  | .loop buf i, .run =>
      if i < buf.length then some (s, .begun buf i)
      else some (if buf = [] then s.settle t buf i else s, .returned buf (result buf i))
  | .begun buf i, .run =>
      if s.lock = none then
        (s.inode.ilock e).map fun inode => ({ s with inode, lock := some t }, .locked buf i)
      else none
  | .locked buf i, .run => some (s, .loaded buf i s.off)
  | .loaded buf i off, .writei copies =>
      (s.inode.writei L e (fun k => buf.getD (i + k) 0) off (.ofNat (chunk buf i)) copies 0).map
        fun x => (if 0 < x.2 then { s with inode := x.1 }.settle t buf i else { s with inode := x.1 },
          .wrote buf i x.2)
  | .wrote buf i r, .run =>
      some (if 0 < r then { s with off := s.off + .ofNat r.toNat } else s, .advanced buf i r)
  | .advanced buf i r, .run =>
      if s.lock = some t then some ({ s with lock := none }, .unlocked buf i r) else none
  | .unlocked buf i r, .run =>
      if r < 0 then some (s, .returned buf (result buf i))
      -- `panic("short filewrite")`
      else if r ≠ chunk buf i then none
      else some (s, .loop buf (i + r.toNat))
  | .returned _ _, .run => some (s, .user)
  | _, _ => none

end

/-- The threads that share a file. -/
abbrev Threads (τ : Type*) := Interleaving.Config τ (Shared τ) Pc

/-- The file before the first call. -/
def Shared.start (inode : Inode.State) (off : UInt32) : Shared τ := ⟨inode, off, none, [], [], []⟩

/-- The threads as a transition system. -/
abbrev sharing [DecidableEq τ] (L : Layout) (e : Slot) (inode : Inode.State) (off : UInt32) :
    Transition.System (Threads τ) (τ × Event) :=
  Interleaving.system (fun c => c = ⟨.start inode off, fun _ => .user⟩) (act L e)

end KThreads.FileWrite
