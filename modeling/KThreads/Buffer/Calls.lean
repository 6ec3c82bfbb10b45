import KThreads.Lib.Ring
import KThreads.Log.Calls

/-!
# The buffer cache

`bread`, `bwrite` and `brelse` of any number of threads, and what `log_write` does to a
buffer. A step is a section under `bcache.lock`, a section of a sleep lock, or a transfer
by the disk. A thread that has locked a buffer may change it; it calls `log_write` or
`bwrite` before it gives the buffer back.
-/

namespace KThreads.Bcache

open Function (update)
open Log (Data NBUF)

/-- The size of the file system in blocks. -/
def FSSIZE : ℕ := 1000

/-- The device of the root file system. -/
def ROOTDEV : ℕ := 1

abbrev Buf := Fin NBUF

/-- A pointer to a buffer; `none` is `&bcache.head`. -/
abbrev Ptr := Option Buf

/-- `struct buf` without its pointers. -/
structure Buffer (τ : Type*) where
  /-- `B_VALID` -/
  valid : Bool
  /-- `B_DIRTY` -/
  dirty : Bool
  dev : ℕ
  blockno : ℕ
  /-- The thread that has the sleep lock. -/
  lock : Option τ
  refcnt : ℕ
  data : Data

/-- Where a thread is. In `bread` it knows the buffer, the device and the block. -/
inductive Pc
  | user
  /-- In `acquiresleep` of `bget` -/
  | lock (b : Buf) (dev blockno : ℕ)
  /-- Behind `bget` in `bread` -/
  | test (b : Buf) (dev blockno : ℕ)
  /-- In `iderw` of `bread` -/
  | fill (b : Buf) (dev blockno : ℕ)
  /-- In `iderw` of `bwrite` -/
  | write (b : Buf)
  /-- Behind `releasesleep` in `brelse` -/
  | unref (b : Buf)
  deriving DecidableEq

/-- The buffers, their ring, the disk and the threads. `latest` and `changed` are history. -/
structure State (τ : Type*) where
  buf : Buf → Buffer τ
  links : Links Ptr
  disk : ℕ → ℕ → Data
  panicked : Bool
  pc : τ → Pc
  /-- What was last written to a block with `log_write` or `bwrite`. -/
  latest : ℕ → ℕ → Data
  /-- The data of a buffer has been changed and not been written yet. -/
  changed : Buf → Bool

inductive Label (τ : Type*)
  | bread (t : τ) (dev blockno : ℕ)
  | modify (t : τ) (b : Buf) (d : Data)
  | logWrite (t : τ) (b : Buf)
  | bwrite (t : τ) (b : Buf)
  | brelse (t : τ) (b : Buf)
  /-- The thread goes on with its call. -/
  | step (t : τ)

/-- The ring that `binit` makes. -/
def binit : Links Ptr :=
  (List.finRange NBUF).foldl (fun l b => l.push none (some b)) ⟨fun _ => none, fun _ => none⟩

variable {τ : Type*} [DecidableEq τ]

namespace State

variable (s : State τ) (t : τ) (b : Buf)

def goto (c : Pc) : State τ := { s with pc := update s.pc t c }

omit [DecidableEq τ] in
def set (q : Buffer τ) : State τ := { s with buf := update s.buf b q }

omit [DecidableEq τ] in
def panic : State τ := { s with panicked := true }

omit [DecidableEq τ] in
/-- A buffer for the block is in the cache. -/
def holds (dev blockno : ℕ) (b : Buf) : Bool :=
  decide ((s.buf b).dev = dev) && decide ((s.buf b).blockno = blockno)

omit [DecidableEq τ] in
/-- A buffer may be used for another block. -/
def unused (b : Buf) : Bool := decide ((s.buf b).refcnt = 0) && !(s.buf b).dirty

omit [DecidableEq τ] in
/-- The loop of `bget` for a buffer with the block. -/
def findCached (dev blockno : ℕ) : Option (Option Ptr) :=
  Links.scan s.links.next none (fun p => p.any (s.holds dev blockno)) (NBUF + 1) (s.links.next none)

omit [DecidableEq τ] in
/-- The loop of `bget` for a buffer to recycle. -/
def findUnused : Option (Option Ptr) :=
  Links.scan s.links.prev none (fun p => p.any s.unused) (NBUF + 1) (s.links.prev none)

/-- The section of `bget`. It has no next state if one of the loops does not end. -/
def bget (dev blockno : ℕ) : Option (State τ) :=
  match s.findCached dev blockno with
  | some (some (some b)) =>
      some ((s.set b { s.buf b with refcnt := (s.buf b).refcnt + 1 }).goto t (.lock b dev blockno))
  | some none =>
      match s.findUnused with
      | some (some (some b)) =>
          some ((s.set b { s.buf b with
            valid := false, dirty := false, dev, blockno, refcnt := 1 }).goto t (.lock b dev blockno))
      | some none => some s.panic
      | _ => none
  | _ => none

omit [DecidableEq τ] in
/-- What the disk does for `iderw`: a buffer that is dirty is written, another one is read. -/
def iderw : State τ :=
  let q := s.buf b
  { s.set b (if q.dirty then { q with valid := true, dirty := false }
      else { q with valid := true, data := s.disk q.dev q.blockno }) with
    disk := if q.dirty then update s.disk q.dev (update (s.disk q.dev) q.blockno q.data) else s.disk }

/-- The last section of `brelse`: a buffer that nobody waits for goes to the front. -/
def unref : State τ :=
  let n := (s.buf b).refcnt - 1
  { s.set b { s.buf b with refcnt := n } with
    links := if n = 0 then (s.links.unlink (some b)).push none (some b) else s.links }.goto t .user

/-- A thread goes on with its call. -/
def step : Pc → Option (State τ)
  | .user => none
  | .lock b dev blockno =>
      if (s.buf b).lock = none then
        some ((s.set b { s.buf b with lock := some t }).goto t (.test b dev blockno))
      else none
  | .test b dev blockno =>
      some (s.goto t (if (s.buf b).valid then .user else .fill b dev blockno))
  | .fill b _ _ | .write b =>
      -- `iderw` has nothing to do, or `idestart` does not know the block.
      some (if (s.buf b).valid && !(s.buf b).dirty ∨ FSSIZE ≤ (s.buf b).blockno then s.panic
        else (s.iderw b).goto t .user)
  | .unref b => some (s.unref t b)

omit [DecidableEq τ] in
/-- The contents of a buffer count as written. -/
def commit : State τ :=
  let q := s.buf b
  { s.set b { q with dirty := true } with
    latest := update s.latest q.dev (update (s.latest q.dev) q.blockno q.data)
    changed := update s.changed b false }

/-- One step, `none` when the label is not enabled. -/
def next : Label τ → Option (State τ)
  | .bread t dev blockno =>
      if s.panicked = false ∧ s.pc t = .user then s.bget t dev blockno else none
  | .modify t b d =>
      if s.panicked = false ∧ s.pc t = .user ∧ (s.buf b).lock = some t then
        some { s.set b { s.buf b with data := d } with changed := update s.changed b true }
      else none
  | .logWrite t b =>
      if s.panicked = false ∧ s.pc t = .user ∧ (s.buf b).lock = some t then some (s.commit b)
      else none
  | .bwrite t b =>
      if s.panicked = false ∧ s.pc t = .user then
        some (if (s.buf b).lock = some t then (s.commit b).goto t (.write b) else s.panic)
      else none
  | .brelse t b =>
      if s.panicked = false ∧ s.pc t = .user ∧ s.changed b = false then
        some (if (s.buf b).lock = some t then
          (s.set b { s.buf b with lock := none }).goto t (.unref b) else s.panic)
      else none
  | .step t => if s.panicked = false then s.step t (s.pc t) else none

omit [DecidableEq τ] in
/-- The cache behind `binit`. -/
def start (disk : ℕ → ℕ → Data) : State τ where
  buf _ := ⟨false, false, 0, 0, none, 0, fun _ => 0⟩
  links := binit
  disk := disk
  panicked := false
  pc _ := .user
  latest := disk
  changed _ := false

end State

/-- The buffer cache as a transition system. -/
def machine (τ : Type*) [DecidableEq τ] (disk : ℕ → ℕ → Data) :
    Transition.System (State τ) (Label τ) where
  init s := s = .start disk
  step s l s' := s.next l = some s'

end KThreads.Bcache
