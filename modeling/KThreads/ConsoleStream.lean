import KThreads.Basic
import KThreads.Lib.Circular

/-!
# The input of the console

The three indices delimit, in the circular buffer, the committed bytes that were not read
yet and behind them the line that is edited. So the handler refines an editor that works on
lists, and the calls of `consoleread` return what was committed, one byte after the other;
a call returns nothing for a control-D.
-/

namespace KThreads.Console

open Function (update)
open Circular (cell)

/-- The size of the buffer. -/
def INPUT_BUF : ℕ := 128

instance : NeZero INPUT_BUF := ⟨by decide⟩

/-- `C(x)`: control and the key -/
def C (x : Char) : UInt8 := (x.toNat - '@'.toNat).toUInt8

/-- `'\n'` -/
def newline : UInt8 := '\n'.toNat.toUInt8

/-- `input` -/
structure Input where
  buf : Fin INPUT_BUF → UInt8
  r : ℕ
  w : ℕ
  e : ℕ

namespace Input

variable (i : Input)

/-- `input.e--` -/
def erase : Input := { i with e := toUint ((i.e : ℤ) - 1) }

/-- `input.buf[input.e++ % INPUT_BUF] = c` -/
def push (c : UInt8) : Input :=
  { i with buf := update i.buf (cell INPUT_BUF i.e) c, e := toUint ((i.e : ℤ) + 1) }

/-- The loop of the key `C('U')`, at most `n` times. -/
def killLine : ℕ → Input → Input
  | 0, i => i
  | n + 1, i =>
    if i.e ≠ i.w ∧ i.buf (cell INPUT_BUF (toUint ((i.e : ℤ) - 1))) ≠ newline then
      killLine n i.erase
    else i

/-- One round of the loop of `consoleintr`, and whether it calls `wakeup`. -/
def key (c : UInt8) : Input × Bool :=
  if c = C 'P' then (i, false)
  else if c = C 'U' then (killLine (toUint ((i.e : ℤ) - i.w)) i, false)
  else if c = C 'H' ∨ c = 0x7f then (if i.e ≠ i.w then i.erase else i, false)
  else if c ≠ 0 ∧ toUint ((i.e : ℤ) - i.r) < INPUT_BUF then
    let c := if c = '\r'.toNat.toUInt8 then newline else c
    let i := i.push c
    if c = newline ∨ c = C 'D' ∨ i.e = toUint ((i.r : ℤ) + INPUT_BUF) then
      ({ i with w := i.e }, true)
    else (i, false)
  else (i, false)

/-- The loop of `consoleread`, with `n` bytes still to read and those that it has stored. It
ends, or goes to sleep with some bytes still to read. -/
def read (target : ℕ) : ℕ → Input → List UInt8 → Input × List UInt8 × Option ℕ
  | 0, i, got => (i, got, none)
  | n + 1, i, got =>
    if i.r = i.w then (i, got, some (n + 1))
    else
      let c := i.buf (cell INPUT_BUF i.r)
      let i' := { i with r := toUint ((i.r : ℤ) + 1) }
      if c = C 'D' then
        -- `^D` is kept for the next call if this one has read something.
        if n + 1 < target then ({ i' with r := toUint ((i'.r : ℤ) - 1) }, got, none)
        else (i', got, none)
      else if c = newline then (i', got ++ [c], none)
      else read target n i' (got ++ [c])

end Input

/-- What the keys have made of the input: the bytes that were committed, the number of them
that were taken by the reader, and the line that is still edited. -/
structure Editor where
  committed : List UInt8
  taken : ℕ
  line : List UInt8

namespace Editor

variable (ed : Editor)

/-- The committed bytes that were not read yet. -/
def unread : List UInt8 := ed.committed.drop ed.taken

/-- The line is committed. -/
def commit : Editor := { ed with committed := ed.committed ++ ed.line, line := [] }

/-- A key edits the line. There is room for as many bytes as the buffer has. -/
def key (c : UInt8) : Editor :=
  if c = C 'P' then ed
  else if c = C 'U' then { ed with line := [] }
  else if c = C 'H' ∨ c = 0x7f then { ed with line := ed.line.dropLast }
  else if c ≠ 0 ∧ ed.unread.length + ed.line.length < INPUT_BUF then
    let c := if c = '\r'.toNat.toUInt8 then newline else c
    let ed := { ed with line := ed.line ++ [c] }
    if c = newline ∨ c = C 'D' ∨ ed.unread.length + ed.line.length = INPUT_BUF then ed.commit
    else ed
  else ed

end Editor

/-- Where the reader is. In `consoleread` it knows how many bytes are to be read, how many were
asked for, and those that it has stored. -/
inductive Pc
  | user
  | asleep (n target : ℕ) (got : List UInt8)
  | woken (n target : ℕ) (got : List UInt8)
  deriving DecidableEq

/-- `wakeup(&input.r)` -/
def Pc.wakeup : Pc → Pc
  | .asleep n target got => .woken n target got
  | c => c

/-- The bytes that a call of `consoleread` in progress has stored. -/
def Pc.got : Pc → List UInt8
  | .user => []
  | .asleep _ _ got | .woken _ _ got => got

/-- The console and its reader. `editor` and `reads` are history. -/
structure State where
  input : Input
  pc : Pc
  editor : Editor
  /-- What the calls of `consoleread` have returned. -/
  reads : List (List UInt8)

inductive Label
  /-- `consoleintr`, with the bytes that `getc` returns. -/
  | intr (cs : List UInt8)
  /-- `consoleread`, for `n` bytes. -/
  | read (n : ℕ)
  /-- The reader goes on behind `sleep`. -/
  | run
  /-- The reader is woken by `unpark`. -/
  | rouse

namespace State

variable (s : State)

/-- One round of the loop of `consoleintr` -/
def key (c : UInt8) : State :=
  let (input, wake) := s.input.key c
  { s with input, editor := s.editor.key c, pc := if wake then s.pc.wakeup else s.pc }

/-- The loop of `consoleread` -/
def loop (n target : ℕ) (got : List UInt8) : State :=
  let (input, got, left) := Input.read target n s.input got
  let editor := { s.editor with taken := s.editor.taken + toUint ((input.r : ℤ) - s.input.r) }
  match left with
  | none => { s with input, editor, pc := .user, reads := s.reads ++ [got] }
  | some n => { s with input, editor, pc := .asleep n target got }

def next : Label → Option State
  | .intr cs => some (cs.foldl key s)
  | .read n => if s.pc = .user ∧ 0 < n then some (s.loop n n []) else none
  | .run =>
    match s.pc with
    | .woken n target got => some (s.loop n target got)
    | _ => none
  | .rouse => some { s with pc := s.pc.wakeup }

end State

/-- Nothing was typed, and nothing is in the buffer. -/
def boot (buf : Fin INPUT_BUF → UInt8) : State :=
  ⟨⟨buf, 0, 0, 0⟩, .user, ⟨[], 0, []⟩, []⟩

/-- The console as a transition system. -/
def machine : Transition.System State Label where
  init s := ∃ buf, s = boot buf
  step s l s' := s.next l = some s'

theorem machine_step (s : State) (l : Label) (s' : State) (h : s.next l = some s') :
    machine.step s l s' := h

open Circular (cell segment)
open Transition (Reach anyStep)

/-- The unread bytes and the line are in the buffer, between the indices. -/
structure Input.Holds (i : Input) (unread line : List UInt8) : Prop where
  r_lt : i.r < 4294967296
  w_eq : i.w = (i.r + unread.length) % 4294967296
  e_eq : i.e = (i.r + (unread.length + line.length)) % 4294967296
  room : unread.length + line.length ≤ INPUT_BUF
  bytes : segment i.buf i.r (unread.length + line.length) = unread ++ line

namespace Input.Holds

variable {i : Input} {unread line : List UInt8} {c : UInt8}

theorem toUint_unread (h : i.Holds unread line) : toUint ((i.w : ℤ) - i.r) = unread.length := by
  obtain ⟨hr, hw, -, hroom, -⟩ := h
  simp only [toUint, INPUT_BUF] at *
  omega

theorem toUint_pending (h : i.Holds unread line) :
    toUint ((i.e : ℤ) - i.r) = unread.length + line.length := by
  obtain ⟨hr, -, he, hroom, -⟩ := h
  simp only [toUint, INPUT_BUF] at *
  omega

theorem toUint_line (h : i.Holds unread line) : toUint ((i.e : ℤ) - i.w) = line.length := by
  obtain ⟨hr, hw, he, hroom, -⟩ := h
  simp only [toUint, INPUT_BUF] at *
  omega

theorem e_eq_w_iff (h : i.Holds unread line) : i.e = i.w ↔ line = [] := by
  obtain ⟨hr, hw, he, hroom, -⟩ := h
  rw [← List.length_eq_zero_iff]
  simp only [INPUT_BUF] at hroom
  omega

theorem r_eq_w_iff (h : i.Holds unread line) : i.r = i.w ↔ unread = [] := by
  obtain ⟨hr, hw, -, hroom, -⟩ := h
  rw [← List.length_eq_zero_iff]
  simp only [INPUT_BUF] at hroom
  omega

theorem full_iff (h : i.Holds unread line) :
    i.e = toUint ((i.r : ℤ) + INPUT_BUF) ↔ unread.length + line.length = INPUT_BUF := by
  obtain ⟨hr, -, he, hroom, -⟩ := h
  simp only [toUint, INPUT_BUF] at *
  omega

theorem cell_index {n : ℕ} : cell INPUT_BUF (n % 4294967296) = cell INPUT_BUF n := by
  refine Circular.cell_congr ?_
  simp only [INPUT_BUF]
  omega

theorem push (h : i.Holds unread line) (hroom : unread.length + line.length < INPUT_BUF) :
    (i.push c).Holds unread (line ++ [c]) where
  r_lt := h.r_lt
  w_eq := h.w_eq
  e_eq := by
    have he := h.e_eq
    simp only [Input.push, toUint, List.length_append, List.length_singleton]
    omega
  room := by
    rw [List.length_append, List.length_singleton]
    omega
  bytes := by
    have hput : segment (Circular.put i.buf (i.r + (unread.length + line.length)) [c]) i.r
        (unread.length + line.length + [c].length) =
        segment i.buf i.r (unread.length + line.length) ++ [c] :=
      Circular.segment_put (Nat.succ_le_of_lt hroom)
    rw [h.bytes, List.append_assoc, Nat.add_assoc] at hput
    simp only [Input.push, h.e_eq, cell_index, List.length_append]
    exact hput

theorem erase (h : i.Holds unread (line ++ [c])) : i.erase.Holds unread line where
  r_lt := h.r_lt
  w_eq := h.w_eq
  e_eq := by
    have he := h.e_eq
    simp only [List.length_append, List.length_singleton] at he
    simp only [Input.erase, toUint]
    omega
  room := by
    have hroom := h.room
    rw [List.length_append, List.length_singleton] at hroom
    omega
  bytes := by
    have hbytes := h.bytes
    rw [List.length_append, ← Nat.add_assoc, Circular.segment_add, ← List.append_assoc] at hbytes
    exact (List.append_inj' hbytes (by simp)).1

theorem last (h : i.Holds unread (line ++ [c])) :
    i.buf (cell INPUT_BUF (toUint ((i.e : ℤ) - 1))) = c := by
  have hbytes := h.bytes
  rw [List.length_append, ← Nat.add_assoc, Circular.segment_add, ← List.append_assoc] at hbytes
  have hlast := (List.append_inj' hbytes (by simp)).2
  have hindex : toUint ((i.e : ℤ) - 1) = (i.r + (unread.length + line.length)) % 4294967296 := by
    have he := h.e_eq
    simp only [List.length_append, List.length_singleton] at he
    simp only [toUint]
    omega
  rw [hindex, cell_index]
  exact List.head_eq_of_cons_eq hlast

theorem killLine (h : i.Holds unread line) (hplain : newline ∉ line) :
    (Input.killLine line.length i).Holds unread [] := by
  induction line using List.reverseRecOn generalizing i with
  | nil => exact h
  | append_singleton line c ih =>
    have hne : i.e ≠ i.w := fun heq => by simpa using h.e_eq_w_iff.mp heq
    have hc : c ≠ newline := fun heq => hplain (by simp [heq])
    rw [List.length_append, List.length_singleton, Input.killLine, h.last, if_pos ⟨hne, hc⟩]
    exact ih h.erase fun hmem => hplain (List.mem_append_left _ hmem)

theorem commit (h : i.Holds unread line) : ({ i with w := i.e } : Input).Holds (unread ++ line) [] where
  r_lt := h.r_lt
  w_eq := by
    rw [List.length_append]
    exact h.e_eq
  e_eq := by
    rw [List.length_append]
    exact h.e_eq
  room := by
    rw [List.length_append]
    exact h.room
  bytes := by
    rw [List.length_append, List.append_nil]
    exact h.bytes

theorem take (h : i.Holds (c :: unread) line) : i.buf (cell INPUT_BUF i.r) = c ∧
    ({ i with r := toUint ((i.r : ℤ) + 1) } : Input).Holds unread line := by
  obtain ⟨hr, hw, he, hroom, hbytes⟩ := h
  simp only [List.length_cons] at hw he hroom hbytes
  rw [Nat.add_right_comm, Circular.segment, List.cons_append] at hbytes
  obtain ⟨hfirst, hrest⟩ := List.cons_eq_cons.mp hbytes
  refine ⟨hfirst, ?_, ?_, ?_, by omega, ?_⟩
  · simp only [toUint]
    omega
  · simp only [toUint]
    omega
  · simp only [toUint]
    omega
  · rw [← hrest]
    refine Circular.segment_congr ?_
    simp only [toUint, INPUT_BUF]
    omega

end Input.Holds

/-- What a call of `consoleread` stands for: no byte at all is a control-D. -/
def shown (l : List UInt8) : List UInt8 := if l = [] then [C 'D'] else l

/-- The buffer and what it stands for. -/
structure Editor.Shows (ed : Editor) (i : Input) : Prop where
  holds : i.Holds ed.unread ed.line
  plain : newline ∉ ed.line
  taken_le : ed.taken ≤ ed.committed.length

section

variable {ed : Editor} {i : Input} {c : UInt8}

theorem Editor.unread_commit (h : ed.taken ≤ ed.committed.length) :
    ed.commit.unread = ed.unread ++ ed.line :=
  List.drop_append_of_le_length h

theorem Editor.committed_prefix_key : ed.committed <+: (ed.key c).committed := by
  unfold Editor.key
  dsimp only
  split_ifs
  all_goals first | exact List.prefix_rfl | exact List.prefix_append _ _

theorem Editor.taken_key : (ed.key c).taken = ed.taken := by
  unfold Editor.key
  dsimp only
  split_ifs <;> rfl

theorem Editor.Shows.key (h : ed.Shows i) : (ed.key c).Shows (i.key c).1 ∧
    ((i.key c).2 = false → (ed.key c).unread = ed.unread) := by
  obtain ⟨hholds, hplain, htaken⟩ := h
  unfold Editor.key Input.key
  by_cases hP : c = C 'P'
  · simp only [if_pos hP]
    exact ⟨⟨hholds, hplain, htaken⟩, fun _ => trivial⟩
  simp only [if_neg hP]
  by_cases hU : c = C 'U'
  · simp only [if_pos hU, hholds.toUint_line]
    exact ⟨⟨hholds.killLine hplain, by simp, htaken⟩, fun _ => rfl⟩
  simp only [if_neg hU]
  by_cases hH : c = C 'H' ∨ c = 0x7f
  · simp only [if_pos hH]
    refine ⟨?_, fun _ => rfl⟩
    rcases List.eq_nil_or_concat ed.line with hnil | ⟨l, x, hl⟩
    · rw [if_neg (not_not.mpr (hholds.e_eq_w_iff.mpr hnil))]
      refine ⟨?_, by simp [hnil], htaken⟩
      rw [hnil] at hholds ⊢
      exact hholds
    · rw [List.concat_eq_append] at hl
      have hne : i.e ≠ i.w := fun heq => by simpa [hl] using hholds.e_eq_w_iff.mp heq
      rw [if_pos hne]
      rw [hl] at hholds hplain
      refine ⟨?_, ?_, htaken⟩
      · simpa [hl, Editor.unread] using hholds.erase
      · simp only [hl, List.dropLast_concat]
        exact fun hmem => hplain (List.mem_append_left _ hmem)
  simp only [if_neg hH, hholds.toUint_pending]
  by_cases hroom : c ≠ 0 ∧ ed.unread.length + ed.line.length < INPUT_BUF
  · simp only [if_pos hroom]
    generalize (if c = '\r'.toNat.toUInt8 then newline else c) = x
    have hpush : (i.push x).Holds ed.unread (ed.line ++ [x]) := hholds.push hroom.2
    have hunread : ({ ed with line := ed.line ++ [x] } : Editor).unread = ed.unread := rfl
    simp only [hpush.full_iff, hunread]
    by_cases hend : x = newline ∨ x = C 'D' ∨
        ed.unread.length + (ed.line ++ [x]).length = INPUT_BUF
    · simp only [if_pos hend]
      refine ⟨⟨?_, by simp [Editor.commit], ?_⟩, by simp⟩
      · rw [Editor.unread_commit (by exact htaken), hunread]
        exact hpush.commit
      · simp only [Editor.commit, List.length_append]
        omega
    · simp only [if_neg hend]
      refine ⟨⟨hpush, ?_, htaken⟩, fun _ => rfl⟩
      have hx : newline ≠ x := fun heq => hend (.inl heq.symm)
      simpa [hplain] using hx
  · simp only [if_neg hroom]
    exact ⟨⟨hholds, hplain, htaken⟩, fun _ => trivial⟩

end

/-- What the loop of `consoleread` does: it takes `k` bytes, and what it has stored shows
them. It goes to sleep when there is nothing more to take. -/
structure Read (i : Input) (unread line got : List UInt8) (target : ℕ) (i' : Input)
    (got' : List UInt8) (left : Option ℕ) (k : ℕ) : Prop where
  le : k ≤ unread.length
  holds : i'.Holds (unread.drop k) line
  advance : toUint ((i'.r : ℤ) - i.r) = k
  eof : C 'D' ∉ got'
  ends : left = none → shown got' = got ++ unread.take k
  sleeps : ∀ n, left = some n → 0 < n ∧ n + got'.length = target ∧ k = unread.length ∧
    got' = got ++ unread

theorem read_spec {i : Input} {unread line got : List UInt8} {n target : ℕ}
    (h : i.Holds unread line) (htarget : 0 < target) (hn : n + got.length = target)
    (heof : C 'D' ∉ got) :
    ∃ k, Read i unread line got target (Input.read target n i got).1
      (Input.read target n i got).2.1 (Input.read target n i got).2.2 k := by
  induction n generalizing i unread got with
  | zero =>
    have hgot : got ≠ [] := by
      rintro rfl
      simp only [List.length_nil] at hn
      omega
    refine ⟨0, Nat.zero_le _, h, ?_, heof, fun _ => ?_, nofun⟩
    · simp [Input.read, toUint]
    · simp [shown, hgot, Input.read]
  | succ n ih =>
    unfold Input.read
    by_cases hempty : i.r = i.w
    · rw [if_pos hempty]
      have hunread := h.r_eq_w_iff.mp hempty
      subst hunread
      refine ⟨0, le_rfl, h, by simp [toUint], heof, nofun, fun m hm => ?_⟩
      cases hm
      exact ⟨Nat.succ_pos n, hn, rfl, by simp⟩
    · rw [if_neg hempty]
      obtain ⟨c, rest, rfl⟩ := List.exists_cons_of_ne_nil (mt h.r_eq_w_iff.mpr hempty)
      obtain ⟨hc, hrest⟩ := h.take
      have hr := h.r_lt
      have hone : toUint ((toUint ((i.r : ℤ) + 1) : ℤ) - i.r) = 1 := by
        simp only [toUint]
        omega
      simp only [hc]
      by_cases hD : c = C 'D'
      · rw [if_pos hD]
        by_cases hlt : n + 1 < target
        · -- The control-D stays in the buffer.
          rw [if_pos hlt]
          have hback : toUint ((toUint ((i.r : ℤ) + 1) : ℤ) - 1) = i.r := by
            simp only [toUint]
            omega
          have hgot : got ≠ [] := by
            rintro rfl
            simp only [List.length_nil] at hn
            omega
          refine ⟨0, Nat.zero_le _, ?_, ?_, heof, fun _ => ?_, nofun⟩
          · simp only [hback]
            exact h
          · simp only [hback]
            simp [toUint]
          · simp [shown, hgot]
        · rw [if_neg hlt]
          have hgot : got = [] := List.length_eq_zero_iff.mp (by omega)
          subst hgot
          refine ⟨1, by simp, by simpa using hrest, hone, heof, fun _ => ?_, nofun⟩
          simp [shown, hD]
      · rw [if_neg hD]
        have heof' : C 'D' ∉ got ++ [c] := by
          simpa [heof] using fun heq => hD heq.symm
        by_cases hnl : c = newline
        · rw [if_pos hnl]
          refine ⟨1, by simp, by simpa using hrest, hone, heof', fun _ => ?_, nofun⟩
          simp [shown]
        · rw [if_neg hnl]
          obtain ⟨k, hk⟩ := ih hrest (by simp; omega) heof'
          refine ⟨k + 1, by simpa using hk.le, by simpa using hk.holds, ?_, hk.eof,
            fun hleft => by simpa using hk.ends hleft, fun m hm => ?_⟩
          · have hadvance := hk.advance
            have hk' := hk.le
            have hroom := h.room
            simp only [List.length_cons, INPUT_BUF] at hroom
            simp only [toUint] at hadvance ⊢
            omega
          · obtain ⟨hpos, hsum, hall, hgot⟩ := hk.sleeps m hm
            exact ⟨hpos, hsum, by simp [hall], by simp [hgot]⟩

/-- What the reader knows. It sleeps only while there is nothing to read. -/
def Pc.Waits (ed : Editor) : Pc → Prop
  | .user => True
  | .asleep n target got => 0 < n ∧ n + got.length = target ∧ C 'D' ∉ got ∧ ed.unread = []
  | .woken n target got => 0 < n ∧ n + got.length = target ∧ C 'D' ∉ got

/-- The console and its reader. -/
structure Inv (s : State) : Prop where
  shows : s.editor.Shows s.input
  /-- What was read is what was taken. -/
  stream : s.reads.flatMap shown ++ s.pc.got = s.editor.committed.take s.editor.taken
  eof : ∀ l ∈ s.reads, C 'D' ∉ l
  waits : s.pc.Waits s.editor

section

variable {s s' : State} {c : UInt8} {n target : ℕ} {got : List UInt8}

theorem Pc.got_wakeup {c : Pc} : c.wakeup.got = c.got := by cases c <;> rfl

theorem Pc.Waits.wakeup {ed ed' : Editor} {c : Pc} (h : c.Waits ed) : c.wakeup.Waits ed' := by
  cases c with
  | user => trivial
  | asleep n target got => exact ⟨h.1, h.2.1, h.2.2.1⟩
  | woken n target got => exact h

theorem Inv.key (h : Inv s) : Inv (s.key c) := by
  obtain ⟨hshows, hwake⟩ := h.shows.key (c := c)
  have hstream := h.stream
  obtain ⟨l, hl⟩ : s.editor.committed <+: (s.editor.key c).committed :=
    Editor.committed_prefix_key
  have htake : (s.editor.key c).committed.take (s.editor.key c).taken =
      s.editor.committed.take s.editor.taken := by
    rw [← hl, Editor.taken_key, List.take_append_of_le_length h.shows.taken_le]
  refine ⟨hshows, ?_, h.eof, ?_⟩
  · simp only [State.key]
    rw [htake, ← hstream]
    split
    · rw [Pc.got_wakeup]
    · rfl
  · simp only [State.key]
    split
    · exact h.waits.wakeup
    · next hquiet =>
      have hunread := hwake (by simpa using hquiet)
      have hwaits := h.waits
      generalize s.pc = pc at hwaits
      cases pc with
      | user => trivial
      | asleep n target got =>
        obtain ⟨hn, hsum, heof, hempty⟩ := hwaits
        exact ⟨hn, hsum, heof, by rw [hunread, hempty]⟩
      | woken n target got => exact hwaits

theorem Inv.keys (h : Inv s) (cs : List UInt8) : Inv (cs.foldl State.key s) := by
  induction cs generalizing s with
  | nil => exact h
  | cons c cs ih => exact ih h.key

theorem Inv.loop (h : Inv s) (hgot : s.pc.got = got) (htarget : 0 < target)
    (hn : n + got.length = target) (heof : C 'D' ∉ got) : Inv (s.loop n target got) := by
  obtain ⟨hholds, hplain, htaken⟩ := h.shows
  obtain ⟨k, hle, hholds', hadvance, heof', hends, hsleeps⟩ := read_spec hholds htarget hn heof
  have hstream := h.stream
  rw [hgot] at hstream
  have hunread : (s.editor.committed.drop (s.editor.taken + k)) = s.editor.unread.drop k := by
    rw [Editor.unread, List.drop_drop]
  have hlength : s.editor.unread.length = s.editor.committed.length - s.editor.taken :=
    List.length_drop
  have htake : s.editor.committed.take (s.editor.taken + k) =
      s.reads.flatMap shown ++ (got ++ s.editor.unread.take k) := by
    rw [List.take_add, ← hstream, List.append_assoc]
    rfl
  have hshows : Editor.Shows { s.editor with taken := s.editor.taken + k }
      (Input.read target n s.input got).1 :=
    ⟨by rw [Editor.unread, hunread]; exact hholds', hplain, by dsimp only; omega⟩
  unfold State.loop
  dsimp only
  rw [hadvance]
  split
  · next hleft =>
    refine ⟨hshows, ?_, fun l hl => ?_, trivial⟩
    · simp only [List.flatMap_append, List.flatMap_singleton, Pc.got, List.append_nil]
      rw [hends hleft, htake]
    · rcases List.mem_append.mp hl with hl | hl
      · exact h.eof l hl
      · rw [List.mem_singleton.mp hl]
        exact heof'
  · next m hleft =>
    obtain ⟨hpos, hsum, hall, hgot'⟩ := hsleeps m hleft
    refine ⟨hshows, ?_, h.eof, hpos, hsum, heof', ?_⟩
    · dsimp only [Pc.got]
      rw [htake, hall, List.take_length, hgot']
    · rw [Editor.unread, hunread, hall, List.drop_length]

theorem Inv.next {l : Label} (h : Inv s) (hstep : s.next l = some s') : Inv s' := by
  cases l with
  | intr cs =>
    cases hstep
    exact h.keys cs
  | read n =>
    simp only [State.next] at hstep
    split at hstep
    · next hguard =>
      cases hstep
      exact h.loop (by rw [hguard.1]; rfl) hguard.2 rfl (by simp)
    · cases hstep
  | run =>
    simp only [State.next] at hstep
    split at hstep
    · next n target got hpc =>
      cases hstep
      have hwaits := h.waits
      rw [hpc] at hwaits
      obtain ⟨hn, hsum, heof⟩ := hwaits
      exact h.loop (by rw [hpc]; rfl) (by omega) hsum heof
    · cases hstep
  | rouse =>
    cases hstep
    exact ⟨h.shows, by rw [← h.stream, Pc.got_wakeup], h.eof, h.waits.wakeup⟩

theorem inv_of_reach (h : Reach machine anyStep s) : Inv s := by
  refine h.invariant (P := Inv) (fun s hs => ?_) fun s l s' _ hs _ hstep => hs.next hstep
  obtain ⟨buf, rfl⟩ := hs
  exact ⟨⟨⟨by simp [boot], rfl, rfl, by simp [boot, Editor.unread], rfl⟩, by simp [boot], le_rfl⟩,
    rfl, by simp [boot], trivial⟩

theorem committed_prefix_keys (cs : List UInt8) :
    s.editor.committed <+: (cs.foldl State.key s).editor.committed := by
  induction cs generalizing s with
  | nil => exact List.prefix_rfl
  | cons c cs ih => exact Editor.committed_prefix_key.trans (ih (s := s.key c))

theorem committed_prefix_next {l : Label} (hstep : s.next l = some s') :
    s.editor.committed <+: s'.editor.committed := by
  have hloop : ∀ n target got, (s.loop n target got).editor.committed = s.editor.committed := by
    intro n target got
    unfold State.loop
    dsimp only
    split <;> rfl
  cases l with
  | intr cs =>
    cases hstep
    exact committed_prefix_keys cs
  | read n =>
    simp only [State.next] at hstep
    split at hstep
    · cases hstep
      rw [hloop]
    · cases hstep
  | run =>
    simp only [State.next] at hstep
    split at hstep
    · cases hstep
      rw [hloop]
    · cases hstep
  | rouse =>
    cases hstep
    exact List.prefix_rfl

theorem flatten_eq_filter (reads : List (List UInt8)) (h : ∀ l ∈ reads, C 'D' ∉ l) :
    reads.flatten = (reads.flatMap shown).filter (· ≠ C 'D') := by
  induction reads with
  | nil => rfl
  | cons l reads ih =>
    rw [List.flatten_cons, List.flatMap_cons, List.filter_append,
      ← ih fun x hx => h x (List.mem_cons_of_mem _ hx)]
    congr 1
    unfold shown
    split
    · next hl => simp [hl]
    · refine (List.filter_eq_self.mpr fun x hx => ?_).symm
      have hne : x ≠ C 'D' := fun heq => h l (by simp) (heq ▸ hx)
      simpa using hne

/-- **The input of the console.** In every run, of any length: the indices are in order and not
more than the size of the buffer apart; the committed bytes that were not read are in the
buffer, behind them the line; nothing that was committed is lost later; and the calls of
`consoleread` have returned what was committed, up to some byte, without the control-Ds, for
each of which one call has returned nothing, in its place. -/
theorem console_stream (h : Reach machine anyStep s) :
    toUint ((s.input.w : ℤ) - s.input.r) ≤ toUint ((s.input.e : ℤ) - s.input.r) ∧
      toUint ((s.input.e : ℤ) - s.input.r) ≤ INPUT_BUF ∧
      segment s.input.buf s.input.r (toUint ((s.input.w : ℤ) - s.input.r)) = s.editor.unread ∧
      segment s.input.buf s.input.w (toUint ((s.input.e : ℤ) - s.input.w)) = s.editor.line ∧
      (∀ l s', s.next l = some s' → s.editor.committed <+: s'.editor.committed) ∧
      s.reads.flatMap shown ++ s.pc.got = s.editor.committed.take s.editor.taken ∧
      s.reads.flatten ++ s.pc.got =
        (s.editor.committed.take s.editor.taken).filter (· ≠ C 'D') := by
  obtain ⟨⟨hholds, -, -⟩, hstream, heof, hwaits⟩ := inv_of_reach h
  have hbytes := hholds.bytes
  rw [Circular.segment_add] at hbytes
  obtain ⟨hunread, hline⟩ := List.append_inj hbytes Circular.length_segment
  rw [hholds.toUint_unread, hholds.toUint_pending, hholds.toUint_line]
  have hgot : C 'D' ∉ s.pc.got := by
    generalize s.pc = pc at hwaits
    cases pc with
    | user => simp [Pc.got]
    | asleep n target got => exact hwaits.2.2.1
    | woken n target got => exact hwaits.2.2
  refine ⟨Nat.le_add_right _ _, hholds.room, hunread, ?_, fun l s' hstep =>
    committed_prefix_next hstep, hstream, ?_⟩
  · refine (Circular.segment_congr ?_).trans hline
    rw [hholds.w_eq]
    simp only [INPUT_BUF]
    omega
  · rw [← hstream, List.filter_append, flatten_eq_filter _ heof]
    congr 1
    refine (List.filter_eq_self.mpr fun x hx => ?_).symm
    have hne : x ≠ C 'D' := fun heq => hgot (heq ▸ hx)
    simpa using hne

/-- A line is edited, a part of it is read, and a control-D ends the input. -/
theorem console_stream_line : ∃ s, Reach machine anyStep s ∧
    s.reads = [[97, 98], [100, newline], [101], []] ∧
    s.reads.flatten ++ s.pc.got = (s.editor.committed.take s.editor.taken).filter (· ≠ C 'D') := by
  obtain ⟨s, -, hs, hreads⟩ := Reach.exists_of_exec machine_step ⟨fun _ => 0, rfl⟩
    [.read 2, .intr [99, C 'U', 97, 98, 99, C 'H', 100], .rouse, .run, .intr [13], .run, .read 5,
      .intr [101, C 'D'], .read 5, .read 5]
    (fun s => s.reads = [[97, 98], [100, newline], [101], []]) (by decide)
  exact ⟨s, hs, hreads, (console_stream hs).2.2.2.2.2.2⟩

end

end KThreads.Console
