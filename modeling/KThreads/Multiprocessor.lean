import Mathlib

/-!
# The configuration table of the processors

`mpinit` finds the table that the firmware has left in memory and walks over its entries. An
entry of an unknown type is the end of the `switch` only: the walk does not leave the entry.
Memory is read at physical addresses.
-/

namespace KThreads.Mp

open Function (update)

/-- `NCPU`: the largest number of processors. -/
abbrev NCPU : ℕ := 8

/-- `sizeof(struct mp)` -/
abbrev sizeofMp : ℕ := 16

/-- `sizeof(struct mpconf)` -/
abbrev sizeofMpconf : ℕ := 44

/-- `sizeof(struct mpproc)` -/
abbrev sizeofMpproc : ℕ := 20

/-- `sizeof(struct mpioapic)` -/
abbrev sizeofMpioapic : ℕ := 8

abbrev MPPROC : UInt8 := 0

abbrev MPBUS : UInt8 := 1

abbrev MPIOAPIC : UInt8 := 2

abbrev MPIOINTR : UInt8 := 3

abbrev MPLINTR : UInt8 := 4

/-- What a processor entry has filled in, and where the walk is. -/
structure Walk where
  /-- `p` -/
  p : ℕ
  ncpu : ℕ
  /-- `cpus[i].apicid` -/
  apicid : ℕ → UInt8
  ioapicid : UInt8
  ismp : Bool

/-- The end of `mpinit` -/
inductive Outcome
  /-- `panic("Expect to run on an SMP")` -/
  | noTable
  /-- `panic("Didn't find a suitable machine")` -/
  | unsuitable
  /-- It returns; `imcr` says whether it has written to the IMCR. -/
  | ready (w : Walk) (lapic : ℕ) (imcr : Bool)

section

variable (mem : ℕ → UInt8)

/-- The bytes from an address on. -/
def bytes (a n : ℕ) : List UInt8 := (List.range n).map fun i => mem (a + i)

/-- A little-endian number of `n` bytes. -/
def number (a n : ℕ) : ℕ := (bytes mem a n).foldr (fun b r => b.toNat + 256 * r) 0

def sum (addr len : ℕ) : UInt8 := (bytes mem addr len).sum

/-- `mpsearch1` -/
def mpsearch1 (a len : ℕ) : Option ℕ :=
  ((List.range ((len + (sizeofMp - 1)) / sizeofMp)).map fun i => (a + sizeofMp * i) % 2 ^ 32).find?
    fun p => bytes mem p 4 = [0x5f, 0x4d, 0x50, 0x5f] ∧ sum mem p sizeofMp = 0

def mpsearch : Option ℕ :=
  let p := number mem 0x40e 2 * 16
  let q := number mem 0x413 2 * 1024
  (if p ≠ 0 then mpsearch1 mem p 1024 else mpsearch1 mem (q + (2 ^ 32 - 1024)) 1024).or
    (mpsearch1 mem 0xF0000 0x10000)

/-- `mpconfig`: the addresses of the floating pointer and of the table. -/
def mpconfig : Option (ℕ × ℕ) :=
  mpsearch mem |>.bind fun mp =>
    let conf := number mem (mp + 4) 4
    if conf = 0 then none
    else if bytes mem conf 4 ≠ [0x50, 0x43, 0x4d, 0x50] then none
    else if mem (conf + 6) ≠ 1 ∧ mem (conf + 6) ≠ 4 then none
    else if sum mem conf (number mem (conf + 4) 2) ≠ 0 then none
    else some (mp, conf)

end

section

variable (mem : ℕ → UInt8)

/-- One round of the loop of `mpinit`. -/
def visit (w : Walk) : Walk :=
  if mem w.p = MPPROC then
    let w := if w.ncpu < NCPU then
        { w with apicid := update w.apicid w.ncpu (mem (w.p + 1)), ncpu := w.ncpu + 1 }
      else w
    { w with p := w.p + sizeofMpproc }
  else if mem w.p = MPIOAPIC then
    { w with ioapicid := mem (w.p + 1), p := w.p + sizeofMpioapic }
  else if mem w.p = MPBUS ∨ mem w.p = MPIOINTR ∨ mem w.p = MPLINTR then { w with p := w.p + 8 }
  -- `break` leaves the `switch`
  else { w with ismp := false }

/-- The loop of `mpinit`, `none` when it has not ended after `n` rounds. -/
def walk (e : ℕ) : ℕ → Walk → Option Walk
  | 0, w => if w.p < e then none else some w
  | n + 1, w => if w.p < e then walk e n (visit mem w) else some w

/-- The address behind the table. -/
def tableEnd (conf : ℕ) : ℕ := conf + number mem (conf + 4) 2

/-- `mpinit`, `none` when it has not ended after `n` rounds of its loop. -/
def mpinit (n : ℕ) : Option Outcome :=
  match mpconfig mem with
  | none => some .noTable
  | some (mp, conf) =>
      (walk mem (tableEnd mem conf) n ⟨conf + sizeofMpconf, 0, fun _ => 0, 0, true⟩).map fun w =>
        if w.ismp = false then .unsuitable
        else .ready w (number mem (conf + 36) 4) (mem (mp + 12) ≠ 0)

end

/-- An entry of the table. -/
inductive Entry
  | proc (apicid : UInt8)
  | ioapic (apicno : UInt8)
  | other
  deriving DecidableEq

/-- The length of an entry. -/
def Entry.size : Entry → ℕ
  | .proc _ => sizeofMpproc
  | .ioapic _ => sizeofMpioapic
  | .other => 8

/-- The entry at an address, `none` for an unknown type. -/
def entryAt (mem : ℕ → UInt8) (p : ℕ) : Option Entry :=
  if mem p = MPPROC then some (.proc (mem (p + 1)))
  else if mem p = MPIOAPIC then some (.ioapic (mem (p + 1)))
  else if mem p = MPBUS ∨ mem p = MPIOINTR ∨ mem p = MPLINTR then some .other
  else none

/-- The entries from an address to the end, all of known types. -/
inductive Entries (mem : ℕ → UInt8) (e : ℕ) : ℕ → List Entry → Prop
  | nil {p} (hp : e ≤ p) : Entries mem e p []
  | cons {p x xs} (hp : p < e) (hx : entryAt mem p = some x) (hxs : Entries mem e (p + x.size) xs) :
      Entries mem e p (x :: xs)

/-- An entry of an unknown type occurs. -/
inductive Unknown (mem : ℕ → UInt8) (e : ℕ) : ℕ → Prop
  | here {p} (hp : p < e) (hx : entryAt mem p = none) : Unknown mem e p
  | later {p x} (hp : p < e) (hx : entryAt mem p = some x) (hrest : Unknown mem e (p + x.size)) :
      Unknown mem e p

/-- The processors among the entries. -/
def procs (xs : List Entry) : List UInt8 :=
  xs.filterMap fun
    | .proc id => some id
    | .ioapic _ | .other => none

/-- `mpinit` ends, panics exactly when an entry of an unknown type occurs, and has recorded the
first processors otherwise. -/
def WalksTable (mem : ℕ → UInt8) (conf : ℕ) : Prop :=
  ∃ n o, mpinit mem n = some o ∧
    (o = .unsuitable ↔ Unknown mem (tableEnd mem conf) (conf + sizeofMpconf)) ∧
    ∀ w lapic imcr, o = .ready w lapic imcr →
      ∃ xs, Entries mem (tableEnd mem conf) (conf + sizeofMpconf) xs ∧
        (List.range w.ncpu).map w.apicid = (procs xs).take NCPU

variable {mem : ℕ → UInt8} {e p conf mp n : ℕ} {w w' : Walk} {x : Entry} {xs : List Entry}

theorem unknown_or_entries (mem : ℕ → UInt8) (e p : ℕ) :
    Unknown mem e p ∨ ∃ xs, Entries mem e p xs := by
  induction h : e - p using Nat.strongRecOn generalizing p with
  | ind d ih =>
    by_cases hp : p < e
    swap
    · exact .inr ⟨[], .nil (not_lt.mp hp)⟩
    cases hx : entryAt mem p with
    | none => exact .inl (.here hp hx)
    | some x =>
      have hsize : 0 < x.size := by cases x <;> exact Nat.succ_pos _
      rcases ih _ (by omega) (p + x.size) rfl with hrest | ⟨xs, hrest⟩
      · exact .inl (.later hp hx hrest)
      · exact .inr ⟨x :: xs, .cons hp hx hrest⟩

theorem visit_known (hx : entryAt mem w.p = some x) :
    (visit mem w).p = w.p + x.size ∧ (visit mem w).ismp = w.ismp ∧
      (List.range (visit mem w).ncpu).map (visit mem w).apicid =
        match x with
        | .proc id => if w.ncpu < NCPU then (List.range w.ncpu).map w.apicid ++ [id]
            else (List.range w.ncpu).map w.apicid
        | .ioapic _ | .other => (List.range w.ncpu).map w.apicid := by
  unfold entryAt at hx
  unfold visit
  split_ifs at hx ⊢ with hproc hroom hioapic hother
  · cases hx
    refine ⟨rfl, rfl, ?_⟩
    dsimp only
    rw [List.range_succ, List.map_append, List.map_singleton, Function.update_self]
    congr 1
    refine List.map_congr_left fun i hi => Function.update_of_ne ?_ _ _
    exact (List.mem_range.mp hi).ne
  all_goals
    cases hx
    exact ⟨rfl, rfl, rfl⟩

theorem visit_unknown (hx : entryAt mem w.p = none) : (visit mem w).p = w.p := by
  unfold entryAt at hx
  unfold visit
  split_ifs at hx ⊢
  rfl

theorem walk_unknown (h : Unknown mem e w.p) (n : ℕ) : walk mem e n w = none := by
  induction n generalizing w with
  | zero =>
    have hp : w.p < e := by cases h <;> assumption
    rw [walk, if_pos hp]
  | succ n ih =>
    cases h with
    | here hp hx =>
      rw [walk, if_pos hp]
      refine ih ?_
      rw [visit_unknown hx]
      exact .here hp hx
    | later hp hx hrest =>
      rw [walk, if_pos hp]
      refine ih ?_
      rw [(visit_known hx).1]
      exact hrest

theorem walk_entries (h : Entries mem e p xs) (hp : w.p = p) (hroom : w.ncpu ≤ NCPU) :
    ∃ w', walk mem e xs.length w = some w' ∧ w'.ismp = w.ismp ∧
      (List.range w'.ncpu).map w'.apicid =
        ((List.range w.ncpu).map w.apicid ++ procs xs).take NCPU := by
  induction h generalizing w with
  | nil hle =>
    refine ⟨w, ?_, rfl, ?_⟩
    · rw [List.length_nil, walk, if_neg (by omega)]
    · simp [procs, List.take_of_length_le, hroom]
  | @cons p x xs hlt hx hxs ih =>
    subst hp
    obtain ⟨hnext, hismp, hcpus⟩ := visit_known hx
    have hlength := congrArg List.length hcpus
    have hroom' : (visit mem w).ncpu ≤ NCPU := by
      cases x with
      | proc id =>
        dsimp only at hlength
        split at hlength <;> simp at hlength <;> omega
      | ioapic _ | other =>
        simp at hlength
        omega
    obtain ⟨w', hwalk, hismp', hcpus'⟩ := ih hnext hroom'
    refine ⟨w', ?_, hismp'.trans hismp, ?_⟩
    · rw [List.length_cons, walk, if_pos hlt]
      exact hwalk
    · rw [hcpus', hcpus]
      cases x with
      | proc id =>
        dsimp only [procs]
        split
        · simp
        · next hfull =>
          have hlen : ((List.range w.ncpu).map w.apicid).length = NCPU := by
            simp
            omega
          rw [List.take_append_of_le_length hlen.symm.le, List.take_append_of_le_length hlen.symm.le]
      | ioapic _ | other => simp [procs]

/-- **The walk over the table.** For every table that passes the tests, `mpinit` does what it is
for if and only if no entry of an unknown type occurs; with one it never ends. -/
theorem mpinit_walks_iff (hconf : mpconfig mem = some (mp, conf)) :
    WalksTable mem conf ↔ ¬Unknown mem (tableEnd mem conf) (conf + sizeofMpconf) := by
  constructor
  · rintro ⟨n, o, hrun, -⟩ hunknown
    rw [mpinit, hconf] at hrun
    dsimp only at hrun
    rw [walk_unknown hunknown] at hrun
    cases hrun
  · intro hknown
    obtain ⟨xs, hxs⟩ := (unknown_or_entries mem _ _).resolve_left hknown
    obtain ⟨w, hwalk, hismp, hcpus⟩ := walk_entries
      (w := ⟨conf + sizeofMpconf, 0, fun _ => 0, 0, true⟩) hxs rfl (Nat.zero_le _)
    refine ⟨xs.length, .ready w (number mem (conf + 36) 4) (mem (mp + 12) ≠ 0), ?_,
      iff_of_false nofun hknown, ?_⟩
    · rw [mpinit, hconf]
      dsimp only
      rw [hwalk, Option.map_some, hismp, if_neg (by simp)]
    · intro w' _ _ heq
      cases heq
      exact ⟨xs, hxs, hcpus⟩

/-- A memory with a floating pointer at its start and a table of one entry at 2048; `kind` is the
type of the entry. -/
def firmware (kind : UInt8) (a : ℕ) : UInt8 :=
  if a = 0x413 then 1
  else if a < 16 then
    [0x5f, 0x4d, 0x50, 0x5f, 0, 8, 0, 0, 1, 4, 0x98, 0, 0, 0, 0, 0].getD a 0
  else if 2048 ≤ a then
    ([0x50, 0x43, 0x4d, 0x50, 45, 0, 4, 0x9f - kind] ++ List.replicate 36 0 ++ [kind, 3]).getD
      (a - 2048) 0
  else 0

/-- A table with one processor is walked over. -/
theorem mpinit_walks_one : mpconfig (firmware 0) = some (0, 2048) ∧ WalksTable (firmware 0) 2048 := by
  have hconf : mpconfig (firmware 0) = some (0, 2048) := by decide
  refine ⟨hconf, (mpinit_walks_iff hconf).mpr fun hunknown => ?_⟩
  have hentry : entryAt (firmware 0) (2048 + sizeofMpconf) = some (.proc 3) := by decide
  have hend : tableEnd (firmware 0) 2048 = 2093 := by decide
  cases hunknown with
  | here _ hx =>
    rw [hentry] at hx
    cases hx
  | later _ hx hrest =>
    rw [hentry] at hx
    cases hx
    rw [hend] at hrest
    cases hrest with
    | here hlt _ | later hlt _ _ => exact absurd hlt (by decide)

/-- With one entry of the type 9, `mpinit` does not end. -/
theorem mpinit_stays : mpconfig (firmware 9) = some (0, 2048) ∧
    ∀ n, mpinit (firmware 9) n = none := by
  have hconf : mpconfig (firmware 9) = some (0, 2048) := by decide
  have hunknown : Unknown (firmware 9) (tableEnd (firmware 9) 2048) 2092 :=
    .here (by decide) (by decide)
  refine ⟨hconf, fun n => ?_⟩
  rw [mpinit, hconf]
  dsimp only
  rw [walk_unknown hunknown]
  rfl

end KThreads.Mp
