import KThreads.Pipe.Calls

/-!
# Pipes as queues, and the wakeups of their users

A pipe is a queue of at most `PIPESIZE` bytes, whatever the counters and whichever
user copies fail. A reader does not sleep while there is something to read, unless a
writer has returned from a full pipe without announcing what it had written; a
writer does not sleep while there is room.
-/

namespace KThreads.Pipe.Buffer

variable {p : Buffer} {bytes n i : ℕ}

theorem nwrite_eq (h : p.WellFormed) : p.nwrite = (p.nread + p.size) % 4294967296 := by
  obtain ⟨hr, hw, -⟩ := h
  simp only [size, toUint]
  omega

theorem nwrite_mod (h : p.WellFormed) : p.nwrite % PIPESIZE = (p.nread + p.size) % PIPESIZE := by
  have := nwrite_eq h
  simp only [PIPESIZE]
  omega

theorem full_iff (h : p.WellFormed) : p.Full ↔ p.size = PIPESIZE := by
  obtain ⟨hr, hw, hsize⟩ := h
  simp only [Full, size, toUint, PIPESIZE] at *
  omega

theorem empty_iff (h : p.WellFormed) : p.nread = p.nwrite ↔ p.size = 0 := by
  obtain ⟨hr, hw, -⟩ := h
  simp only [size, toUint]
  omega

theorem writeBytes_eq (h : p.WellFormed) : p.writeBytes n i = min (PIPESIZE - p.size) (n - i) := by
  obtain ⟨hr, hw, hsize⟩ := h
  simp only [writeBytes, size, toUint, PIPESIZE] at *
  omega

theorem size_add_writeBytes (h : p.WellFormed) : p.size + p.writeBytes n i ≤ PIPESIZE := by
  rw [writeBytes_eq h]
  have := h.size
  omega

theorem readBytes_le : p.readBytes n ≤ p.size := min_le_left _ _

theorem size_publish (h : p.WellFormed) (hb : p.size + bytes ≤ PIPESIZE) :
    (p.publish bytes).size = p.size + bytes := by
  obtain ⟨hr, hw, -⟩ := h
  simp only [size, publish, toUint, PIPESIZE] at *
  omega

theorem size_consume (h : p.WellFormed) (hb : bytes ≤ p.size) :
    (p.consume bytes).size = p.size - bytes := by
  obtain ⟨hr, hw, -⟩ := h
  simp only [size, consume, toUint] at *
  omega

theorem WellFormed.publish (h : p.WellFormed) (hb : p.size + bytes ≤ PIPESIZE) :
    (p.publish bytes).WellFormed where
  nread := h.nread
  nwrite := by
    simp only [Buffer.publish, toUint]
    omega
  size := by rwa [size_publish h hb]

theorem WellFormed.consume (h : p.WellFormed) (hb : bytes ≤ p.size) :
    (p.consume bytes).WellFormed where
  nread := by
    simp only [Buffer.consume, toUint]
    omega
  nwrite := h.nwrite
  size := by
    rw [size_consume h hb]
    have := h.size
    omega

theorem chunk1_le (pos bytes : ℕ) : chunk1 pos bytes ≤ bytes := by
  unfold chunk1
  split <;> omega

theorem mod_add_chunk1_le (pos : ℕ) : pos % PIPESIZE + chunk1 pos bytes ≤ PIPESIZE := by
  have : pos % PIPESIZE < PIPESIZE := Nat.mod_lt _ (by decide)
  unfold chunk1
  split <;> omega

theorem chunk2_eq_zero_or (pos : ℕ) :
    bytes - chunk1 pos bytes = 0 ∨ pos % PIPESIZE + chunk1 pos bytes = PIPESIZE := by
  have : pos % PIPESIZE < PIPESIZE := Nat.mod_lt _ (by decide)
  unfold chunk1
  split <;> omega

theorem copyIn2_copyIn1 {src src' : List UInt8} (hb : bytes ≤ PIPESIZE)
    (hsrc : src.length = chunk1 p.nwrite bytes) (hsrc' : src'.length = bytes - src.length) :
    (p.copyIn1 src).copyIn2 src' = { p with data := Circular.put p.data p.nwrite (src ++ src') } := by
  have hstore : Circular.store (Circular.store p.data (p.nwrite % PIPESIZE) src) 0 src' =
      Circular.put p.data p.nwrite (src ++ src') := by
    refine Circular.store_store ?_ (by omega) ?_
    · rw [hsrc]
      exact mod_add_chunk1_le _
    · rw [← List.length_eq_zero_iff, hsrc', hsrc]
      exact chunk2_eq_zero_or _
  simp only [copyIn1, copyIn2, hstore]

theorem copyOut1_append_copyOut2 (hb : bytes ≤ PIPESIZE) :
    p.copyOut1 (chunk1 p.nread bytes) ++ p.copyOut2 (bytes - chunk1 p.nread bytes) =
      Circular.segment p.data p.nread bytes := by
  rw [copyOut1, copyOut2, Circular.load_append_load (mod_add_chunk1_le _) (by omega)
    (chunk2_eq_zero_or _), Nat.add_sub_cancel' (chunk1_le _ _)]

theorem copyIn1_eq {src : List UInt8} (hsrc : src.length = chunk1 p.nwrite bytes) :
    p.copyIn1 src = { p with data := Circular.put p.data p.nwrite src } := by
  have hle : p.nwrite % PIPESIZE + src.length ≤ PIPESIZE := hsrc ▸ mod_add_chunk1_le p.nwrite
  rw [copyIn1, Circular.store_eq_put hle, Circular.put_congr (Nat.mod_mod _ _)]

theorem neZero_pipesize : NeZero PIPESIZE := ⟨by decide⟩

/-- Bytes stored one after the other and published. -/
def append (p : Buffer) (bs : List UInt8) : Buffer :=
  haveI := neZero_pipesize
  { p with data := Circular.put p.data p.nwrite bs }.publish bs.length

theorem WellFormed.append (h : p.WellFormed) {bs : List UInt8}
    (hb : p.size + bs.length ≤ PIPESIZE) :
    (p.append bs).WellFormed ∧ (p.append bs).size = p.size + bs.length := by
  have hsame : { p with data := Circular.put p.data p.nwrite bs }.WellFormed :=
    ⟨h.nread, h.nwrite, h.size⟩
  exact ⟨hsame.publish hb, size_publish hsame hb⟩

theorem contents_append (h : p.WellFormed) {bs : List UInt8} (hb : p.size + bs.length ≤ PIPESIZE) :
    (p.append bs).contents = p.contents ++ bs := by
  rw [contents, (h.append hb).2]
  simp only [append, publish, Circular.put_congr (nwrite_mod h)]
  exact Circular.segment_put hb

theorem contents_put (h : p.WellFormed) {bs : List UInt8} (hb : p.size + bs.length ≤ PIPESIZE) :
    { p with data := Circular.put p.data p.nwrite bs }.contents = p.contents := by
  simp only [contents, Circular.put_congr (nwrite_mod h)]
  exact Circular.segment_put_of_le hb

theorem contents_consume (h : p.WellFormed) (hb : bytes ≤ p.size) :
    (p.consume bytes).contents = p.contents.drop bytes ∧
      Circular.segment p.data p.nread bytes = p.contents.take bytes := by
  have hsplit : p.contents =
      Circular.segment p.data p.nread bytes ++
        Circular.segment p.data (p.nread + bytes) (p.size - bytes) := by
    rw [← Circular.segment_add, Nat.add_sub_cancel' hb, contents]
  have hmod : (p.consume bytes).nread % PIPESIZE = (p.nread + bytes) % PIPESIZE := by
    simp only [consume, toUint, PIPESIZE]
    omega
  rw [hsplit, List.drop_left' Circular.length_segment, List.take_left' Circular.length_segment]
  refine ⟨?_, rfl⟩
  rw [contents, size_consume h hb]
  exact Circular.segment_congr hmod

/-- `data[nwrite++ % PIPESIZE] = b`. -/
def writeByte (p : Buffer) (b : UInt8) : Buffer :=
  haveI := neZero_pipesize
  { p with
    data := Function.update p.data (Circular.cell PIPESIZE (p.nwrite % PIPESIZE)) b
    nwrite := toUint (p.nwrite + 1) }

/-- The loop over single bytes, up to where it waits or has written all bytes. -/
def byteWrite (p : Buffer) : List UInt8 → Buffer
  | [] => p
  | b :: bs => if p.Full then p else (p.writeByte b).byteWrite bs

/-- The loop over `data[nread++ % PIPESIZE]`, up to where the pipe is empty or all
bytes have been read. -/
def byteRead (p : Buffer) : ℕ → List UInt8 × Buffer
  | 0 => ([], p)
  | n + 1 =>
      if p.nread = p.nwrite then ([], p)
      else
        haveI := neZero_pipesize
        let rest := (p.consume 1).byteRead n
        (p.data (Circular.cell PIPESIZE (p.nread % PIPESIZE)) :: rest.1, rest.2)

theorem append_nil (h : p.WellFormed) : p.append [] = p := by
  have hsame : toUint p.nwrite = p.nwrite := by
    have := h.nwrite
    simp only [toUint]
    omega
  simp [append, publish, Circular.put, hsame]

theorem append_singleton (b : UInt8) : p.append [b] = p.writeByte b := by
  rw [append, writeByte, Circular.put, Circular.put, Circular.cell_congr (Nat.mod_mod _ _)]
  rfl

theorem append_cons (b : UInt8) (bs : List UInt8) :
    p.append (b :: bs) = (p.writeByte b).append bs := by
  have hcell : Circular.cell PIPESIZE (p.nwrite % PIPESIZE) = Circular.cell PIPESIZE p.nwrite :=
    Circular.cell_congr (Nat.mod_mod _ _)
  have hmod : toUint (p.nwrite + 1) % PIPESIZE = (p.nwrite + 1) % PIPESIZE := by
    simp only [toUint, PIPESIZE]
    omega
  have hnwrite : toUint (toUint (p.nwrite + 1) + bs.length) =
      toUint (p.nwrite + (bs.length + 1 : ℕ)) := by
    simp only [toUint]
    omega
  simp only [append, publish, writeByte, hcell, Circular.put, List.length_cons,
    Circular.put_congr hmod, hnwrite]

theorem byteWrite_eq (h : p.WellFormed) (bs : List UInt8) :
    p.byteWrite bs = p.append (bs.take (p.writeBytes bs.length 0)) := by
  induction bs generalizing p with
  | nil => rw [byteWrite, List.take_nil, append_nil h]
  | cons b bs ih =>
    have hsize := h.size
    rw [byteWrite, writeBytes_eq h, List.length_cons]
    split
    · next hfull =>
      rw [(full_iff h).mp hfull, Nat.sub_self, Nat.zero_min, List.take_zero, append_nil h]
    · next hfull =>
      rw [full_iff h] at hfull
      have hroom : p.size + [b].length ≤ PIPESIZE := by rw [List.length_singleton]; omega
      obtain ⟨hwf, hsucc⟩ := h.append hroom
      rw [append_singleton] at hwf hsucc
      have hmin : min (PIPESIZE - p.size) (bs.length + 1 - 0) =
          (p.writeByte b).writeBytes bs.length 0 + 1 := by
        rw [writeBytes_eq hwf, hsucc, List.length_singleton]
        omega
      rw [hmin, List.take_succ_cons, append_cons, ih hwf]

theorem copyIn_eq_byteWrite (h : p.WellFormed) {bs : List UInt8} (hbs : bs.length = n - i) :
    let bytes := p.writeBytes n i
    let chunk := chunk1 p.nwrite bytes
    ((p.copyIn1 (bs.take chunk)).copyIn2 ((bs.take bytes).drop chunk)).publish bytes =
      p.byteWrite bs := by
  intro bytes chunk
  have hchunk : chunk ≤ bytes := chunk1_le _ _
  have hsame : p.writeBytes bs.length 0 = bytes := by
    rw [writeBytes_eq h, hbs, Nat.sub_zero]
    exact (writeBytes_eq h).symm
  have hlen : bytes ≤ bs.length := hbs ▸ min_le_right _ _
  have hroom : bytes ≤ PIPESIZE := by
    have := size_add_writeBytes (n := n) (i := i) h
    omega
  have htake : bs.take chunk = (bs.take bytes).take chunk := by
    rw [List.take_take, min_eq_left hchunk]
  rw [copyIn2_copyIn1 hroom (by rw [List.length_take]; omega)
    (by simp only [List.length_take, List.length_drop]; omega), htake, List.take_append_drop,
    byteWrite_eq h, hsame, append, List.length_take, min_eq_left hlen]

theorem consume_zero (h : p.WellFormed) : p.consume 0 = p := by
  have hsame : toUint p.nread = p.nread := by
    have := h.nread
    simp only [toUint]
    omega
  simp [consume, hsame]

theorem consume_consume (m : ℕ) : (p.consume 1).consume m = p.consume (m + 1) := by
  have hnread : toUint (toUint (p.nread + (1 : ℕ)) + m) = toUint (p.nread + (m + 1 : ℕ)) := by
    simp only [toUint]
    omega
  simp only [consume, hnread]

theorem byteRead_eq (h : p.WellFormed) (n : ℕ) :
    p.byteRead n = (Circular.segment p.data p.nread (p.readBytes n), p.consume (p.readBytes n)) := by
  have hmin : ∀ (p : Buffer) n, p.readBytes n = min p.size n := fun _ _ => rfl
  induction n generalizing p with
  | zero => rw [byteRead, hmin, Nat.min_zero, consume_zero h, Circular.segment]
  | succ n ih =>
    rw [byteRead]
    split
    · next hempty =>
      rw [hmin, (empty_iff h).mp hempty, Nat.zero_min, consume_zero h, Circular.segment]
    · next hempty =>
      rw [empty_iff h] at hempty
      have hone : 1 ≤ p.size := by omega
      have hmod : (p.consume 1).nread % PIPESIZE = (p.nread + 1) % PIPESIZE := by
        simp only [consume, toUint, PIPESIZE]
        omega
      have hsucc : p.readBytes (n + 1) = (p.consume 1).readBytes n + 1 := by
        rw [hmin, hmin, size_consume h hone]
        omega
      rw [ih (h.consume hone), hsucc, Circular.segment, consume_consume,
        Circular.cell_congr (Nat.mod_mod _ _), Circular.segment_congr hmod, consume]

theorem copyOut_eq_byteRead (h : p.WellFormed) (n : ℕ) :
    let bytes := p.readBytes n
    let chunk := chunk1 p.nread bytes
    (p.copyOut1 chunk ++ p.copyOut2 (bytes - chunk), p.consume bytes) = p.byteRead n := by
  intro bytes chunk
  rw [copyOut1_append_copyOut2 (readBytes_le.trans h.size), byteRead_eq h]

end KThreads.Pipe.Buffer

namespace KThreads.Pipe

open Transition (Reach)
open Buffer (chunk1)

variable {τ : Type*} [DecidableEq τ]

/-- The thread holds the lock of the pipe. -/
def Pc.holds : Pc → Bool
  | .writeLoop .. | .writeFull .. | .writeSleep .. | .writeCopy1 .. | .writeCopy2 .. => true
  | .readEmpty .. | .readSleep .. | .readCopy1 .. | .readCopy2 .. | .readWakeup .. => true
  | .user | .pipewrite .. | .writeWoken .. | .piperead .. | .readWoken .. => false
  | .pipeclose .. | .ret .. => false

/-- The thread is about to make a user copy. -/
def Pc.copies : Pc → Bool
  | .writeCopy1 .. | .writeCopy2 .. | .readCopy1 .. | .readCopy2 .. => true
  | _ => false

/-- A user copy that fails. -/
def Event.fails : Event τ → Bool
  | .copyFromUser none | .copyToUser false => true
  | _ => false

/-- The transitions of a thread. -/
inductive Step (s : Shared τ) (t : τ) : Pc → Event τ → Shared τ → Pc → Prop
  | enter {e : Event τ} {pc' : Pc} (hpc' : pc'.holds = false) : Step s t .user e s pc'
  | kill (u : τ) : Step s t .user (.kill u) (s.kill u) .user
  | leave (r : ℤ) : Step s t (.ret r) .run s .user
  | lockWrite {pc : Pc} {n i : ℕ} (hpc : pc.holds = false) (hlock : s.lock = none)
      (hi : i = 0 ∨ pc = .writeWoken n i) :
      Step s t pc .run { s with lock := some t } (.writeLoop n i)
  | lockRead {pc : Pc} {n : ℕ} (hpc : pc.holds = false) (hlock : s.lock = none) :
      Step s t pc .run { s with lock := some t } (.readEmpty n)
  | full {n i : ℕ} (hi : i < n) (hfull : s.buf.Full) :
      Step s t (.writeLoop n i) .run s (.writeFull n i)
  | space {n i : ℕ} (hi : i < n) (hfull : ¬s.buf.Full) :
      Step s t (.writeLoop n i) .run s
        (.writeCopy1 n i (s.buf.writeBytes n i) (chunk1 s.buf.nwrite (s.buf.writeBytes n i)))
  | written {n i : ℕ} (hi : n ≤ i) :
      Step s t (.writeLoop n i) .run (s.wakeup .nread).release (.ret n)
  | broken {n i : ℕ} (h : s.buf.readopen = false ∨ s.killed t = true) :
      Step s t (.writeFull n i) .run s.release (.ret (-1))
  | announce {n i : ℕ} :
      Step s t (.writeFull n i) .run (s.wakeup .nread) (.writeSleep n i)
  | sleepWrite {n i : ℕ} : Step s t (.writeSleep n i) .run (s.sleep t .nwrite) (.writeWoken n i)
  | fault {pc : Pc} {e : Event τ} (hpc : pc.copies = true) (he : e.fails = true) :
      Step s t pc e s.release (.ret (-1))
  | copyIn1 {n i bytes chunk1 : ℕ} {src : List UInt8} (hsrc : src.length = chunk1) :
      Step s t (.writeCopy1 n i bytes chunk1) (.copyFromUser (some src))
        { s with buf := s.buf.copyIn1 src } (.writeCopy2 n i bytes chunk1 src)
  | copyIn2 {n i bytes chunk1 : ℕ} {src src' : List UInt8}
      (hsrc' : src'.length = bytes - chunk1) :
      Step s t (.writeCopy2 n i bytes chunk1 src) (.copyFromUser (some src'))
        { s with
          buf := (s.buf.copyIn2 src').publish bytes
          published := s.published ++ (src ++ src') }
        (.writeLoop n (i + bytes))
  | stop {n : ℕ} (hempty : s.buf.nread = s.buf.nwrite) :
      Step s t (.readEmpty n) .run s.release (.ret (-1))
  | empty {n : ℕ} (hempty : s.buf.nread = s.buf.nwrite) (hopen : s.buf.writeopen = true) :
      Step s t (.readEmpty n) .run s (.readSleep n)
  | ready {n : ℕ} (hready : ¬(s.buf.nread = s.buf.nwrite ∧ s.buf.writeopen = true)) :
      Step s t (.readEmpty n) .run s
        (.readCopy1 (s.buf.readBytes n) (chunk1 s.buf.nread (s.buf.readBytes n)))
  | sleepRead {n : ℕ} : Step s t (.readSleep n) .run (s.sleep t .nread) (.readWoken n)
  | copyOut1 {bytes chunk1 : ℕ} :
      Step s t (.readCopy1 bytes chunk1) (.copyToUser true) s
        (.readCopy2 bytes chunk1 (s.buf.copyOut1 chunk1))
  | copyOut2 {bytes chunk1 : ℕ} {dst : List UInt8} :
      Step s t (.readCopy2 bytes chunk1 dst) (.copyToUser true)
        { s with
          buf := s.buf.consume bytes
          delivered := s.delivered ++ (dst ++ s.buf.copyOut2 (bytes - chunk1)) }
        (.readWakeup bytes)
  | wakeWriters {bytes : ℕ} :
      Step s t (.readWakeup bytes) .run (s.wakeup .nwrite).release (.ret bytes)
  | close {writable : Bool} (hlock : s.lock = none) :
      Step s t (.pipeclose writable) .run (s.pipeclose writable) (.ret 0)

variable {s s' : Shared τ} {t : τ} {pc pc' : Pc} {e : Event τ}

omit [DecidableEq τ] in
theorem acquire_eq_some (h : s.acquire t = some s') :
    s.lock = none ∧ s' = { s with lock := some t } := by
  unfold Shared.acquire at h
  split at h
  · next hlock =>
    cases h
    exact ⟨Option.isNone_iff_eq_none.mp hlock.1, rfl⟩
  · cases h

theorem step_of_act (h : act s t pc e = some (s', pc')) : Step s t pc e s' pc' := by
  unfold act at h
  split at h
  swap
  · cases h
  unfold next at h
  split at h
  case h_1 | h_2 =>
    split at h <;> cases h
    exact .enter rfl
  case h_3 =>
    cases h
    exact .enter rfl
  case h_4 u =>
    cases h
    exact .kill u
  case h_5 n =>
    obtain ⟨x, hx, hs'⟩ := Option.map_eq_some_iff.mp h
    cases hs'
    obtain ⟨hlock, rfl⟩ := acquire_eq_some hx
    exact .lockWrite rfl hlock (Or.inl rfl)
  case h_6 n i =>
    split at h
    · next hi =>
      split at h <;> cases h
      · next hfull => exact .full hi hfull
      · next hfull => exact .space hi hfull
    · next hi =>
      cases h
      exact .written (not_lt.mp hi)
  case h_7 =>
    split at h <;> cases h
    · next hbroken => exact .broken hbroken
    · exact .announce
  case h_8 =>
    cases h
    exact .sleepWrite
  case h_9 n i =>
    obtain ⟨x, hx, hs'⟩ := Option.map_eq_some_iff.mp h
    cases hs'
    obtain ⟨hlock, rfl⟩ := acquire_eq_some hx
    exact .lockWrite rfl hlock (Or.inr rfl)
  case h_10 | h_12 | h_18 | h_20 =>
    split at h <;> cases h
    exact .fault rfl rfl
  case h_11 =>
    split at h <;> cases h
    next hsrc => exact .copyIn1 hsrc
  case h_13 =>
    split at h <;> cases h
    next hsrc => exact .copyIn2 hsrc
  case h_14 | h_17 =>
    obtain ⟨x, hx, hs'⟩ := Option.map_eq_some_iff.mp h
    cases hs'
    obtain ⟨hlock, rfl⟩ := acquire_eq_some hx
    exact .lockRead rfl hlock
  case h_15 n =>
    split at h
    · next hempty =>
      split at h <;> cases h
      · exact .stop hempty.1
      · exact .empty hempty.1 hempty.2
    · next hready =>
      cases h
      exact .ready hready
  case h_16 =>
    cases h
    exact .sleepRead
  case h_19 =>
    cases h
    exact .copyOut1
  case h_21 =>
    cases h
    exact .copyOut2
  case h_22 =>
    cases h
    exact .wakeWriters
  case h_23 =>
    split at h <;> cases h
    next hlock => exact .close (Option.isNone_iff_eq_none.mp hlock.1)
  case h_24 =>
    cases h
    exact .leave _
  case h_25 => cases h

/-- How the lengths that a thread has computed lie in the buffer. -/
def Pc.Valid (p : Buffer) : Pc → Prop
  | .writeFull n i | .writeSleep n i => i < n ∧ p.Full
  | .writeCopy1 n i bytes chunk => i < n ∧ bytes = p.writeBytes n i ∧ chunk = chunk1 p.nwrite bytes
  | .writeCopy2 n i bytes chunk src =>
      haveI := Buffer.neZero_pipesize
      i < n ∧ bytes = p.writeBytes n i ∧ chunk = chunk1 p.nwrite bytes ∧
        src = Circular.segment p.data p.nwrite chunk
  | .readSleep _ => p.nread = p.nwrite ∧ p.writeopen = true
  | .readCopy1 bytes chunk => bytes ≤ p.size ∧ chunk = chunk1 p.nread bytes
  | .readCopy2 bytes chunk dst =>
      bytes ≤ p.size ∧ chunk = chunk1 p.nread bytes ∧ dst = p.copyOut1 chunk
  | _ => True

theorem Pc.holds_of_copies (h : pc.copies = true) : pc.holds = true := by
  cases pc <;> trivial

theorem Pc.Valid.of_not_holds {p : Buffer} (h : pc.holds = false) : pc.Valid p := by
  cases pc <;> trivial

/-- What a thread knows. -/
structure Local (s : Shared τ) (t : τ) (pc : Pc) : Prop where
  lock : s.lock = some t ↔ pc.holds = true
  valid : pc.Valid s.buf

omit [DecidableEq τ] in
theorem Local.of_holds (hlock : s.lock = some t) (hpc : pc.holds = true) (h : pc.Valid s.buf) :
    Local s t pc :=
  ⟨iff_of_true hlock hpc, h⟩

omit [DecidableEq τ] in
theorem Local.of_not_holds (hlock : s.lock ≠ some t) (hpc : pc.holds = false) : Local s t pc :=
  ⟨iff_of_false hlock (by simp [hpc]), .of_not_holds hpc⟩

/-- The queue that the pipe stands for. -/
def Shared.fifo (s : Shared τ) : Fifo UInt8 := ⟨s.buf.contents, s.published, s.delivered⟩

theorem Step.own (h : Step s t pc e s' pc') (hbuf : s.buf.WellFormed) (hloc : Local s t pc) :
    s'.buf.WellFormed ∧ Local s' t pc' := by
  obtain ⟨hlock, hvalid⟩ := hloc
  cases h with
  | enter hpc' => exact ⟨hbuf, .of_not_holds (by simp [hlock, Pc.holds]) hpc'⟩
  | kill | leave => exact ⟨hbuf, .of_not_holds (by simp [Shared.kill, hlock, Pc.holds]) rfl⟩
  | lockWrite | lockRead => exact ⟨hbuf, .of_holds rfl rfl trivial⟩
  | full hi hfull => exact ⟨hbuf, .of_holds (hlock.mpr rfl) rfl ⟨hi, hfull⟩⟩
  | space hi => exact ⟨hbuf, .of_holds (hlock.mpr rfl) rfl ⟨hi, rfl, rfl⟩⟩
  | announce => exact ⟨hbuf, .of_holds (hlock.mpr rfl) rfl hvalid⟩
  | written | broken | sleepWrite | fault | stop | sleepRead | wakeWriters =>
    exact ⟨hbuf, .of_not_holds (Option.some_ne_none t).symm rfl⟩
  | @copyIn1 n i bytes chunk src hsrc =>
    obtain ⟨hi, hbytes, hchunk⟩ := hvalid
    refine ⟨⟨hbuf.nread, hbuf.nwrite, hbuf.size⟩, .of_holds (hlock.mpr rfl) rfl ?_⟩
    refine ⟨hi, hbytes, hchunk, ?_⟩
    have hle : s.buf.nwrite % PIPESIZE + src.length ≤ PIPESIZE :=
      hsrc.trans hchunk ▸ Buffer.mod_add_chunk1_le s.buf.nwrite
    rw [Buffer.copyIn1_eq (hsrc.trans hchunk), ← hsrc]
    exact (Circular.segment_put_self (by omega)).symm
  | @copyIn2 _ _ _ _ _ src' =>
    obtain ⟨-, rfl, -⟩ := hvalid
    have hsame : (s.buf.copyIn2 src').WellFormed := ⟨hbuf.nread, hbuf.nwrite, hbuf.size⟩
    refine ⟨hsame.publish (Buffer.size_add_writeBytes (p := s.buf) hbuf), ?_⟩
    exact .of_holds (hlock.mpr rfl) rfl trivial
  | empty hempty hopen => exact ⟨hbuf, .of_holds (hlock.mpr rfl) rfl ⟨hempty, hopen⟩⟩
  | ready => exact ⟨hbuf, .of_holds (hlock.mpr rfl) rfl ⟨Buffer.readBytes_le, rfl⟩⟩
  | copyOut1 => exact ⟨hbuf, .of_holds (hlock.mpr rfl) rfl ⟨hvalid.1, hvalid.2, rfl⟩⟩
  | copyOut2 => exact ⟨hbuf.consume hvalid.1, .of_holds (hlock.mpr rfl) rfl trivial⟩
  | @close writable hnone =>
    have hsame : (s.pipeclose writable).lock = none := by
      cases writable <;> exact hnone
    refine ⟨?_, .of_not_holds (by simp [hsame]) rfl⟩
    cases writable <;> exact ⟨hbuf.nread, hbuf.nwrite, hbuf.size⟩

theorem Step.lock_eq (h : Step s t pc e s' pc') :
    s'.lock = s.lock ∨ s'.lock = none ∨ s'.lock = some t := by
  cases h with
  | @close writable => exact Or.inl (by cases writable <;> rfl)
  | lockWrite | lockRead => exact Or.inr (Or.inr rfl)
  | enter | kill | leave | full | space | announce | copyIn1 | copyIn2 => exact Or.inl rfl
  | empty | ready | copyOut1 | copyOut2 => exact Or.inl rfl
  | _ =>
    exact Or.inr (Or.inl rfl)

theorem Step.other (h : Step s t pc e s' pc') (hloc : Local s t pc) {u : τ} (hu : u ≠ t)
    (hlock : s.lock = some u) :
    s'.lock = some u ∧ s'.buf = s.buf ∧ ∀ v x, s'.sleeping v = some x → s.sleeping v = some x := by
  have hpc : pc.holds = false := by
    rw [← Bool.not_eq_true, ← hloc.lock, hlock]
    exact fun heq => hu (Option.some.inj heq)
  cases h with
  | enter | leave => exact ⟨hlock, rfl, fun _ _ hv => hv⟩
  | kill w =>
    refine ⟨hlock, rfl, fun v x hv => ?_⟩
    by_cases hw : v = w
    · simp [Shared.kill, hw] at hv
    · simpa [Shared.kill, hw] using hv
  | lockWrite _ hnone | lockRead _ hnone | close hnone => simp [hlock] at hnone
  | fault hcopies => simp [Pc.holds_of_copies hcopies] at hpc
  | full | space | written | broken | announce | sleepWrite | copyIn1 | copyIn2 => cases hpc
  | _ => cases hpc

theorem Step.stable (h : Step s t pc e s' pc') (hloc : Local s t pc) {u : τ} {pcu : Pc}
    (hlocu : Local s u pcu) (hu : u ≠ t) : Local s' u pcu := by
  cases hpc : pcu.holds with
  | false =>
    refine .of_not_holds (fun hlock => ?_) hpc
    rcases h.lock_eq with heq | heq | heq
    · have := hlocu.lock.mp (heq.symm.trans hlock)
      simp [hpc] at this
    · simp [hlock] at heq
    · exact hu (Option.some.inj (hlock.symm.trans heq))
  | true =>
    obtain ⟨hlock, hsame, -⟩ := h.other hloc hu (hlocu.lock.mpr hpc)
    exact .of_holds hlock hpc (hsame ▸ hlocu.valid)

/-- What a transition does to the queue: bytes are published by the second copy of a
`pipewrite` that succeeds, and delivered by that of a `piperead`. -/
inductive Moves (s : Shared τ) (pc : Pc) (e : Event τ) (s' : Shared τ) : Prop
  | stay (h : s'.fifo = s.fifo)
  | publish {n i bytes chunk : ℕ} {src src' : List UInt8}
      (hpc : pc = .writeCopy2 n i bytes chunk src) (he : e = .copyFromUser (some src'))
      (hcap : s.fifo.queue.length + (src ++ src').length ≤ PIPESIZE)
      (h : s'.fifo = s.fifo.publish (src ++ src'))
  | deliver {bytes chunk : ℕ} {dst : List UInt8} (hpc : pc = .readCopy2 bytes chunk dst)
      (he : e = .copyToUser true) (hle : bytes ≤ s.fifo.queue.length)
      (h : s'.fifo = s.fifo.deliver bytes)

theorem contents_copyIn1 {p : Buffer} {bytes : ℕ} {src : List UInt8} (h : p.WellFormed)
    (hb : p.size + bytes ≤ PIPESIZE) (hsrc : src.length = chunk1 p.nwrite bytes) :
    (p.copyIn1 src).contents = p.contents := by
  have hle := Buffer.chunk1_le p.nwrite bytes
  rw [Buffer.copyIn1_eq hsrc]
  exact Buffer.contents_put h (by omega)

theorem contents_copyIn2 {p : Buffer} {bytes chunk : ℕ} {src src' : List UInt8} (h : p.WellFormed)
    (hb : p.size + bytes ≤ PIPESIZE) (hchunk : chunk = chunk1 p.nwrite bytes)
    (hsrc : src = Circular.segment p.data p.nwrite chunk) (hsrc' : src'.length = bytes - chunk) :
    ((p.copyIn2 src').publish bytes).contents = p.contents ++ (src ++ src') := by
  have hlen : src.length = chunk := by rw [hsrc, Circular.length_segment]
  have hle := Buffer.chunk1_le p.nwrite bytes
  have hbytes : (src ++ src').length = bytes := by
    rw [List.length_append]
    omega
  -- the first copy has already been made
  have hcopy : p.copyIn1 src = p := by
    rw [Buffer.copyIn1_eq (hlen.trans hchunk), hsrc, Circular.put_segment]
  have hboth := Buffer.copyIn2_copyIn1 (p := p) (by omega) (hlen.trans hchunk)
    (hsrc'.trans (by rw [hlen]))
  rw [hcopy] at hboth
  rw [hboth, ← hbytes]
  exact Buffer.contents_append h (by omega)

theorem Step.moves (h : Step s t pc e s' pc') (hbuf : s.buf.WellFormed) (hloc : Local s t pc) :
    Moves s pc e s' := by
  obtain ⟨-, hvalid⟩ := hloc
  cases h with
  | copyIn1 hsrc =>
    obtain ⟨-, rfl, hchunk⟩ := hvalid
    refine .stay ?_
    simp only [Shared.fifo,
      contents_copyIn1 hbuf (Buffer.size_add_writeBytes hbuf) (hsrc.trans hchunk)]
  | @copyIn2 n i bytes chunk src src' hsrc' =>
    obtain ⟨-, hbytes, hchunk, hsrc⟩ := hvalid
    have hcap : s.buf.size + bytes ≤ PIPESIZE := hbytes ▸ Buffer.size_add_writeBytes hbuf
    refine .publish rfl rfl ?_ ?_
    · have hle := Buffer.chunk1_le s.buf.nwrite bytes
      simp only [Shared.fifo, Buffer.contents, hsrc, List.length_append, Circular.length_segment]
      omega
    · simp only [Shared.fifo, Fifo.publish, contents_copyIn2 hbuf hcap hchunk hsrc hsrc']
  | copyOut2 =>
    obtain ⟨hle, rfl, rfl⟩ := hvalid
    obtain ⟨hdrop, htake⟩ := Buffer.contents_consume hbuf hle
    refine .deliver rfl rfl (by simpa [Shared.fifo, Buffer.contents] using hle) ?_
    have hsize := hbuf.size
    simp only [Shared.fifo, Fifo.deliver, hdrop, ← htake,
      Buffer.copyOut1_append_copyOut2 (hle.trans hsize)]
  | @close writable => exact .stay (by cases writable <;> rfl)
  | enter | kill | leave | lockWrite | lockRead | full | space | written | broken => exact .stay rfl
  | announce | sleepWrite | fault | stop | empty | ready | sleepRead => exact .stay rfl
  | copyOut1 | wakeWriters => exact .stay rfl

section

variable {c : State τ}

theorem invariant {ok : State τ → τ × Event τ → Prop} (h : Reach (pipe τ) ok c) :
    c.shared.buf.WellFormed ∧ ∀ t, Local c.shared t (c.loc t) := by
  refine Interleaving.invariant (I := fun s => s.buf.WellFormed) (A := Local) ?_ ?_ ?_ h
  · rintro c ⟨hbuf, hlock, -, -, -, huser⟩
    refine ⟨hbuf, fun t => ?_⟩
    rw [huser t]
    exact .of_not_holds (by simp [hlock]) rfl
  · intro c t e s' pc' hbuf hloc _ hact
    exact (step_of_act hact).own hbuf hloc
  · intro c t u e s' pc' hu hbuf hloc hlocu _ hact
    exact (step_of_act hact).stable hloc hlocu hu

end

end KThreads.Pipe

namespace KThreads.Pipe

open Transition (Reach anyStep)
open Buffer (chunk1)

variable {τ : Type*} [DecidableEq τ]

section

variable {c c' : State τ} {l : τ × Event τ}

theorem step_of_next (hstep : (pipe τ).step c l c') :
    Step c.shared l.1 (c.loc l.1) l.2 c'.shared (c'.loc l.1) := by
  obtain ⟨⟨s', pc'⟩, hact, rfl⟩ := Option.map_eq_some_iff.mp hstep
  simpa using step_of_act hact

theorem moves_of_next {ok : State τ → τ × Event τ → Prop} (h : Reach (pipe τ) ok c)
    (hstep : (pipe τ).step c l c') : Moves c.shared (c.loc l.1) l.2 c'.shared :=
  (step_of_next hstep).moves (invariant h).1 ((invariant h).2 l.1)

theorem reach_fifo (h : Reach (pipe τ) anyStep c) :
    Reach (Fifo.system UInt8 PIPESIZE) anyStep c.shared.fifo := by
  refine h.simulate (f := fun c => c.shared.fifo) ?_ ?_
  · intro c h0
    refine ⟨?_, h0.published, h0.delivered⟩
    simpa [Shared.fifo, Buffer.contents] using h0.buf.size
  · intro c l c' hr _ _ hstep
    cases moves_of_next hr hstep with
    | stay h => exact .stay h
    | publish hpc he hcap h => exact .move (m := .publish _) ⟨hcap, rfl⟩ trivial h
    | deliver hpc he hle h => exact .move (m := .deliver _) ⟨hle, rfl⟩ trivial h

theorem Step.fails_eq {s s' : Shared τ} {t : τ} {pc pc' : Pc} {e : Event τ}
    (h : Step s t pc e s' pc') (he : e.fails = true) (hpc : pc.copies = true) : s' = s.release := by
  cases h with
  | fault => rfl
  | copyIn1 | copyIn2 | copyOut1 | copyOut2 => cases he
  | lockWrite hpc' | lockRead hpc' => simp [Pc.holds_of_copies hpc] at hpc'
  | enter | kill | leave | full | space | written | broken | announce | sleepWrite => cases hpc
  | _ => cases hpc

end

/-- The pipe is a queue of at most `PIPESIZE` bytes. What `piperead` delivers is a
prefix of what `pipewrite` publishes; bytes are published and delivered by the last
copy of an iteration only, a copy that fails changes nothing; and the two copies do
what the loops over single bytes do. -/
theorem pipe_refines_fifo {c : State τ} (h : Reach (pipe τ) anyStep c) :
    Reach (Fifo.system UInt8 PIPESIZE) anyStep c.shared.fifo ∧
    c.shared.buf.size ≤ PIPESIZE ∧
    c.shared.delivered <+: c.shared.published ∧
    (∀ l c', (pipe τ).step c l c' → Moves c.shared (c.loc l.1) l.2 c'.shared) ∧
    (∀ l c', (pipe τ).step c l c' → l.2.fails = true → (c.loc l.1).copies = true →
      c'.shared.buf = c.shared.buf ∧ c'.shared.fifo = c.shared.fifo) ∧
    (∀ (n i : ℕ) (bs : List UInt8), bs.length = n - i →
      let bytes := c.shared.buf.writeBytes n i
      let chunk := chunk1 c.shared.buf.nwrite bytes
      ((c.shared.buf.copyIn1 (bs.take chunk)).copyIn2 ((bs.take bytes).drop chunk)).publish bytes =
        c.shared.buf.byteWrite bs) ∧
    (∀ n : ℕ, let bytes := c.shared.buf.readBytes n
      let chunk := chunk1 c.shared.buf.nread bytes
      (c.shared.buf.copyOut1 chunk ++ c.shared.buf.copyOut2 (bytes - chunk),
        c.shared.buf.consume bytes) = c.shared.buf.byteRead n) := by
  obtain ⟨hbuf, -⟩ := invariant h
  have hfifo := reach_fifo h
  refine ⟨hfifo, hbuf.size, ?_, ?_, ?_, ?_, ?_⟩
  · exact ⟨c.shared.fifo.queue, (Fifo.published_eq hfifo).1.symm⟩
  · exact fun l c' hstep => moves_of_next h hstep
  · intro l c' hstep he hpc
    rw [(step_of_next hstep).fails_eq he hpc]
    exact ⟨rfl, rfl⟩
  · exact fun n i bs hbs => Buffer.copyIn_eq_byteWrite hbuf hbs
  · exact fun n => Buffer.copyOut_eq_byteRead hbuf n

/-- A pipe whose counters and whose buffer are about to wrap. -/
def wrapping : State (Fin 2) where
  shared := { (pipealloc (τ := Fin 2) fun _ => 0).shared with
    buf := ⟨fun _ => 0, 4294967294, 4294967294, true, true⟩ }
  loc _ := .user

theorem initial_wrapping : wrapping.initial where
  buf := ⟨(by decide : 4294967294 < 4294967296), (by decide : 4294967294 < 4294967296),
    Nat.zero_le _⟩
  lock := rfl
  sleeping _ := rfl
  published := rfl
  delivered := rfl
  user _ := rfl

set_option maxRecDepth 8000 in
/-- A write of three bytes across the wrap, and a read of two of them. -/
theorem pipe_refines_fifo_wrapping :
    ∃ c : State (Fin 2), c.shared.buf.nwrite = 1 ∧ c.shared.buf.nread = 0 ∧
      c.shared.delivered = [1, 2] ∧ c.shared.published = [1, 2, 3] ∧
      c.shared.delivered <+: c.shared.published := by
  obtain ⟨c, -, hr, hw, hread, hdel, hpub⟩ := Interleaving.exists_of_script act initial_wrapping
    [(0, .pipewrite 3), (0, .run), (0, .run), (0, .copyFromUser (some [1, 2])),
      (0, .copyFromUser (some [3])), (0, .run), (1, .piperead 2), (1, .run), (1, .run),
      (1, .copyToUser true), (1, .copyToUser true)]
    (fun c => c.shared.buf.nwrite = 1 ∧ c.shared.buf.nread = 0 ∧
      c.shared.delivered = [1, 2] ∧ c.shared.published = [1, 2, 3]) (by decide)
  exact ⟨c, hw, hread, hdel, hpub, (pipe_refines_fifo hr).2.2.1⟩

section

/-- A thread that sleeps on `&p->nread` has nothing to read. -/
def Announced (s : Shared τ) : Prop :=
  ∀ u, s.sleeping u = some .nread → s.buf.nread = s.buf.nwrite ∧ s.buf.writeopen = true

/-- A thread that sleeps on `&p->nwrite` has no room to write. -/
def Occupied (s : Shared τ) : Prop := ∀ u, s.sleeping u = some .nwrite → s.buf.Full

/-- What the holder of the lock has still to announce: a writer at the head of its
loop may have published bytes that have filled the pipe or were its last ones, and a
reader has consumed bytes before it wakes the writers. -/
def Pc.Wakes (s : Shared τ) : Pc → Prop
  | .writeLoop n i => (Announced s ∨ n ≤ i ∨ s.buf.Full) ∧ Occupied s
  | .writeFull .. => Occupied s
  | .readWakeup _ => Announced s
  | _ => Announced s ∧ Occupied s

/-- When a `pipewrite` gives up on a full pipe, no reader sleeps. -/
def Shared.announces (s : Shared τ) (t : τ) : Pc → Event τ → Prop
  | .writeFull _ _, .run =>
      s.buf.readopen = false ∨ s.killed t = true → ∀ u, s.sleeping u ≠ some .nread
  | _, _ => True

/-- No `pipewrite` of the run gives up on a full pipe while a reader sleeps. -/
abbrev announces (c : State τ) (l : τ × Event τ) : Prop := c.shared.announces l.1 (c.loc l.1) l.2

instance [Fintype τ] (s : Shared τ) (t : τ) (pc : Pc) (e : Event τ) :
    Decidable (s.announces t pc e) := by
  unfold Shared.announces
  split <;> infer_instance

variable {s s' : Shared τ} {t : τ} {pc pc' : Pc} {e : Event τ}

omit [DecidableEq τ] in
theorem Announced.mono (h : Announced s) (hbuf : s'.buf.nread = s.buf.nread)
    (hw : s'.buf.nwrite = s.buf.nwrite) (hopen : s'.buf.writeopen = s.buf.writeopen)
    (hsub : ∀ u, s'.sleeping u = some .nread → s.sleeping u = some .nread) : Announced s' := by
  intro u hu
  rw [hbuf, hw, hopen]
  exact h u (hsub u hu)

omit [DecidableEq τ] in
theorem Occupied.mono (h : Occupied s) (hfull : s.buf.Full → s'.buf.Full)
    (hsub : ∀ u, s'.sleeping u = some .nwrite → s.sleeping u = some .nwrite) : Occupied s' :=
  fun u hu => hfull (h u (hsub u hu))

omit [DecidableEq τ] in
theorem sleeping_of_wakeup {x y : Chan} {u : τ} (h : (s.wakeup x).sleeping u = some y) :
    s.sleeping u = some y ∧ y ≠ x := by
  simp only [Shared.wakeup] at h
  split at h
  · cases h
  · next hne => exact ⟨h, fun heq => hne (heq ▸ h)⟩

omit [DecidableEq τ] in
theorem announced_wakeup : Announced (s.wakeup .nread) :=
  fun _ hu => absurd rfl (sleeping_of_wakeup hu).2

omit [DecidableEq τ] in
theorem occupied_wakeup : Occupied (s.wakeup .nwrite) :=
  fun _ hu => absurd rfl (sleeping_of_wakeup hu).2

omit [DecidableEq τ] in
theorem Announced.wakeup (h : Announced s) (x : Chan) : Announced (s.wakeup x) :=
  h.mono rfl rfl rfl fun _ hu => (sleeping_of_wakeup hu).1

omit [DecidableEq τ] in
theorem Occupied.wakeup (h : Occupied s) (x : Chan) : Occupied (s.wakeup x) :=
  h.mono id fun _ hu => (sleeping_of_wakeup hu).1

theorem announced_kill (h : Announced s) (u : τ) : Announced (s.kill u) := by
  refine h.mono rfl rfl rfl fun v hv => ?_
  by_cases hu : v = u
  · simp [Shared.kill, hu] at hv
  · simpa [Shared.kill, hu] using hv

theorem occupied_kill (h : Occupied s) (u : τ) : Occupied (s.kill u) := by
  refine h.mono id fun v hv => ?_
  by_cases hu : v = u
  · simp [Shared.kill, hu] at hv
  · simpa [Shared.kill, hu] using hv

theorem sleeping_of_sleep {x y : Chan} {u : τ} (h : (s.sleep t x).sleeping u = some y) :
    s.sleeping u = some y ∨ y = x := by
  by_cases hu : u = t
  · subst hu
    simp only [Shared.sleep, Function.update_self, Option.some.injEq] at h
    exact Or.inr h.symm
  · exact Or.inl (by simpa [Shared.sleep, hu] using h)

omit [DecidableEq τ] in
theorem Pc.Wakes.of_copies (h : pc.Wakes s) (hpc : pc.copies = true) :
    Announced s ∧ Occupied s := by
  cases pc <;> first | exact h | cases hpc

omit [DecidableEq τ] in
theorem Pc.Wakes.mono (h : pc.Wakes s) (hbuf : s'.buf = s.buf)
    (hsub : ∀ u x, s'.sleeping u = some x → s.sleeping u = some x) : pc.Wakes s' := by
  have hann : Announced s → Announced s' := fun h =>
    h.mono (by rw [hbuf]) (by rw [hbuf]) (by rw [hbuf]) fun u => hsub u _
  have hocc : Occupied s → Occupied s' := fun h =>
    h.mono (by rw [hbuf]; exact id) fun u => hsub u _
  cases pc with
  | writeLoop n i => exact ⟨h.1.imp hann (Or.imp id (by rw [hbuf]; exact id)), hocc h.2⟩
  | writeFull => exact hocc h
  | readWakeup => exact hann h
  | user | pipewrite | writeSleep | writeWoken | writeCopy1 | writeCopy2 =>
    exact ⟨hann h.1, hocc h.2⟩
  | _ =>
    exact ⟨hann h.1, hocc h.2⟩

theorem Step.wakes (h : Step s t pc e s' pc') (hbuf : s.buf.WellFormed) (hloc : Local s t pc)
    (hfree : s.lock = none → Announced s ∧ Occupied s) (hpc : pc.holds = true → pc.Wakes s)
    (hok : s.announces t pc e) :
    (s'.lock = none → Announced s' ∧ Occupied s') ∧ (pc'.holds = true → pc'.Wakes s') := by
  have hvalid := hloc.valid
  have hheld : pc.holds = true → s.lock ≠ none := fun hpc => by simp [hloc.lock.mpr hpc]
  cases h with
  | enter hpc' => exact ⟨hfree, by simp [hpc']⟩
  | kill u =>
    refine ⟨fun hnone => ?_, nofun⟩
    exact ⟨announced_kill (hfree hnone).1 u, occupied_kill (hfree hnone).2 u⟩
  | leave => exact ⟨hfree, nofun⟩
  | lockWrite _ hnone => exact ⟨nofun, fun _ => ⟨Or.inl (hfree hnone).1, (hfree hnone).2⟩⟩
  | lockRead _ hnone => exact ⟨nofun, fun _ => hfree hnone⟩
  | full hi hfull => exact ⟨fun hnone => absurd hnone (hheld rfl), fun _ => (hpc rfl).2⟩
  | space hi hfull =>
    refine ⟨fun hnone => absurd hnone (hheld rfl), fun _ => ⟨?_, (hpc rfl).2⟩⟩
    -- with room in the pipe and bytes left, the loop has published nothing yet
    rcases (hpc rfl).1 with hann | hdone | hfull'
    · exact hann
    · omega
    · exact absurd hfull' hfull
  | written => exact ⟨fun _ => ⟨announced_wakeup, (hpc rfl).2.wakeup _⟩, nofun⟩
  | broken hbroken =>
    have hnone : Announced s := fun u hu => absurd hu (hok hbroken u)
    exact ⟨fun _ => ⟨hnone, hpc rfl⟩, nofun⟩
  | announce =>
    refine ⟨fun hnone => absurd hnone (hheld rfl), fun _ => ⟨announced_wakeup, ?_⟩⟩
    exact Occupied.wakeup (hpc rfl) _
  | sleepWrite =>
    obtain ⟨hann, hocc⟩ := hpc rfl
    refine ⟨fun _ => ⟨fun u hu => ?_, fun u hu => hvalid.2⟩, nofun⟩
    exact hann u ((sleeping_of_sleep hu).resolve_right nofun)
  | fault hcopies =>
    exact ⟨fun _ => (hpc (Pc.holds_of_copies hcopies)).of_copies hcopies, nofun⟩
  | copyIn1 =>
    exact ⟨fun hnone => absurd hnone (hheld rfl), fun _ => hpc rfl⟩
  | @copyIn2 n i bytes chunk src src' =>
    obtain ⟨hann, hocc⟩ := hpc rfl
    obtain ⟨hi, hbytes, -⟩ := hvalid
    have hsame : (s.buf.copyIn2 src').WellFormed := ⟨hbuf.nread, hbuf.nwrite, hbuf.size⟩
    have hroom : s.buf.size + bytes ≤ PIPESIZE := hbytes ▸ Buffer.size_add_writeBytes hbuf
    have hwf := hsame.publish hroom
    have hsize : ((s.buf.copyIn2 src').publish bytes).size = s.buf.size + bytes :=
      Buffer.size_publish hsame hroom
    rw [Buffer.writeBytes_eq hbuf] at hbytes
    refine ⟨fun hnone => absurd hnone (hheld rfl), fun _ => ⟨Or.inr ?_, ?_⟩⟩
    · rw [Buffer.full_iff hwf, hsize]
      omega
    · refine hocc.mono (fun hfull => ?_) fun _ hu => hu
      rw [Buffer.full_iff hbuf] at hfull
      rw [Buffer.full_iff hwf, hsize]
      omega
  | stop => exact ⟨fun _ => hpc rfl, nofun⟩
  | empty | ready | copyOut1 => exact ⟨fun hnone => absurd hnone (hheld rfl), fun _ => hpc rfl⟩
  | sleepRead =>
    obtain ⟨hann, hocc⟩ := hpc rfl
    refine ⟨fun _ => ⟨fun u hu => hvalid, fun u hu => ?_⟩, nofun⟩
    exact hocc u ((sleeping_of_sleep hu).resolve_right nofun)
  | @copyOut2 bytes =>
    obtain ⟨hann, -⟩ := hpc rfl
    refine ⟨fun hnone => absurd hnone (hheld rfl), fun _ u hu => ?_⟩
    obtain ⟨hempty, hopen⟩ := hann u hu
    refine ⟨?_, hopen⟩
    rw [Buffer.empty_iff hbuf] at hempty
    rw [Buffer.empty_iff (hbuf.consume hvalid.1), Buffer.size_consume hbuf hvalid.1, hempty,
      Nat.zero_sub]
  | wakeWriters => exact ⟨fun _ => ⟨(hpc rfl).wakeup _, occupied_wakeup⟩, nofun⟩
  | @close writable hnone =>
    obtain ⟨hann, hocc⟩ := hfree hnone
    refine ⟨fun _ => ?_, nofun⟩
    cases writable with
    | true => exact ⟨announced_wakeup, Occupied.wakeup (hocc.mono id fun _ hu => hu) _⟩
    | false => exact ⟨Announced.wakeup (hann.mono rfl rfl rfl fun _ hu => hu) _, occupied_wakeup⟩

end

/-- While the lock of the pipe is free, no reader sleeps if there is something to read
or the last writer is gone, and no writer sleeps if there is room: as long as no
`pipewrite` gives up on a full pipe while a reader sleeps. -/
theorem sleepers_have_reason {c : State τ} (h : Reach (pipe τ) announces c)
    (hfree : c.shared.lock = none) :
    (∀ u, c.shared.sleeping u = some .nread →
      c.shared.buf.nread = c.shared.buf.nwrite ∧ c.shared.buf.writeopen = true) ∧
    (∀ u, c.shared.sleeping u = some .nwrite → c.shared.buf.Full) := by
  have hinv := Interleaving.invariant
    (I := fun s => s.buf.WellFormed ∧ (s.lock = none → Announced s ∧ Occupied s))
    (A := fun s t pc => Local s t pc ∧ (pc.holds = true → pc.Wakes s)) ?_ ?_ ?_ h
  · exact hinv.1.2 hfree
  · rintro c ⟨hbuf, hlock, hawake, -, -, huser⟩
    refine ⟨⟨hbuf, fun _ => ⟨fun u hu => ?_, fun u hu => ?_⟩⟩, fun t => ?_⟩
    · simp [hawake u] at hu
    · simp [hawake u] at hu
    · rw [huser t]
      exact ⟨.of_not_holds (by simp [hlock]) rfl, nofun⟩
  · rintro c t e s' pc' ⟨hbuf, hfree⟩ ⟨hloc, hpc⟩ hok hact
    have hstep := step_of_act hact
    obtain ⟨hbuf', hloc'⟩ := hstep.own hbuf hloc
    obtain ⟨hfree', hpc'⟩ := hstep.wakes hbuf hloc hfree hpc hok
    exact ⟨⟨hbuf', hfree'⟩, hloc', hpc'⟩
  · rintro c t u e s' pc' hu - ⟨hloc, -⟩ ⟨hlocu, hpcu⟩ - hact
    have hstep := step_of_act hact
    refine ⟨hstep.stable hloc hlocu hu, fun hholds => ?_⟩
    obtain ⟨-, hsame, hsub⟩ := hstep.other hloc hu (hlocu.lock.mpr hholds)
    exact (hpcu hholds).mono hsame hsub

set_option maxRecDepth 8000 in
/-- A reader sleeps again after it has read what a writer had announced to it. -/
theorem sleepers_have_reason_reader :
    ∃ c : State (Fin 2), c.shared.lock = none ∧ c.shared.delivered = [7] ∧
      c.shared.sleeping 0 = some .nread ∧ c.shared.buf.nread = c.shared.buf.nwrite := by
  obtain ⟨c, -, hr, hlock, hdel, hsleep⟩ := Interleaving.exists_of_scriptWhile act
    (initial_pipealloc fun _ => 0) announces
    [(0, .piperead 1), (0, .run), (0, .run), (0, .run), (1, .pipewrite 1), (1, .run), (1, .run),
      (1, .copyFromUser (some [7])), (1, .copyFromUser (some [])), (1, .run), (0, .run), (0, .run),
      (0, .copyToUser true), (0, .copyToUser true), (0, .run), (0, .run), (0, .piperead 1),
      (0, .run), (0, .run), (0, .run)]
    (fun c : State (Fin 2) => c.shared.lock = none ∧ c.shared.delivered = [7] ∧
      c.shared.sleeping 0 = some .nread) (by decide)
  exact ⟨c, hlock, hdel, hsleep, ((sleepers_have_reason hr hlock).1 0 hsleep).1⟩

set_option maxRecDepth 8000 in
/-- A writer of 513 bytes fills the pipe, is killed and returns: the reader sleeps on
with 512 bytes to read. -/
theorem reader_sleeps_on_full_pipe :
    ∃ c : State (Fin 3), Reach (pipe (Fin 3)) anyStep c ∧ c.shared.lock = none ∧
      c.shared.sleeping 0 = some .nread ∧ c.loc 0 = .readWoken 1 ∧ c.loc 1 = .ret (-1) ∧
      c.shared.buf.nread = 0 ∧ c.shared.buf.nwrite = 512 := by
  obtain ⟨c, -, hc⟩ := Interleaving.exists_of_script act (initial_pipealloc fun _ => 0)
    [(0, .piperead 1), (0, .run), (0, .run), (0, .run), (1, .pipewrite 513), (1, .run), (1, .run),
      (1, .copyFromUser (some (List.replicate 512 7))), (1, .copyFromUser (some [])),
      (2, .kill 1), (1, .run), (1, .run)]
    (fun c : State (Fin 3) => c.shared.lock = none ∧ c.shared.sleeping 0 = some .nread ∧
      c.loc 0 = .readWoken 1 ∧ c.loc 1 = .ret (-1) ∧ c.shared.buf.nread = 0 ∧
      c.shared.buf.nwrite = 512) (by decide)
  exact ⟨c, hc⟩

end KThreads.Pipe
