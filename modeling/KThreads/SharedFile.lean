import KThreads.Files.Write
import KThreads.Inodes

/-!
# The offset of a shared file

The offset of a `struct file` is read and advanced under the lock of the inode. So the writes
of the threads follow one another: what was written is the buffers of the calls, one behind
the other in the order in which the threads got the lock, and the offset is behind the last
one whenever the lock is free.
-/

namespace KThreads.FileWrite

open Function (update)
open Inode (Layout Slot Inv fileByte MAXFILE BSIZE)
open Transition (Reach)

variable {τ : Type*}

/-- The bytes that were written. -/
def Shared.written (s : Shared τ) : List UInt8 := (s.done.map Prod.snd).flatten

/-- The bytes of the file of an entry of the cache. -/
def contents (L : Layout) (s : Inode.State) (e : Slot) (x : ℕ) : UInt8 :=
  fileByte L (fun _ => s.inode e) s.block (s.entry e).inum x

/-- The buffer that a thread is still to write. -/
def Pc.todo : Pc → Option (List UInt8)
  | .loop buf 0 | .begun buf _ | .locked buf _ | .loaded buf _ _ => some buf
  | .user | .loop _ (_ + 1) | .wrote _ _ _ | .advanced _ _ _ | .unlocked _ _ _ | .returned _ _ => none

/-- A thread has the lock. -/
def Pc.holds : Pc → Bool
  | .locked _ _ | .loaded _ _ _ | .wrote _ _ _ | .advanced _ _ _ => true
  | .user | .loop _ _ | .begun _ _ | .unlocked _ _ _ | .returned _ _ => false

section

variable [DecidableEq τ]

/-- The buffers are small, no copy from user space fails, and the file stays below the largest
size. -/
def fits (c : Threads τ) : τ × Event → Prop
  | (_, .filewrite buf) => buf.length ≤ maxBytes
  | (_, .run) => True
  | (t, .writei copies) => (∀ i < maxBytes, copies i = true) ∧
      match c.loc t with
      | .loaded buf i off => off.toNat + chunk buf i ≤ MAXFILE * BSIZE
      | _ => True

end

/-- The file that the threads share: `D` is its contents at first, `size₀` its size and `off₀`
the offset. -/
structure Grown (L : Layout) (e : Slot) (D : ℕ → UInt8) (size₀ off₀ : ℕ) (s : Shared τ)
    (v : ℕ → Inode.Dinode) : Prop where
  inv : Inv L s.inode v
  ref : 0 < (s.inode.entry e).ref
  type : (v (s.inode.entry e).inum).type = .file
  size : (v (s.inode.entry e).inum).size = max size₀ (off₀ + s.written.length)
  others : ∀ x < size₀, x < off₀ ∨ off₀ + s.written.length ≤ x →
    fileByte L v s.inode.block (s.inode.entry e).inum x = D x
  bytes : ∀ x < s.written.length,
    fileByte L v s.inode.block (s.inode.entry e).inum (off₀ + x) = s.written.getD x 0

/-- What holds of the shared state. -/
structure Shares (L : Layout) (e : Slot) (D : ℕ → UInt8) (size₀ off₀ : ℕ) (s : Shared τ) :
    Prop where
  grown : ∃ v, Grown L e D size₀ off₀ s v
  perm : s.asked.Perm (s.done ++ s.pending)
  free : s.lock = none → s.off.toNat = off₀ + s.written.length

/-- What a thread knows about its buffer and the offset. -/
def Pc.At (e : Slot) (off₀ : ℕ) (s : Shared τ) : Pc → Prop
  | .user => True
  | .loop buf i => buf.length ≤ maxBytes ∧ (i = 0 ∨ i = buf.length)
  | .begun buf i => buf.length ≤ maxBytes ∧ i = 0 ∧ 0 < buf.length
  | .locked buf i => (buf.length ≤ maxBytes ∧ i = 0 ∧ 0 < buf.length) ∧
      (s.inode.entry e).valid = true ∧ s.off.toNat = off₀ + s.written.length
  | .loaded buf i off => (buf.length ≤ maxBytes ∧ i = 0 ∧ 0 < buf.length) ∧
      (s.inode.entry e).valid = true ∧ s.off.toNat = off₀ + s.written.length ∧ off = s.off
  | .wrote buf i r => (buf.length ≤ maxBytes ∧ i = 0 ∧ 0 < buf.length) ∧ r = buf.length ∧
      s.off.toNat + buf.length = off₀ + s.written.length ∧ off₀ + s.written.length < 2 ^ 32
  | .advanced buf i r => (buf.length ≤ maxBytes ∧ i = 0 ∧ 0 < buf.length) ∧ r = buf.length ∧
      s.off.toNat = off₀ + s.written.length
  | .unlocked buf i r => (buf.length ≤ maxBytes ∧ i = 0 ∧ 0 < buf.length) ∧ r = buf.length
  | .returned buf r => r = buf.length

section

variable [DecidableEq τ]

/-- What a thread knows. -/
structure Knows (e : Slot) (off₀ : ℕ) (s : Shared τ) (t : τ) (c : Pc) : Prop where
  pending : s.pending.filter (fun x => x.1 = t) = (c.todo.map fun buf => (t, buf)).toList
  lock : c.holds = true ↔ s.lock = some t
  at_pc : c.At e off₀ s

variable {L : Layout} {e : Slot} {D : ℕ → UInt8} {size₀ off₀ : ℕ} {s s' : Shared τ} {t u : τ}
  {c c' : Pc} {buf : List UInt8}

omit [DecidableEq τ] in
theorem Pc.At.congr (h : c.At e off₀ s)
    (hfile : c.holds = true → s'.inode = s.inode ∧ s'.off = s.off ∧ s'.written = s.written) :
    c.At e off₀ s' := by
  cases c with
  | user | loop | begun | unlocked | returned => exact h
  | _ =>
    obtain ⟨hinode, hoff, hwritten⟩ := hfile rfl
    simp only [Pc.At, hinode, hoff, hwritten] at h ⊢
    exact h

theorem Knows.of_other (h : Knows e off₀ s u c)
    (hpending : s'.pending.filter (fun x => x.1 = u) = s.pending.filter fun x => x.1 = u)
    (hlock : s'.lock = some u ↔ s.lock = some u)
    (hfile : c.holds = true → s'.inode = s.inode ∧ s'.off = s.off ∧ s'.written = s.written) :
    Knows e off₀ s' u c :=
  ⟨hpending.trans h.pending, h.lock.trans hlock.symm, h.at_pc.congr hfile⟩

theorem mem_pending (h : Knows e off₀ s t c) (hc : c.todo = some buf) : (t, buf) ∈ s.pending := by
  have hmem : (t, buf) ∈ s.pending.filter fun x => x.1 = t := by
    rw [h.pending, hc]
    simp
  exact List.mem_of_mem_filter hmem

theorem filter_erase_self (h : Knows e off₀ s t c) (hc : c.todo = some buf) :
    (s.pending.erase (t, buf)).filter (fun x => x.1 = t) = [] := by
  rw [← List.erase_filter, h.pending, hc]
  simp

theorem filter_erase (hu : u ≠ t) (l : List (τ × List UInt8)) :
    (l.erase (t, buf)).filter (fun x => x.1 = u) = l.filter fun x => x.1 = u := by
  rw [← List.erase_filter]
  refine List.erase_of_not_mem fun hmem => hu ?_
  have heq := List.of_mem_filter hmem
  exact (of_decide_eq_true heq).symm

theorem filter_append (hu : u ≠ t) (l : List (τ × List UInt8)) :
    (l ++ [(t, buf)]).filter (fun x => x.1 = u) = l.filter fun x => x.1 = u := by
  simp [List.filter_append, hu.symm]

theorem written_settle (hlen : buf.length ≤ maxBytes) :
    (s.settle t buf 0).written = s.written ++ buf := by
  have hchunk : chunk buf 0 = buf.length := by
    rw [chunk]
    omega
  simp [Shared.settle, Shared.written, hchunk]

theorem perm_settle (hperm : s.asked.Perm (s.done ++ s.pending)) (hmem : (t, buf) ∈ s.pending)
    (hlen : buf.length ≤ maxBytes) :
    (s.settle t buf 0).asked.Perm ((s.settle t buf 0).done ++ (s.settle t buf 0).pending) := by
  have hchunk : chunk buf 0 = buf.length := by
    rw [chunk]
    omega
  simp only [Shared.settle, hchunk, List.drop_zero, List.take_length, List.append_assoc,
    List.singleton_append]
  exact hperm.trans ((List.perm_cons_erase hmem).append_left _)

theorem Grown.writei {v : ℕ → Inode.Dinode} {copies : ℕ → Bool} {st : Inode.State} {r : ℤ}
    (h : Grown L e D size₀ off₀ s v) (hvalid : (s.inode.entry e).valid = true)
    (hoff : s.off.toNat = off₀ + s.written.length) (hlen : buf.length ≤ maxBytes)
    (hcopies : ∀ i < maxBytes, copies i = true)
    (hmax : s.off.toNat + chunk buf 0 ≤ MAXFILE * BSIZE)
    (hw : s.inode.writei L e (fun k => buf.getD (0 + k) 0) s.off (.ofNat (chunk buf 0)) copies 0 =
      some (st, r)) :
    r = buf.length ∧ ∃ v', Grown L e D size₀ off₀ ({ s with inode := st }.settle t buf 0) v' := by
  obtain ⟨hl, hview⟩ := h.inv.locked h.ref hvalid
  have hself := h.inv.cached e h.ref hvalid
  have hsize := h.size
  have htype := h.type
  rw [hself] at hsize htype
  have hchunk : chunk buf 0 = buf.length := by
    rw [chunk]
    omega
  have hn : (UInt32.ofNat (chunk buf 0)).toNat = buf.length := by
    rw [hchunk, UInt32.toNat_ofNat']
    refine Nat.mod_eq_of_lt (hlen.trans_lt (by decide))
  rw [hchunk] at hmax
  obtain ⟨hr, hentry, htype', hsize', hbytes⟩ := hl.writei (by rw [htype]; nofun) (by omega)
    (by rw [hn]; exact hmax) (fun i hi => hcopies i (by omega)) hw
  obtain ⟨v', hv', -⟩ := h.inv.writei hl ⟨h.ref, hvalid⟩ hview hw
  rw [hn] at hr hsize' hbytes
  have hinum : (st.entry e).inum = (s.inode.entry e).inum := by rw [hentry]
  have href : 0 < (st.entry e).ref := by
    rw [hentry]
    exact h.ref
  have hself' : v' (st.entry e).inum = (st.entry e).din := by
    refine hv'.cached e href ?_
    rw [hentry]
    exact hvalid
  -- The bytes, in terms of what the calls see.
  have hfile : ∀ x, fileByte L v' st.block (st.entry e).inum x =
      if s.off.toNat ≤ x ∧ x < s.off.toNat + buf.length then buf.getD (x - s.off.toNat) 0
      else fileByte L v s.inode.block (s.inode.entry e).inum x := by
    intro x
    have hbyte := hbytes (s.inode.entry e).inum x
    rw [hview] at hbyte
    have hview' : v' (st.entry e).inum = st.view v e (st.entry e).inum := by
      rw [hself', Inode.State.view_self]
    rw [Inode.fileByte_congr hview', hinum, hbyte]
    simp only [true_and, Nat.zero_add]
  have hlength : ({ s with inode := st }.settle t buf 0).written.length =
      s.written.length + buf.length := by
    rw [written_settle hlen, List.length_append]
    rfl
  have hwritten : ({ s with inode := st }.settle t buf 0).written = s.written ++ buf :=
    written_settle hlen
  refine ⟨hr, v', hv', href, ?_, ?_, fun x hx hother => ?_, fun x hx => ?_⟩
  · dsimp only [Shared.settle]
    rw [hself', htype', htype]
  · rw [hlength]
    dsimp only [Shared.settle]
    rw [hself', hsize', hsize]
    omega
  · rw [hlength] at hother
    dsimp only [Shared.settle]
    rw [hfile, if_neg (by omega)]
    exact h.others x hx (by omega)
  · rw [hlength] at hx
    rw [hwritten]
    dsimp only [Shared.settle]
    rcases Nat.lt_or_ge x s.written.length with hlt | hge
    · rw [hfile, if_neg (by omega), h.bytes x hlt, List.getD_append _ _ _ _ hlt]
    · rw [hfile, if_pos (by omega), List.getD_append_right _ _ _ _ hge]
      congr 1
      omega

omit [DecidableEq τ] in
theorem Shares.of_same (h : Shares L e D size₀ off₀ s) (hinode : s'.inode = s.inode)
    (hoff : s'.off = s.off) (hlock : s'.lock = s.lock) (hdone : s'.written = s.written)
    (hperm : s'.asked.Perm (s'.done ++ s'.pending)) : Shares L e D size₀ off₀ s' := by
  obtain ⟨⟨v, hv⟩, -, hfree⟩ := h
  refine ⟨⟨v, ?_⟩, hperm, ?_⟩
  · obtain ⟨h₁, h₂, h₃, h₄, h₅, h₆⟩ := hv
    exact ⟨hinode ▸ h₁, hinode ▸ h₂, hinode ▸ h₃, by rw [hinode, hdone]; exact h₄,
      by rw [hinode, hdone]; exact h₅, by rw [hinode, hdone]; exact h₆⟩
  · rw [hlock, hoff, hdone]
    exact hfree

theorem step_knows {cfg : Threads τ} {ev : Event} (hI : Shares L e D size₀ off₀ cfg.shared)
    (hA : ∀ u, Knows e off₀ cfg.shared u (cfg.loc u)) (hok : fits cfg (t, ev))
    (hact : act L e cfg.shared t (cfg.loc t) ev = some (s', c')) :
    Shares L e D size₀ off₀ s' ∧ Knows e off₀ s' t c' ∧
      ∀ u, u ≠ t → Knows e off₀ s' u (cfg.loc u) := by
  have ht := hA t
  obtain ⟨shared, loc⟩ := cfg
  dsimp only at hI hA ht hact ⊢
  -- A thread that has the lock is alone with the file.
  have hsole : ∀ u, u ≠ t → shared.lock = some t → (loc u).holds = true → False := by
    intro u hu hown hholds
    rw [(hA u).lock.mp hholds] at hown
    exact hu (Option.some.inj hown)
  obtain ⟨hpending, hlock, hat⟩ := ht
  generalize hc : loc t = c at hact hpending hlock hat
  cases c with
  | user =>
    cases ev with
    | filewrite buf =>
      cases hact
      refine ⟨hI.of_same rfl rfl rfl rfl ?_, ⟨?_, hlock, hok, .inl rfl⟩, fun u hu =>
        (hA u).of_other (filter_append hu _) Iff.rfl fun _ => ⟨rfl, rfl, rfl⟩⟩
      · dsimp only
        rw [← List.append_assoc]
        exact hI.perm.append_right _
      · have hnone : shared.pending.filter (fun x => x.1 = t) = [] := hpending
        simp [List.filter_append, hnone, Pc.todo]
    | run | writei => cases hact
  | loop buf i =>
    cases ev with
    | run =>
      simp only [act] at hact
      obtain ⟨hlen, hi⟩ := hat
      split at hact
      · next hlt =>
        cases hact
        obtain rfl : i = 0 := by omega
        exact ⟨hI, ⟨hpending, hlock, hlen, rfl, hlt⟩, fun u _ => hA u⟩
      · next hge =>
        cases hact
        have hresult : result buf i = buf.length := if_pos (by omega)
        split
        · next hnil =>
          subst hnil
          obtain rfl : i = 0 := by simpa using hi
          have hmem : (t, []) ∈ shared.pending := mem_pending (hA t) (by rw [hc]; rfl)
          have hwritten : (shared.settle t [] 0).written = shared.written := by
            rw [written_settle hlen, List.append_nil]
          exact ⟨hI.of_same rfl rfl rfl hwritten (perm_settle hI.perm hmem hlen),
            ⟨filter_erase_self (hA t) (by rw [hc]; rfl), hlock, hresult⟩, fun u hu =>
              (hA u).of_other (filter_erase hu _) Iff.rfl fun _ => ⟨rfl, rfl, hwritten⟩⟩
        · next hne =>
          obtain rfl : i = buf.length := by omega
          obtain ⟨k, hk⟩ := Nat.exists_eq_succ_of_ne_zero (List.length_pos_iff.mpr hne).ne'
          refine ⟨hI, ⟨?_, hlock, hresult⟩, fun u _ => hA u⟩
          rw [hpending, hk]
          rfl
    | filewrite | writei => cases hact
  | begun buf i =>
    cases ev with
    | run =>
      simp only [act] at hact
      split at hact
      · next hfree =>
        obtain ⟨inode, hilock, heq⟩ := Option.map_eq_some_iff.mp hact
        cases heq
        obtain ⟨⟨v, hv⟩, hperm, hoff⟩ := hI
        obtain ⟨hinv, -, href, hview, q, rfl, hinum⟩ := hv.inv.ilock hv.ref hilock
        have hself : ((shared.inode.setEntry e q).entry e).inum = (shared.inode.entry e).inum := by
          simp only [Inode.State.setEntry, Function.update_self, hinum]
        refine ⟨⟨⟨v, hinv, href.1, ?_, ?_, ?_, ?_⟩, hperm, by simp⟩,
          ⟨hpending, by simp [Pc.holds], hat, href.2, hoff hfree⟩, fun u hu => ?_⟩
        · rw [hself]
          exact hv.type
        · rw [hself]
          exact hv.size
        · rw [hself]
          exact hv.others
        · rw [hself]
          exact hv.bytes
        · have hfree' : (loc u).holds = true → False := fun hholds => by
            rw [(hA u).lock.mp hholds] at hfree
            cases hfree
          refine (hA u).of_other rfl ?_ fun hholds => (hfree' hholds).elim
          simp [hfree, hu.symm]
      · cases hact
    | filewrite | writei => cases hact
  | locked buf i =>
    cases ev with
    | run =>
      cases hact
      exact ⟨hI, ⟨hpending, hlock, hat.1, hat.2.1, hat.2.2, rfl⟩, fun u _ => hA u⟩
    | filewrite | writei => cases hact
  | loaded buf i off =>
    cases ev with
    | writei copies =>
      obtain ⟨⟨inode, r⟩, hw, heq⟩ := Option.map_eq_some_iff.mp hact
      obtain ⟨⟨hlen, rfl, hpos⟩, hvalid, hoff, rfl⟩ := hat
      obtain ⟨⟨v, hv⟩, hperm, -⟩ := hI
      obtain ⟨hcopies, hmax⟩ := hok
      dsimp only at hmax
      rw [hc] at hmax
      have hchunk : chunk buf 0 = buf.length := by
        rw [chunk]
        omega
      obtain ⟨rfl, v', hv'⟩ := hv.writei (t := t) hvalid hoff hlen hcopies hmax hw
      have hmem : (t, buf) ∈ shared.pending := mem_pending (hA t) (by rw [hc]; rfl)
      have hgone : (shared.pending.erase (t, buf)).filter (fun x => x.1 = t) = [] :=
        filter_erase_self (hA t) (by rw [hc]; rfl)
      have hown := hlock.mp rfl
      have hrpos : 0 < (buf.length : ℤ) := by omega
      dsimp only at heq
      rw [if_pos hrpos] at heq
      cases heq
      have hwritten : ({ shared with inode }.settle t buf 0).written = shared.written ++ buf :=
        written_settle hlen
      refine ⟨⟨⟨v', hv'⟩, perm_settle (s := { shared with inode }) hperm hmem hlen, fun hfree => ?_⟩,
        ⟨hgone, hlock, ⟨hlen, rfl, hpos⟩, rfl, ?_, ?_⟩,
        fun u hu => (hA u).of_other (filter_erase hu _) Iff.rfl fun hholds =>
          (hsole u hu hown hholds).elim⟩
      · simp only [Shared.settle, hown] at hfree
        cases hfree
      · rw [hwritten, List.length_append]
        dsimp only [Shared.settle]
        omega
      · rw [hwritten, List.length_append]
        dsimp only at hmax
        rw [hchunk] at hmax
        simp only [MAXFILE, BSIZE, Inode.NDIRECT, Inode.NINDIRECT] at hmax
        omega
    | filewrite | run => cases hact
  | wrote buf i r =>
    cases ev with
    | run =>
      obtain ⟨⟨hlen, hi, hpos⟩, rfl, hoff, hmax⟩ := hat
      have hown := hlock.mp rfl
      have hrpos : 0 < (buf.length : ℤ) := by omega
      simp only [act, if_pos hrpos, Option.some.injEq, Prod.mk.injEq] at hact
      obtain ⟨rfl, rfl⟩ := hact
      obtain ⟨⟨v, hv⟩, hperm, -⟩ := hI
      have hsum : (shared.off + .ofNat (buf.length : ℤ).toNat).toNat =
          off₀ + shared.written.length := by
        rw [UInt32.toNat_add, UInt32.toNat_ofNat', Int.toNat_natCast]
        have hsmall := hlen.trans_lt (show maxBytes < 2 ^ 32 by decide)
        rw [Nat.mod_eq_of_lt hsmall, Nat.mod_eq_of_lt (by omega), hoff]
      refine ⟨⟨⟨v, ?_⟩, hperm, fun hfree => ?_⟩, ⟨hpending, hlock, ⟨hlen, hi, hpos⟩, rfl, hsum⟩,
        fun u hu => (hA u).of_other rfl Iff.rfl fun hholds => (hsole u hu hown hholds).elim⟩
      · exact ⟨hv.inv, hv.ref, hv.type, hv.size, hv.others, hv.bytes⟩
      · rw [hown] at hfree
        cases hfree
    | filewrite | writei => cases hact
  | advanced buf i r =>
    cases ev with
    | run =>
      obtain ⟨hbuf, rfl, hoff⟩ := hat
      have hown := hlock.mp rfl
      simp only [act, if_pos hown, Option.some.injEq, Prod.mk.injEq] at hact
      obtain ⟨rfl, rfl⟩ := hact
      obtain ⟨⟨v, hv⟩, hperm, -⟩ := hI
      refine ⟨⟨⟨v, ?_⟩, hperm, fun _ => hoff⟩, ⟨hpending, by simp [Pc.holds], hbuf, rfl⟩, fun u hu => ?_⟩
      · exact ⟨hv.inv, hv.ref, hv.type, hv.size, hv.others, hv.bytes⟩
      · refine (hA u).of_other rfl ?_ fun hholds => (hsole u hu hown hholds).elim
        simp [hown, hu.symm]
    | filewrite | writei => cases hact
  | unlocked buf i r =>
    cases ev with
    | run =>
      obtain ⟨⟨hlen, rfl, hpos⟩, rfl⟩ := hat
      have hchunk : chunk buf 0 = buf.length := by
        rw [chunk]
        omega
      simp only [act, hchunk, if_neg (not_lt.mpr (Int.natCast_nonneg buf.length)), ne_eq, not_true,
        if_false, Option.some.injEq, Prod.mk.injEq] at hact
      obtain ⟨rfl, rfl⟩ := hact
      refine ⟨hI, ⟨?_, hlock, hlen, .inr (by simp)⟩, fun u _ => hA u⟩
      obtain ⟨k, hk⟩ := Nat.exists_eq_succ_of_ne_zero hpos.ne'
      simpa [hk, Pc.todo] using hpending
    | filewrite | writei => cases hact
  | returned buf r =>
    cases ev with
    | run =>
      cases hact
      exact ⟨hI, ⟨hpending, hlock, trivial⟩, fun u _ => hA u⟩
    | filewrite | writei => cases hact

end

/-- The thread is in no call. -/
def Pc.Idle : Pc → Prop
  | .user | .returned _ _ => True
  | .loop _ _ | .begun _ _ | .locked _ _ | .loaded _ _ _ | .wrote _ _ _ | .advanced _ _ _
  | .unlocked _ _ _ => False

section

variable [DecidableEq τ] {L : Layout} {e : Slot} {s₀ : Inode.State} {off₀ : UInt32} {c : Threads τ}

theorem shares_of_reach {v : ℕ → Inode.Dinode} (hinv : Inv L s₀ v) (href : 0 < (s₀.entry e).ref)
    (htype : (s₀.inode e).type = .file) (hoff : off₀.toNat ≤ (s₀.inode e).size)
    (h : Reach (sharing L e s₀ off₀) fits c) :
    Shares L e (contents L s₀ e) (s₀.inode e).size off₀.toNat c.shared ∧
      ∀ t, Knows e off₀.toNat c.shared t (c.loc t) := by
  refine Interleaving.invariant_of_all
    (I := Shares L e (contents L s₀ e) (s₀.inode e).size off₀.toNat)
    (A := Knows e off₀.toNat) ?_ (fun _ _ _ _ _ => step_knows) h
  rintro c rfl
  have hself := hinv.eq_inode href
  refine ⟨⟨⟨v, hinv, href, ?_, ?_, fun x _ _ => ?_,
    fun x hx => absurd hx (Nat.not_lt_zero x)⟩, .nil, fun _ => rfl⟩,
    fun t => ⟨rfl, by simp [Pc.holds, Shared.start], trivial⟩⟩
  · dsimp only [Shared.start]
    rw [hself, htype]
  · dsimp only [Shared.start]
    rw [hself]
    exact (max_eq_left hoff).symm
  · exact Inode.fileByte_congr hself x

theorem Knows.pending_of_idle {s : Shared τ} {off : ℕ} {t : τ} {pc : Pc} (h : Knows e off s t pc)
    (hidle : pc.Idle) : s.pending.filter (fun x => x.1 = t) = [] := by
  rw [h.pending]
  cases pc <;> first | rfl | exact hidle.elim

theorem Knows.lock_of_idle {s : Shared τ} {off : ℕ} {t : τ} {pc : Pc} (h : Knows e off s t pc)
    (hidle : pc.Idle) : s.lock ≠ some t := by
  intro hlock
  have hholds := h.lock.mpr hlock
  cases pc <;> first | exact Bool.false_ne_true hholds | exact hidle.elim

/-- **Writes to a shared file follow one another.** Any number of threads write buffers of at
most `max` bytes to one open file, from any state of the inodes that is reached from an image.
In every run in which no copy fails and the file stays below the largest size, the bytes from
the initial offset on are the buffers that were written, one behind the other and each of them
once, and the rest of the file is as before. When no call is in progress these are the buffers
of all calls, and the offset has advanced by the sum of their sizes. -/
theorem shared_writes_serialize
    (hs : Reach (Inode.machine L (Inode.Mounted L)) Transition.anyStep s₀)
    (href : 0 < (s₀.entry e).ref) (htype : (s₀.inode e).type = .file)
    (hoff : off₀.toNat ≤ (s₀.inode e).size) (h : Reach (sharing L e s₀ off₀) fits c) :
    c.shared.asked.Perm (c.shared.done ++ c.shared.pending) ∧
    (∀ x < c.shared.written.length,
      contents L c.shared.inode e (off₀.toNat + x) = c.shared.written.getD x 0) ∧
    (∀ x < (s₀.inode e).size, x < off₀.toNat ∨ off₀.toNat + c.shared.written.length ≤ x →
      contents L c.shared.inode e x = contents L s₀ e x) ∧
    (c.shared.inode.inode e).size =
      max (s₀.inode e).size (off₀.toNat + c.shared.written.length) ∧
    (∀ t buf r, c.loc t = .returned buf r → r = buf.length) ∧
    ((∀ t, (c.loc t).Idle) → c.shared.done.Perm c.shared.asked ∧
      c.shared.off.toNat = off₀.toNat + (c.shared.asked.map fun x => x.2.length).sum) := by
  obtain ⟨v, hinv⟩ := Inode.inv_of_reach (fun _ hs => hs) hs
  obtain ⟨⟨⟨w, hw⟩, hperm, hfree⟩, hA⟩ := shares_of_reach hinv href htype hoff h
  have hself := hw.inv.eq_inode hw.ref
  have hcontents : ∀ x, contents L c.shared.inode e x =
      fileByte L w c.shared.inode.block (c.shared.inode.entry e).inum x :=
    fun x => (Inode.fileByte_congr hself x).symm
  refine ⟨hperm, fun x hx => (hcontents _).trans (hw.bytes x hx),
    fun x hx hother => (hcontents x).trans (hw.others x hx hother), hself ▸ hw.size,
    fun t buf r hr => ?_, fun hidle => ?_⟩
  · have hat := (hA t).at_pc
    rw [hr] at hat
    exact hat
  · have hnone : c.shared.pending = [] := by
      refine List.eq_nil_iff_forall_not_mem.mpr fun x hx => ?_
      have hmem : x ∈ c.shared.pending.filter fun y => y.1 = x.1 :=
        List.mem_filter.mpr ⟨hx, decide_eq_true rfl⟩
      rw [(hA x.1).pending_of_idle (hidle x.1)] at hmem
      exact List.not_mem_nil hmem
    rw [hnone, List.append_nil] at hperm
    have hlock : c.shared.lock = none :=
      Option.eq_none_iff_forall_ne_some.mpr fun t => (hA t).lock_of_idle (hidle t)
    refine ⟨hperm.symm, ?_⟩
    rw [hfree hlock, Shared.written, List.length_flatten, List.map_map]
    exact congrArg _ (hperm.symm.map fun x => x.2.length).sum_nat

end

instance (c : Threads Bool) (l : Bool × Event) : Decidable (fits c l) :=
  match l with
  | (_, .filewrite buf) => inferInstanceAs (Decidable (buf.length ≤ maxBytes))
  | (_, .run) => .isTrue trivial
  | (t, .writei _) =>
    have : Decidable (match c.loc t with
        | .loaded buf i off => off.toNat + chunk buf i ≤ MAXFILE * BSIZE
        | _ => True) :=
      match c.loc t with
      | .loaded buf i off => inferInstanceAs (Decidable (off.toNat + chunk buf i ≤ MAXFILE * BSIZE))
      | .user | .loop _ _ | .begun _ _ | .locked _ _ | .wrote _ _ _ | .advanced _ _ _
      | .unlocked _ _ _ | .returned _ _ => .isTrue trivial
    inferInstanceAs (Decidable (_ ∧ _))

/-- The small disk with the file in the cache. -/
def opened : Inode.State :=
  { Inode.smallImage with
    entry := update Inode.smallImage.entry 0 ⟨1, 1, false, ⟨.free, 0, 0, 0, 0, fun _ => 0⟩⟩ }

/-- Two threads write to the file at the same time: the second calls first and gets the lock
last. -/
theorem shared_writes_serialize_two : ∃ c : Threads Bool,
    c.shared.asked = [(true, [3]), (false, [1, 2])] ∧ c.shared.off = 3 ∧
    ∀ x < 3, contents Inode.smallDisk c.shared.inode 0 x = [1, 2, 3].getD x 0 := by
  have hopened : Reach (Inode.machine Inode.smallDisk (Inode.Mounted Inode.smallDisk))
      Transition.anyStep opened :=
    .step (.init Inode.smallImage_wellFormed.toMounted) (l := .iget 1) trivial (by rfl)
  let script : List (Bool × Event) :=
    [(true, .filewrite [3]), (false, .filewrite [1, 2]), (true, .run), (false, .run), (false, .run),
      (false, .run), (false, .writei fun _ => true), (false, .run), (false, .run), (true, .run),
      (true, .run), (true, .writei fun _ => true), (false, .run), (true, .run), (true, .run),
      (true, .run)]
  obtain ⟨c, -, hc, hasked, hoff, hwritten⟩ : ∃ c : Threads Bool,
      Transition.execWhile (Interleaving.next (act Inode.smallDisk 0)) fits
        ⟨.start opened 0, fun _ => .user⟩ script = some c ∧
      Reach (sharing Inode.smallDisk 0 opened 0) fits c ∧
      c.shared.asked = [(true, [3]), (false, [1, 2])] ∧ c.shared.off = 3 ∧
      c.shared.written = [1, 2, 3] := by
    refine Interleaving.exists_of_scriptWhile (act Inode.smallDisk 0) ?_ fits script
      (fun c => c.shared.asked = [(true, [3]), (false, [1, 2])] ∧ c.shared.off = 3 ∧
        c.shared.written = [1, 2, 3]) ?_
    · rfl
    · decide +kernel
  have hbytes := (shared_writes_serialize hopened (by decide) (by decide) (by decide) hc).2.1
  rw [hwritten] at hbytes
  exact ⟨c, hasked, hoff, fun x hx => by simpa using hbytes x hx⟩

end KThreads.FileWrite
