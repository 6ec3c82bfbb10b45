import KThreads.Inode.Transfer

/-!
# The bitmap and the inode cache

Between two calls the bitmap has the bits of the blocks that an allocated inode refers to,
each block has one position that refers to it, and the copies in the cache are those on the
disk. A `writei` whose copy fails returns before `iupdate`: when it has given the inode a
direct block, or an indirect block, the disk does not know of it.
-/

namespace KThreads.Inode

open Transition

/-- The runs of the calls from some states. -/
def machine (L : Layout) (init : State → Prop) : System State Label where
  init := init
  step s l s' := s.next L l = some s'

theorem machine_step (L : Layout) (init : State → Prop) (s : State) (l : Label) (s' : State)
    (h : s.next L l = some s') : (machine L init).step s l s' := h

/-- An image of a file system, with nothing in the cache. -/
structure Mounted (L : Layout) (s : State) : Prop where
  sound : Sound L s.dinode s.bit s.block
  free : ∀ e, (s.entry e).ref = 0

/-- An image in which every data block whose bit is set is referred to. -/
structure WellFormed (L : Layout) (s : State) : Prop extends Mounted L s where
  covered : Covered (refAt L s.dinode s.block) s.bit L.IsData

/-- A `writei` that fails has come only to blocks for which the inode has an address. -/
def State.safe (s : State) : Label → Prop
  | .writei e _ off n copies _ => State.Safe (s.inode e) off n copies
  | .ialloc _ | .iget _ | .idup _ | .iput _ | .itrunc _ | .readi _ _ _ _ _ | .relink _ _ => True

variable {L : Layout} {s s' : State} {v : ℕ → Dinode} {e : Slot} {l : Label}

theorem Mounted.inv (h : Mounted L s) : Inv L s s.dinode where
  cached e href := absurd (h.free e) href.ne'
  disk _ _ := rfl
  sound := h.sound
  inums e href := absurd (h.free e) href.ne'
  single e _ href := absurd (h.free e) href.ne'
  alloc e href := absurd (h.free e) href.ne'
  lags _ := .refl _

theorem State.din_ilock (h : s.ilock e = some s') : (s'.entry e).din = s.inode e := by
  unfold State.ilock at h
  unfold State.inode
  dsimp only at h
  split at h
  · next hvalid =>
    cases h
    rw [if_pos hvalid]
  · next hvalid =>
    split at h
    · cases h
    · cases h
      rw [if_neg hvalid]
      simp [State.setEntry]

namespace Inv

theorem exact_ilock (h : Inv L s v) (href : 0 < (s.entry e).ref) (hlock : s.ilock e = some s')
    (hexact : Exact L s v) : Exact L s' v := by
  obtain ⟨-, -, -, -, q, rfl, -⟩ := h.ilock href hlock
  exact ⟨hexact.agree, hexact.covered⟩

theorem next (h : Inv L s v) (hstep : s.next L l = some s') :
    ∃ v', Inv L s' v' ∧ (Exact L s v → s.safe l → Exact L s' v') := by
  cases l with
  | ialloc type =>
    simp only [State.next] at hstep
    split at hstep
    · cases hstep
    · obtain ⟨⟨s₁, e⟩, halloc, rfl⟩ := Option.map_eq_some_iff.mp hstep
      obtain ⟨v', hv', hexact⟩ := h.ialloc halloc
      exact ⟨v', hv', fun hx _ => hexact hx⟩
  | iget inum =>
    simp only [State.next] at hstep
    split at hstep
    · next hi =>
      obtain ⟨⟨s₁, e⟩, hget, rfl⟩ := Option.map_eq_some_iff.mp hstep
      obtain ⟨hv', hdinode, hbit, hblock⟩ := h.iget hi hget
      exact ⟨v, hv', fun hx _ => ⟨hdinode ▸ hx.agree, by rw [hbit, hblock]; exact hx.covered⟩⟩
    · cases hstep
  | idup e =>
    simp only [State.next] at hstep
    split at hstep
    · next href =>
      cases hstep
      exact ⟨v, h.idup href, fun hx _ => ⟨hx.agree, hx.covered⟩⟩
    · cases hstep
  | iput e =>
    simp only [State.next] at hstep
    split at hstep
    · next href =>
      obtain ⟨v', hv', hexact⟩ := h.iput href hstep
      exact ⟨v', hv', fun hx _ => hexact hx⟩
    · cases hstep
  | itrunc e =>
    simp only [State.next] at hstep
    split at hstep
    · next href =>
      obtain ⟨s₁, hlock, htrunc⟩ := Option.bind_eq_some_iff.mp hstep
      obtain ⟨h₁, hl, href₁, hview, -⟩ := h.ilock href hlock
      obtain ⟨v', hv', hexact⟩ := h₁.itrunc hl href₁.1 hview htrunc
      exact ⟨v', hv', fun hx _ => hexact (h.exact_ilock href hlock hx)⟩
    · cases hstep
  | readi e off n copies r =>
    simp only [State.next] at hstep
    split at hstep
    · next href =>
      obtain ⟨s₁, hlock, hread⟩ := Option.bind_eq_some_iff.mp hstep
      obtain ⟨h₁, hl, -⟩ := h.ilock href hlock
      obtain ⟨r', bytes, hreadi, -⟩ := hl.readi off n copies r
      rw [hreadi] at hread
      cases hread
      exact ⟨v, h₁, fun hx _ => h.exact_ilock href hlock hx⟩
    · cases hstep
  | writei e src off n copies r =>
    simp only [State.next] at hstep
    split at hstep
    · next href =>
      obtain ⟨s₁, hlock, hstep⟩ := Option.bind_eq_some_iff.mp hstep
      obtain ⟨⟨s₂, r'⟩, hwrite, rfl⟩ := Option.map_eq_some_iff.mp hstep
      obtain ⟨h₁, hl, href₁, hview, -⟩ := h.ilock href hlock
      obtain ⟨v', hv', hexact⟩ := h₁.writei hl href₁ hview hwrite
      refine ⟨v', hv', fun hx hsafe => hexact (h.exact_ilock href hlock hx) ?_⟩
      rw [State.din_ilock hlock]
      exact hsafe
    · cases hstep
  | relink e nlink =>
    simp only [State.next] at hstep
    split at hstep
    · next href =>
      obtain ⟨s₁, hlock, rfl⟩ := Option.map_eq_some_iff.mp hstep
      obtain ⟨h₁, hl, href₁, hview, -⟩ := h.ilock href hlock
      obtain ⟨v', hv', hexact⟩ := h₁.relink hl href₁.1 hview nlink
      exact ⟨v', hv', fun hx _ => hexact (h.exact_ilock href hlock hx)⟩
    · cases hstep

end Inv

theorem inv_of_reach {init : State → Prop} (hinit : ∀ s, init s → Mounted L s)
    (h : Reach (machine L init) anyStep s) : ∃ v, Inv L s v := by
  refine h.invariant (P := fun s => ∃ v, Inv L s v) (fun s hs => ⟨_, (hinit s hs).inv⟩) ?_
  rintro s l s' - ⟨v, hv⟩ - hstep
  obtain ⟨v', hv', -⟩ := hv.next hstep
  exact ⟨v', hv'⟩

theorem exact_of_reach (h : Reach (machine L (WellFormed L)) State.safe s) :
    Inv L s s.dinode ∧ Exact L s s.dinode := by
  refine h.invariant (P := fun s => Inv L s s.dinode ∧ Exact L s s.dinode)
    (fun s (hs : WellFormed L s) => ⟨hs.toMounted.inv, rfl, hs.covered⟩) ?_
  rintro s l s' - ⟨hinv, hexact⟩ hsafe hstep
  obtain ⟨v', hv', hexact'⟩ := hinv.next hstep
  have hx := hexact' hexact hsafe
  obtain rfl := hx.agree
  exact ⟨hv', hx⟩

/-- **The bitmap and the inode cache.** In every run from a well-formed image in which a write
fails only at a block that the inode has an address for: the bit of a data block is set exactly
when one position of the inodes on the disk refers to it, and the valid entries of the cache
are the inodes on the disk. -/
theorem bitmap_agrees (h : Reach (machine L (WellFormed L)) State.safe s) :
    (∀ b, L.IsData b → (s.bit b = true ↔ ∃! p, refAt L s.dinode s.block p = some b)) ∧
      ∀ e, 0 < (s.entry e).ref → (s.entry e).valid = true →
        (s.entry e).din = s.dinode (s.entry e).inum := by
  obtain ⟨hinv, hexact⟩ := exact_of_reach h
  refine ⟨fun b hb => hinv.sound.owned.existsUnique hexact.covered hb, fun e href hvalid => ?_⟩
  exact (hinv.cached e href hvalid).symm

/-- A disk of eight blocks, three of them for data. -/
def smallDisk : Layout := ⟨8, 5, 4, 4, by decide, by decide, le_rfl⟩

/-- An image with one file, which is empty. -/
def smallImage : State where
  bit b := decide (b < 5)
  dinode i := ⟨if i = 1 then .file else .free, 0, 0, 1, 0, fun _ => 0⟩
  block _ _ := 0
  entry _ := ⟨0, 0, false, ⟨.free, 0, 0, 0, 0, fun _ => 0⟩⟩

theorem smallImage_ref (p : ℕ × ℕ) : refAt smallDisk smallImage.dinode smallImage.block p = none := by
  rw [refAt, if_neg]
  rintro ⟨-, -, hat⟩
  exact hat (Dinode.at_eq_zero (fun _ _ => rfl) _)

theorem smallImage_wellFormed : WellFormed smallDisk smallImage where
  sound := by
    refine ⟨⟨fun p q b hp => ?_, fun p b hp => ?_, fun p b hp => ?_⟩, fun b hb => ?_,
      fun i _ _ => Nat.zero_le _, fun i _ _ bn hbn => absurd hbn (Nat.not_lt_zero _)⟩
    · rw [smallImage_ref] at hp
      cases hp
    · rw [smallImage_ref] at hp
      cases hp
    · rw [smallImage_ref] at hp
      cases hp
    · exact decide_eq_true hb
  free _ := rfl
  covered b hb hbit := absurd (of_decide_eq_true hbit) (Nat.not_lt.mpr hb.1)

instance (d : Dinode) (off n : UInt32) (copies : ℕ → Bool) :
    Decidable (State.Safe d off n copies) :=
  inferInstanceAs (Decidable (∀ i < n.toNat, (off.toNat / BSIZE + i) * BSIZE < off.toNat + n.toNat →
    (∀ j < i, copies j = true) → copies i = false → ∀ j ≤ i, d.top (off.toNat / BSIZE + j) ≠ 0))

instance (s : State) (l : Label) : Decidable (s.safe l) :=
  match l with
  | .writei e _ off n copies _ => inferInstanceAs (Decidable (State.Safe (s.inode e) off n copies))
  | .ialloc _ | .iget _ | .idup _ | .iput _ | .itrunc _ | .readi _ _ _ _ _ | .relink _ _ =>
    .isTrue trivial

/-- **Blocks.** However writes fail, no two positions of the inodes refer to one block, and the blocks
referred to are data blocks whose bit is set. -/
theorem blocks_not_shared (h : Reach (machine L (Mounted L)) anyStep s) : ∃ v : ℕ → Dinode,
    (∀ e, 0 < (s.entry e).ref → (s.entry e).valid = true → v (s.entry e).inum = (s.entry e).din) ∧
    (∀ i, (∀ e, 0 < (s.entry e).ref → (s.entry e).valid = true → (s.entry e).inum ≠ i) →
      v i = s.dinode i) ∧ Owned (refAt L v s.block) s.bit L.IsData := by
  obtain ⟨v, hv⟩ := inv_of_reach (fun _ => id) h
  exact ⟨v, hv.cached, hv.disk, hv.sound.owned⟩

/-- A write to one file fails behind the allocation of a block, which only the copy in the cache
refers to then; a write to a new file gets another block. -/
theorem blocks_not_shared_small : ∃ (s : State) (v : ℕ → Dinode),
    Reach (machine smallDisk (Mounted smallDisk)) anyStep s ∧
      (s.dinode 1).addrs 0 = 0 ∧ (v 1).addrs 0 = 5 ∧ (v 2).addrs 0 = 6 ∧
      Owned (refAt smallDisk v s.block) s.bit smallDisk.IsData := by
  obtain ⟨s, -, hs, hdisk, hone, htwo, hfirst, hsecond⟩ :=
    Reach.exists_of_exec (machine_step smallDisk (Mounted smallDisk)) smallImage_wellFormed.toMounted
      [.iget 1, .writei 0 (fun _ => 7) 0 1 (fun _ => false) 0, .ialloc .file,
        .writei 1 (fun _ => 8) 0 1 (fun _ => true) 0]
      (fun s => (s.dinode 1).addrs 0 = 0 ∧
        (0 < (s.entry 0).ref ∧ (s.entry 0).valid = true ∧ (s.entry 0).inum = 1) ∧
        (0 < (s.entry 1).ref ∧ (s.entry 1).valid = true ∧ (s.entry 1).inum = 2) ∧
        (s.entry 0).din.addrs 0 = 5 ∧ (s.entry 1).din.addrs 0 = 6) (by decide +kernel)
  obtain ⟨v, hcached, -, howned⟩ := blocks_not_shared hs
  have hv₁ := hcached 0 hone.1 hone.2.1
  have hv₂ := hcached 1 htwo.1 htwo.2.1
  rw [hone.2.2] at hv₁
  rw [htwo.2.2] at hv₂
  exact ⟨s, v, hs, hdisk, hv₁ ▸ hfirst, hv₂ ▸ hsecond, howned⟩

/-- A byte is written to the file. -/
theorem bitmap_agrees_write : ∃ s : State,
    Reach (machine smallDisk (WellFormed smallDisk)) State.safe s ∧
    s.bit 5 = true ∧ (s.dinode 1).size = 1 ∧
    (s.bit 5 = true ↔ ∃! p, refAt smallDisk s.dinode s.block p = some 5) := by
  obtain ⟨s, -, hs, hbit, hsize⟩ := Reach.exists_of_execWhile (machine_step smallDisk _)
    smallImage_wellFormed State.safe
    [.iget 1, .writei 0 (fun _ => 7) 0 1 (fun _ => true) 0, .iput 0]
    (fun s => s.bit 5 = true ∧ (s.dinode 1).size = 1) (by decide)
  exact ⟨s, hs, hbit, hsize, (bitmap_agrees hs).1 5 (by decide)⟩

/-- A write of one byte fails: the bit of the block that it has allocated is set, no inode on
the disk refers to it, and the copy in the cache is not the inode on the disk. -/
theorem failed_write_leaks : ∃ s : State, Reach (machine smallDisk (WellFormed smallDisk)) anyStep s ∧
    s.bit 5 = true ∧ (∀ i < smallDisk.ninodes, ∀ k < MAXFILE + 1,
      refAt smallDisk s.dinode s.block (i, k) ≠ some 5) ∧
    0 < (s.entry 0).ref ∧ (s.entry 0).valid = true ∧
    (s.entry 0).din.addrs 0 ≠ (s.dinode (s.entry 0).inum).addrs 0 := by
  obtain ⟨s, -, hs, hall⟩ := Reach.exists_of_exec (machine_step smallDisk _)
    smallImage_wellFormed [.iget 1, .writei 0 (fun _ => 7) 0 1 (fun _ => false) 0]
    (fun s => s.bit 5 = true ∧ (∀ i < smallDisk.ninodes, ∀ k < MAXFILE + 1,
      refAt smallDisk s.dinode s.block (i, k) ≠ some 5) ∧
      0 < (s.entry 0).ref ∧ (s.entry 0).valid = true ∧
      (s.entry 0).din.addrs 0 ≠ (s.dinode (s.entry 0).inum).addrs 0) (by decide +kernel)
  exact ⟨s, hs, hall⟩

end KThreads.Inode
