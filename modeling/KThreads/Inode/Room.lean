import KThreads.Inode.Transfer

/-!
# Room for a write

The loops of `readi` and `writei` end without a panic of `balloc` when there are as many free
blocks as there are positions without a block among those that the loop comes to: the blocks of
the contents, and the indirect block if one of them is an entry of it.
-/

namespace KThreads.Inode

open Function (update)

/-- The free blocks. -/
def State.free (L : Layout) (s : State) : Finset ℕ := {b ∈ Finset.range L.size | s.bit b = false}

/-- The positions that `bmap` comes to. -/
def positions (bn : ℕ) : Finset ℕ := if bn < NDIRECT then {bn} else {NDIRECT, slotOf bn}

/-- The positions of `n` bytes from `off` on. -/
def touched (off n : ℕ) : Finset ℕ :=
  (Finset.range n).biUnion fun x => positions ((off + x) / BSIZE)

/-- The positions without a block. -/
def State.lacks (s : State) (e : Slot) (P : Finset ℕ) : Finset ℕ :=
  {k ∈ P | (s.entry e).din.at s.block k = 0}

variable {L : Layout} {v : ℕ → Dinode} {e : Slot} {s s' : State} {a bn k : ℕ}

theorem State.mem_free : a ∈ s.free L ↔ a < L.size ∧ s.bit a = false := by
  simp [State.free]

theorem State.mem_lacks {P : Finset ℕ} :
    k ∈ s.lacks e P ↔ k ∈ P ∧ (s.entry e).din.at s.block k = 0 := by
  simp [State.lacks]

theorem State.exists_balloc (h : 0 < (s.free L).card) : ∃ x, s.balloc L = some x := by
  obtain ⟨b, hb⟩ := Finset.card_pos.mp h
  obtain ⟨hsize, hbit⟩ := State.mem_free.mp hb
  have hsome : ((List.range L.size).find? fun b => !s.bit b).isSome = true := by
    rw [List.find?_isSome]
    exact ⟨b, List.mem_range.mpr hsize, by simp [hbit]⟩
  obtain ⟨b, hb⟩ := Option.isSome_iff_exists.mp hsome
  exact ⟨_, congrArg (Option.map _) hb⟩

theorem State.free_balloc (h : s.balloc L = some (s', a)) :
    (s'.free L).card + 1 = (s.free L).card := by
  obtain ⟨hfresh, hlt, rfl⟩ := State.of_balloc h
  have hmem : a ∈ s.free L := State.mem_free.mpr ⟨hlt, hfresh⟩
  have hfree : (State.free L { s with
      bit := update s.bit a true, block := update s.block a fun _ => 0 }) = (s.free L).erase a := by
    ext c
    rw [Finset.mem_erase, State.mem_free, State.mem_free]
    by_cases hc : c = a
    · simp [hc]
    · simp [hc]
  have hpos := Finset.card_pos.mpr ⟨a, hmem⟩
  rw [hfree, Finset.card_erase_of_mem hmem]
  omega

/-- One block is needed where there is no address. -/
def needs (a : ℕ) : ℕ := if a = 0 then 1 else 0

theorem State.exists_grab (put : State → ℕ → State) (hroom : needs a ≤ (s.free L).card) :
    ∃ s' b, s.grab L a put = some (s', b) := by
  unfold needs at hroom
  rw [State.grab]
  split
  · next hzero =>
    rw [if_pos hzero] at hroom
    obtain ⟨x, hx⟩ := State.exists_balloc hroom
    exact ⟨_, _, congrArg (Option.map _) hx⟩
  · exact ⟨_, _, rfl⟩

theorem State.free_grab {put : State → ℕ → State} {b : ℕ} (h : s.grab L a put = some (s', b))
    (hput : ∀ s b, (put s b).bit = s.bit) : (s'.free L).card + needs a = (s.free L).card := by
  unfold needs
  rw [State.grab] at h
  split at h
  · next hzero =>
    obtain ⟨⟨s₁, c⟩, hballoc, heq⟩ := Option.map_eq_some_iff.mp h
    obtain ⟨rfl, rfl⟩ := Prod.mk.inj heq
    have hfree : (put s₁ c).free L = s₁.free L := by rw [State.free, State.free, hput]
    rw [hfree, if_pos hzero, State.free_balloc hballoc]
  · next hne =>
    cases h
    rw [if_neg hne, Nat.add_zero]

theorem State.block_of_grab {put : State → ℕ → State} {b : ℕ} (h : s.grab L a put = some (s', b))
    (ha : a = 0) (hput : ∀ s b, (put s b).block = s.block) :
    s'.block b = fun _ => 0 := by
  rw [State.grab, if_pos ha] at h
  obtain ⟨⟨s₁, c⟩, hballoc, heq⟩ := Option.map_eq_some_iff.mp h
  obtain ⟨-, -, rfl⟩ := State.of_balloc hballoc
  cases heq
  rw [hput]
  exact Function.update_self ..

theorem Grows.lacks (h : Grows L v e s s') (hl : Locked L v e s) (P : Finset ℕ) :
    s'.lacks e P ⊆ s.lacks e P := by
  intro k hk
  obtain ⟨hP, hzero⟩ := State.mem_lacks.mp hk
  refine State.mem_lacks.mpr ⟨hP, ?_⟩
  by_contra hne
  have href : s.ref L v e k = some ((s.entry e).din.at s.block k) := by
    refine refAt_eq_some.mpr ⟨hl.inum, hl.view_alloc, ?_, hne⟩
    rw [State.view_self]
  obtain ⟨-, -, hat, hne'⟩ := refAt_eq_some.mp (h.ref href)
  rw [State.view_self, hzero] at hat
  exact hne' hat.symm

theorem State.not_mem_lacks {P : Finset ℕ} (h : s.ref L v e k = some a) : k ∉ s.lacks e P := by
  intro hk
  obtain ⟨-, -, hat, hne⟩ := refAt_eq_some.mp h
  rw [State.view_self, (State.mem_lacks.mp hk).2] at hat
  exact hne hat.symm

theorem State.card_lacks_direct (hdirect : bn < NDIRECT) :
    (s.lacks e (positions bn)).card = needs ((s.entry e).din.addrs bn) := by
  rw [State.lacks, positions, if_pos hdirect, Finset.filter_singleton, Dinode.at, if_pos hdirect.le,
    needs]
  split <;> rfl

theorem State.card_lacks_indirect (hdirect : ¬bn < NDIRECT) :
    (s.lacks e (positions bn)).card = needs ((s.entry e).din.addrs NDIRECT) +
      needs (if (s.entry e).din.addrs NDIRECT = 0 then 0
        else word (s.block ((s.entry e).din.addrs NDIRECT)) (bn - NDIRECT)) := by
  have hat : (s.entry e).din.at s.block (slotOf bn) = if (s.entry e).din.addrs NDIRECT = 0 then 0
      else word (s.block ((s.entry e).din.addrs NDIRECT)) (bn - NDIRECT) := by
    rw [slotOf, if_neg hdirect, Dinode.at, if_neg (by omega), Nat.add_sub_add_right]
  have hfirst : (s.entry e).din.at s.block NDIRECT = (s.entry e).din.addrs NDIRECT := if_pos le_rfl
  have hne : NDIRECT ≠ slotOf bn := (Locked.slotOf_ne bn).symm
  rw [← hat, State.lacks, positions, if_neg hdirect, Finset.filter_insert, Finset.filter_singleton,
    hfirst, needs, needs]
  by_cases hzero : (s.entry e).din.addrs NDIRECT = 0 <;>
    by_cases hzero' : (s.entry e).din.at s.block (slotOf bn) = 0 <;> simp [hzero, hzero', hne]

theorem State.word_of_grab {b j : ℕ}
    (h : s.grab L ((s.entry e).din.addrs NDIRECT) (fun s a => s.setAddr e NDIRECT a) = some (s', b)) :
    word (s'.block b) j = if (s.entry e).din.addrs NDIRECT = 0 then 0
      else word (s.block ((s.entry e).din.addrs NDIRECT)) j := by
  split
  · next hzero => rw [State.block_of_grab h hzero fun _ _ => rfl, word_zero]
  · next hne =>
    rw [State.grab, if_neg hne] at h
    cases h
    rfl

theorem State.free_bmap (hmap : s.bmap L e bn = some (s', a)) :
    (s'.free L).card + (s.lacks e (positions bn)).card = (s.free L).card := by
  rw [State.bmap] at hmap
  split at hmap
  · next hdirect =>
    rw [State.card_lacks_direct hdirect]
    exact State.free_grab hmap fun _ _ => rfl
  · next hdirect =>
    split at hmap
    · obtain ⟨⟨s₁, b⟩, hgrab, hgrab'⟩ := Option.bind_eq_some_iff.mp hmap
      have hfirst := State.free_grab hgrab fun _ _ => rfl
      have hsecond := State.free_grab hgrab' fun _ _ => rfl
      dsimp only at hsecond
      rw [State.word_of_grab hgrab] at hsecond
      rw [State.card_lacks_indirect hdirect]
      omega
    · cases hmap

theorem State.exists_bmap (hbn : bn < MAXFILE)
    (hroom : (s.lacks e (positions bn)).card ≤ (s.free L).card) :
    ∃ s' a, s.bmap L e bn = some (s', a) := by
  rw [State.bmap]
  split
  · next hdirect =>
    rw [State.card_lacks_direct hdirect] at hroom
    exact State.exists_grab _ hroom
  · next hdirect =>
    have hj : bn - NDIRECT < NINDIRECT := by
      simp only [MAXFILE, NDIRECT, NINDIRECT] at *
      omega
    rw [if_pos hj]
    rw [State.card_lacks_indirect hdirect] at hroom
    obtain ⟨s₁, b, hgrab⟩ := State.exists_grab (fun s a => s.setAddr e NDIRECT a)
      (show needs ((s.entry e).din.addrs NDIRECT) ≤ (s.free L).card by omega)
    have hfirst := State.free_grab hgrab fun _ _ => rfl
    rw [hgrab, Option.bind_some]
    refine State.exists_grab _ ?_
    dsimp only
    rw [State.word_of_grab hgrab]
    omega

theorem Locked.lacks_of_ref (hbn : s.ref L v e (slotOf bn) = some a) :
    s.lacks e (positions bn) = ∅ := by
  refine Finset.eq_empty_of_forall_notMem fun k hk => ?_
  obtain ⟨hP, hnone⟩ := State.mem_lacks.mp hk
  by_cases hdirect : bn < NDIRECT
  · rw [positions, if_pos hdirect, Finset.mem_singleton] at hP
    rw [slotOf, if_pos hdirect, ← hP] at hbn
    exact State.not_mem_lacks hbn hk
  · rw [positions, if_neg hdirect, Finset.mem_insert, Finset.mem_singleton] at hP
    rcases hP with rfl | rfl
    · -- an entry of the indirect block is there only with the indirect block
      obtain ⟨-, -, hentry, hne⟩ := refAt_eq_some.mp hbn
      rw [Dinode.at, if_pos le_rfl] at hnone
      rw [State.view_self, slotOf, if_neg hdirect, Dinode.at, if_neg (by omega), if_pos hnone] at hentry
      exact hne hentry.symm
    · exact State.not_mem_lacks hbn hk

section

variable {α : Type} {put : State → α → ℕ → ℕ → ℕ → State × α} {copies : ℕ → Bool}
  {acc : α} {fuel off left i : ℕ}

theorem positions_subset {x : ℕ} (hlo : off ≤ x) (hhi : x < off + left) :
    positions (x / BSIZE) ⊆ touched off left := by
  have hx : off + (x - off) = x := by omega
  have hsub := Finset.subset_biUnion_of_mem (fun y => positions ((off + y) / BSIZE))
    (Finset.mem_range.mpr (show x - off < left by omega))
  rwa [hx] at hsub

theorem touched_subset {m : ℕ} (hm : m ≤ left) :
    touched (off + m) (left - m) ⊆ touched off left := by
  refine Finset.biUnion_subset.mpr fun x hx => ?_
  have hlt := Finset.mem_range.mp hx
  exact positions_subset (by omega) (by omega)

theorem Locked.copyLoop_room (h : Locked L v e s)
    (hput : ∀ s acc a o m, ∃ d, (put s acc a o m).1 = { s with block := update s.block a d })
    (hmax : off + left ≤ MAXFILE * BSIZE)
    (hroom : (s.lacks e (touched off left)).card ≤ (s.free L).card) :
    ∃ r, State.copyLoop L e put copies fuel s acc off left i = some r := by
  induction fuel generalizing s acc off left i with
  | zero => exact ⟨_, rfl⟩
  | succ fuel ih =>
    rw [State.copyLoop]
    by_cases hleft : left = 0
    · exact ⟨_, if_pos hleft⟩
    rw [if_neg hleft]
    have hfirst : positions (off / BSIZE) ⊆ touched off left := positions_subset le_rfl (by omega)
    have hbn : off / BSIZE < MAXFILE := Nat.div_lt_of_lt_mul (by rw [Nat.mul_comm]; omega)
    have hmono : (s.lacks e (positions (off / BSIZE))).card ≤ (s.lacks e (touched off left)).card :=
      Finset.card_le_card (Finset.filter_subset_filter _ hfirst)
    obtain ⟨s₁, a, hmap⟩ := State.exists_bmap hbn (hmono.trans hroom)
    obtain ⟨⟨hgrows, -⟩, href, -⟩ := h.bmap hmap
    have hcard := State.free_bmap hmap
    have hnone := Locked.lacks_of_ref href
    rw [hmap]
    dsimp only [Option.bind_some]
    split
    · set m := min left (BSIZE - off % BSIZE) with hm
      obtain ⟨d, hd⟩ := hput s₁ acc a off m
      rw [hd]
      have hl₁ := hgrows.locked h
      have hwrite := hl₁.write (slotOf_ne _) href d
      refine ih (hwrite.locked hl₁) (by omega) ?_
      -- what the rest still lacks was lacking before, and apart from what was found here
      set rest := touched (off + m) (left - m)
      have hrest : State.lacks { s₁ with block := update s₁.block a d } e rest ⊆
          s.lacks e rest \ s.lacks e (positions (off / BSIZE)) := by
        intro k hk
        refine Finset.mem_sdiff.mpr ⟨(hgrows.trans hwrite).lacks h _ hk, fun hin => ?_⟩
        have hk₁ : k ∈ s₁.lacks e (positions (off / BSIZE)) :=
          State.mem_lacks.mpr ⟨(State.mem_lacks.mp hin).1,
            (State.mem_lacks.mp (hwrite.lacks hl₁ _ hk)).2⟩
        rw [hnone] at hk₁
        exact absurd hk₁ (Finset.notMem_empty k)
      have hsum : (s.lacks e rest \ s.lacks e (positions (off / BSIZE))).card +
          (s.lacks e (positions (off / BSIZE))).card ≤ (s.lacks e (touched off left)).card := by
        rw [← Finset.card_union_of_disjoint Finset.sdiff_disjoint]
        refine Finset.card_le_card (Finset.union_subset ?_ ?_)
        · exact Finset.sdiff_subset.trans
            (Finset.filter_subset_filter _ (touched_subset (by omega)))
        · exact Finset.filter_subset_filter _ hfirst
      have hle := Finset.card_le_card hrest
      have hfree : State.free L { s₁ with block := update s₁.block a d } = s₁.free L := rfl
      rw [hfree]
      omega
    · exact ⟨_, rfl⟩

end

theorem Locked.writei_room {src : ℕ → UInt8} {off n : UInt32} {copies : ℕ → Bool} {r : ℤ}
    (h : Locked L v e s) (hmax : off.toNat + n.toNat ≤ MAXFILE * BSIZE)
    (hroom : (s.lacks e (touched off.toNat n.toNat)).card ≤ (s.free L).card) :
    ∃ s' r', s.writei L e src off n copies r = some (s', r') := by
  obtain ⟨x, hloop⟩ : ∃ x, State.copyLoop L e (writePut src off.toNat) copies n.toNat s ()
      off.toNat n.toNat 0 = some x :=
    h.copyLoop_room (writePut_block off.toNat) hmax hroom
  rw [State.writei]
  split
  · exact ⟨_, _, rfl⟩
  split
  · exact ⟨_, _, rfl⟩
  split
  · exact ⟨_, _, rfl⟩
  · exact ⟨_, _, congrArg (Option.map _) hloop⟩

end KThreads.Inode
