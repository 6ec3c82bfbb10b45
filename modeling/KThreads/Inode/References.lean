import KThreads.Inode.Calls
import KThreads.Lib.Ownership

/-!
# Who refers to a block

A position is an index of an inode: the direct blocks, the indirect block, and the entries
of the indirect block. The inodes are those on the disk, but for one that is being changed
in the cache. An allocation by `bmap` fills one position that was empty.
-/

namespace KThreads.Inode

open Function (update update_of_ne update_self)
open Log (Data)

/-- The address at an index: from `NDIRECT + 1` on it is an entry of the indirect block. -/
def Dinode.at (d : Dinode) (block : ℕ → Data) (k : ℕ) : ℕ :=
  if k ≤ NDIRECT then d.addrs k
  else if d.addrs NDIRECT = 0 then 0
  else word (block (d.addrs NDIRECT)) (k - (NDIRECT + 1))

/-- The block that an allocated inode refers to at an index. -/
def refAt (L : Layout) (din : ℕ → Dinode) (block : ℕ → Data) (p : ℕ × ℕ) : Option ℕ :=
  if p.1 < L.inodes ∧ (din p.1).type ≠ .free ∧ (din p.1).at block p.2 ≠ 0 then
    some ((din p.1).at block p.2)
  else none

/-- The index of a block of the contents. -/
def slotOf (bn : ℕ) : ℕ := if bn < NDIRECT then bn else bn + 1

/-- A block that is referred to is a data block that is referred to once, and its bit is set; the
contents of an inode have no holes. -/
structure Sound (L : Layout) (din : ℕ → Dinode) (bit : ℕ → Bool) (block : ℕ → Data) : Prop where
  owned : Owned (refAt L din block) bit L.IsData
  meta_used : ∀ b, b < L.data → bit b = true
  size_le : ∀ i, i < L.inodes → (din i).type ≠ .free → (din i).size ≤ MAXFILE * BSIZE
  filled : ∀ i, i < L.inodes → (din i).type ≠ .free → ∀ bn, bn * BSIZE < (din i).size →
    refAt L din block (i, slotOf bn) ≠ none

variable {L : Layout} {din din' : ℕ → Dinode} {bit : ℕ → Bool} {block block' : ℕ → Data}
  {i k j a b : ℕ}

theorem refAt_eq_some : refAt L din block (i, k) = some a ↔
    i < L.inodes ∧ (din i).type ≠ .free ∧ (din i).at block k = a ∧ a ≠ 0 := by
  rw [refAt]
  split
  · next h =>
    rw [Option.some.injEq]
    constructor
    · rintro rfl
      exact ⟨h.1, h.2.1, rfl, h.2.2⟩
    · exact fun h' => h'.2.2.1
  · next h =>
    constructor
    · nofun
    · rintro ⟨h₁, h₂, rfl, h₃⟩
      exact absurd ⟨h₁, h₂, h₃⟩ h

theorem Dinode.at_congr {d d' : Dinode} (haddrs : d'.addrs = d.addrs)
    (hblock : d.addrs NDIRECT ≠ 0 → block' (d.addrs NDIRECT) = block (d.addrs NDIRECT)) (k : ℕ) :
    d'.at block' k = d.at block k := by
  rw [Dinode.at, Dinode.at, haddrs]
  split
  · rfl
  · split
    · rfl
    · next hind => rw [hblock hind]

theorem Dinode.at_eq_zero {d : Dinode} (h : ∀ k, k ≤ NDIRECT → d.addrs k = 0) (k : ℕ) :
    d.at block k = 0 := by
  rw [Dinode.at, h NDIRECT le_rfl, if_pos rfl]
  split
  · next hk => exact h k hk
  · rfl

theorem word_setWord (d : Data) (hj : j < 128) (ha : a < 2 ^ 32) : word (setWord d j a) j = a := by
  rw [word, dif_pos hj, setWord, if_pos rfl, UInt32.toNat_ofNat']
  omega

theorem word_setWord_of_ne (d : Data) {j' : ℕ} (hj : j' ≠ j) : word (setWord d j a) j' = word d j' := by
  rw [word, word]
  split
  · rw [setWord, if_neg hj]
  · rfl

theorem word_zero (j : ℕ) : word (fun _ => 0) j = 0 := by
  rw [word]
  split <;> rfl

theorem refAt_congr (htype : ∀ i, (din' i).type = .free ↔ (din i).type = .free)
    (hat : ∀ i, i < L.inodes → (din i).type ≠ .free → ∀ k, (din' i).at block' k = (din i).at block k) :
    refAt L din' block' = refAt L din block := by
  funext ⟨i, k⟩
  apply Option.ext
  intro a
  rw [refAt_eq_some, refAt_eq_some]
  constructor
  · rintro ⟨hi, htype', rfl, ha⟩
    have hfree := fun h => htype' ((htype i).mpr h)
    exact ⟨hi, hfree, (hat i hi hfree k).symm, ha⟩
  · rintro ⟨hi, hfree, rfl, ha⟩
    exact ⟨hi, fun h => hfree ((htype i).mp h), hat i hi hfree k, ha⟩

theorem refAt_update (hi : i < L.inodes) (halloc : (din i).type ≠ .free) (ha : a ≠ 0)
    (htype : ∀ j, (din' j).type = .free ↔ (din j).type = .free)
    (hself : (din' i).at block' k = a)
    (hat : ∀ j, j < L.inodes → (din j).type ≠ .free → ∀ k', (j, k') ≠ (i, k) →
      (din' j).at block' k' = (din j).at block k') :
    refAt L din' block' = update (refAt L din block) (i, k) (some a) := by
  funext ⟨j, k'⟩
  by_cases hp : (j, k') = (i, k)
  · cases hp
    rw [update_self, refAt_eq_some]
    exact ⟨hi, fun h => halloc ((htype i).mp h), hself, ha⟩
  · rw [update_of_ne hp]
    apply Option.ext
    intro b
    rw [refAt_eq_some, refAt_eq_some]
    constructor
    · rintro ⟨hj, htype', rfl, hb⟩
      have hfree := fun h => htype' ((htype j).mpr h)
      exact ⟨hj, hfree, (hat j hj hfree k' hp).symm, hb⟩
    · rintro ⟨hj, hfree, rfl, hb⟩
      exact ⟨hj, fun h => hfree ((htype j).mp h), hat j hj hfree k' hp, hb⟩

namespace Sound

theorem ref_indirect (hi : i < L.inodes) (halloc : (din i).type ≠ .free)
    (hind : (din i).addrs NDIRECT ≠ 0) :
    refAt L din block (i, NDIRECT) = some ((din i).addrs NDIRECT) :=
  refAt_eq_some.mpr ⟨hi, halloc, if_pos le_rfl, hind⟩

theorem assign (h : Sound L din bit block) (hfresh : bit b = false) (hb : b < L.size)
    (href : refAt L din' block' = update (refAt L din block) (i, k) (some b))
    (hsize : ∀ j, (din' j).size = (din j).size)
    (htype : ∀ j, (din' j).type = .free ↔ (din j).type = .free) :
    Sound L din' (update bit b true) block' := by
  have hdata : L.data ≤ b := by
    by_contra hlt
    simp [h.meta_used b (Nat.lt_of_not_le hlt)] at hfresh
  refine ⟨?_, fun c hc => ?_, fun j hj hfree => ?_, fun j hj hfree bn hbn => ?_⟩
  · rw [href]
    exact h.owned.assign hfresh ⟨hdata, hb⟩
  · by_cases hcb : c = b
    · rw [hcb, update_self]
    · rw [update_of_ne hcb]
      exact h.meta_used c hc
  · rw [hsize]
    exact h.size_le j hj fun h => hfree ((htype j).mpr h)
  · rw [hsize] at hbn
    rw [href]
    by_cases hp : (j, slotOf bn) = (i, k)
    · rw [hp, update_self]
      nofun
    · rw [update_of_ne hp]
      exact h.filled j hj (fun h => hfree ((htype j).mpr h)) bn hbn

theorem assign_addr (h : Sound L din bit block) (hi : i < L.inodes)
    (halloc : (din i).type ≠ .free) (hk : k ≤ NDIRECT) (hzero : (din i).addrs k = 0)
    (hfresh : bit b = false) (hb : b < L.size) :
    Sound L (update din i ((din i).setAddr k b)) (update bit b true)
        (update block b fun _ => 0) ∧
      refAt L (update din i ((din i).setAddr k b))
        (update block b fun _ => 0) = update (refAt L din block) (i, k) (some b) ∧
      refAt L din block (i, k) = none := by
  have hb0 : b ≠ 0 := by
    rintro rfl
    simp [h.meta_used 0 L.data_pos] at hfresh
  have htype : ∀ j, (update din i ((din i).setAddr k b) j).type = .free ↔
      (din j).type = .free := by
    intro j
    by_cases hj : j = i
    · rw [hj, update_self]
      rfl
    · rw [update_of_ne hj]
  -- No indirect block is the one that is zeroed.
  have hind : ∀ j, j < L.inodes → (din j).type ≠ .free → (din j).addrs NDIRECT ≠ 0 →
      (din j).addrs NDIRECT ≠ b := fun j hj hfree hne heq =>
    h.owned.fresh hfresh (heq ▸ ref_indirect hj hfree hne)
  have href : refAt L (update din i ((din i).setAddr k b))
      (update block b fun _ => 0) = update (refAt L din block) (i, k) (some b) := by
    refine refAt_update hi halloc hb0 htype ?_ fun j hj hfree k' hp => ?_
    · rw [update_self, Dinode.at, if_pos hk, Dinode.setAddr_addrs, update_self]
    · by_cases hji : j = i
      · subst hji
        have hk' : k' ≠ k := fun heq => hp (heq ▸ rfl)
        rw [update_self, Dinode.at, Dinode.at, Dinode.setAddr_addrs]
        split
        · exact update_of_ne hk' _ _
        · by_cases hkind : k = NDIRECT
          · subst hkind
            simp only [update_self, if_neg hb0, hzero, if_true]
            exact word_zero _
          · simp only [update_of_ne (Ne.symm hkind)]
            split
            · rfl
            · next hne => rw [update_of_ne (hind j hj hfree hne)]
      · rw [update_of_ne hji]
        exact Dinode.at_congr rfl (fun hne => update_of_ne (hind j hj hfree hne) _ _) k'
  refine ⟨h.assign hfresh hb href (fun j => ?_) htype, href, ?_⟩
  · by_cases hj : j = i
    · rw [hj, update_self]
      rfl
    · rw [update_of_ne hj]
  · rw [refAt, if_neg]
    simp [Dinode.at, hk, hzero]

theorem indirect_ne (h : Sound L din bit block) (hi : i < L.inodes) (halloc : (din i).type ≠ .free)
    (hj : j < L.inodes) (hfree : (din j).type ≠ .free) (hne : j ≠ i)
    (hind : (din i).addrs NDIRECT ≠ 0) (hindj : (din j).addrs NDIRECT ≠ 0) :
    (din j).addrs NDIRECT ≠ (din i).addrs NDIRECT := by
  intro heq
  have hsame := h.owned.inj _ _ _ (ref_indirect hj hfree hindj) (heq ▸ ref_indirect hi halloc hind)
  exact hne (congrArg Prod.fst hsame)

theorem assign_word (h : Sound L din bit block) (hi : i < L.inodes)
    (halloc : (din i).type ≠ .free) (hind : (din i).addrs NDIRECT ≠ 0) (hj : j < NINDIRECT)
    (hzero : word (block ((din i).addrs NDIRECT)) j = 0) (hfresh : bit b = false) (hb : b < L.size) :
    let block' := update (update block b fun _ => 0) ((din i).addrs NDIRECT)
      (setWord (update block b (fun _ => 0) ((din i).addrs NDIRECT)) j b)
    Sound L din (update bit b true) block' ∧
      refAt L din block' = update (refAt L din block) (i, NDIRECT + 1 + j) (some b) ∧
      refAt L din block (i, NDIRECT + 1 + j) = none := by
  intro block'
  have hb0 : b ≠ 0 := by
    rintro rfl
    simp [h.meta_used 0 L.data_pos] at hfresh
  have hindb : ∀ j, j < L.inodes → (din j).type ≠ .free → (din j).addrs NDIRECT ≠ 0 →
      (din j).addrs NDIRECT ≠ b := fun j hj hfree hne heq =>
    h.owned.fresh hfresh (heq ▸ ref_indirect hj hfree hne)
  have hself : block' ((din i).addrs NDIRECT) = setWord (block ((din i).addrs NDIRECT)) j b := by
    simp only [block', update_self, update_of_ne (hindb i hi halloc hind)]
  have hlt : ¬NDIRECT + 1 + j ≤ NDIRECT := by omega
  have hsub : NDIRECT + 1 + j - (NDIRECT + 1) = j := by omega
  have href : refAt L din block' = update (refAt L din block) (i, NDIRECT + 1 + j) (some b) := by
    refine refAt_update hi halloc hb0 (fun _ => Iff.rfl) ?_ fun j' hj' hfree k hp => ?_
    · rw [Dinode.at, if_neg hlt, if_neg hind, hself, hsub]
      exact word_setWord _ hj (Nat.lt_of_lt_of_le hb L.size_le)
    · by_cases hji : j' = i
      · subst hji
        rw [Dinode.at, Dinode.at]
        split
        · rfl
        · next hk =>
          have hne : k - (NDIRECT + 1) ≠ j := by
            rintro rfl
            exact hp (by rw [show NDIRECT + 1 + (k - (NDIRECT + 1)) = k by omega])
          rw [hself, word_setWord_of_ne _ hne]
      · refine Dinode.at_congr rfl (fun hne => ?_) k
        simp only [block', update_of_ne (h.indirect_ne hi halloc hj' hfree hji hind hne),
          update_of_ne (hindb j' hj' hfree hne)]
  refine ⟨h.assign hfresh hb href (fun _ => rfl) fun _ => Iff.rfl, href, ?_⟩
  rw [refAt, if_neg]
  simp [Dinode.at, hind, hsub, hzero, hlt]

theorem refAt_write (h : Sound L din bit block) (hk : k ≠ NDIRECT)
    (href : refAt L din block (i, k) = some a) (d : Data) :
    refAt L din (update block a d) = refAt L din block := by
  refine refAt_congr (fun _ => Iff.rfl) fun j hj hfree k' => ?_
  refine Dinode.at_congr rfl (fun hne => update_of_ne ?_ _ _) k'
  intro heq
  have hsame := h.owned.inj _ _ _ (ref_indirect hj hfree hne) (heq ▸ href)
  exact hk (congrArg Prod.snd hsame).symm

theorem congr (h : Sound L din bit block) (href : refAt L din' block' = refAt L din block)
    (hsize : ∀ j, (din' j).size = (din j).size)
    (htype : ∀ j, (din' j).type = .free ↔ (din j).type = .free) : Sound L din' bit block' := by
  refine ⟨href ▸ h.owned, h.meta_used, fun j hj hfree => ?_, fun j hj hfree bn hbn => ?_⟩
  · rw [hsize]
    exact h.size_le j hj fun h => hfree ((htype j).mpr h)
  · rw [hsize] at hbn
    rw [href]
    exact h.filled j hj (fun h => hfree ((htype j).mpr h)) bn hbn

theorem resize (h : Sound L din bit block) {d : Dinode} {size : ℕ} (hd : d = { din i with size })
    (hle : size ≤ MAXFILE * BSIZE)
    (hfilled : ∀ bn, bn * BSIZE < size → refAt L din block (i, slotOf bn) ≠ none) :
    Sound L (update din i d) bit block := by
  have htype : ∀ j, (update din i d j).type = .free ↔ (din j).type = .free := by
    intro j
    by_cases hj : j = i
    · rw [hj, update_self, hd]
    · rw [update_of_ne hj]
  have href : refAt L (update din i d) block = refAt L din block := by
    refine refAt_congr htype fun j _ _ k => Dinode.at_congr ?_ (fun _ => rfl) k
    by_cases hj : j = i
    · rw [hj, update_self, hd]
    · rw [update_of_ne hj]
  refine ⟨href ▸ h.owned, h.meta_used, fun j hj hfree => ?_, fun j hj hfree bn hbn => ?_⟩
  · by_cases hji : j = i
    · rw [hji, update_self, hd]
      exact hle
    · rw [update_of_ne hji] at hfree ⊢
      exact h.size_le j hj hfree
  · rw [href]
    by_cases hji : j = i
    · rw [hji, update_self, hd] at hbn
      rw [hji]
      exact hfilled bn hbn
    · rw [update_of_ne hji] at hfree hbn
      exact h.filled j hj hfree bn hbn

theorem release (h : Sound L din bit block) {d : Dinode} {bit' : ℕ → Bool}
    (hd : d.type = .free ∨ d.size = 0 ∧ ∀ k, k ≤ NDIRECT → d.addrs k = 0)
    (hbit : ∀ b, bit' b = true ↔ bit b = true ∧ ∀ k, refAt L din block (i, k) ≠ some b) :
    Sound L (update din i d) bit' block ∧
      (Covered (refAt L din block) bit L.IsData →
        Covered (refAt L (update din i d) block) bit' L.IsData) := by
  have hself : ∀ k, refAt L (update din i d) block (i, k) = none := by
    intro k
    rw [refAt, if_neg]
    rintro ⟨-, hfree, hat⟩
    rw [update_self] at hfree hat
    obtain hd | ⟨-, hd⟩ := hd
    · exact hfree hd
    · exact hat (Dinode.at_eq_zero hd k)
  have hout : ∀ p : ℕ × ℕ, p.1 ≠ i → refAt L (update din i d) block p = refAt L din block p := by
    rintro ⟨j, k⟩ hj
    rw [refAt, refAt, update_of_ne hj]
  have hnone : ∀ b, bit' b = true → bit b = true ∧ ∀ p : ℕ × ℕ, p.1 = i →
      refAt L din block p ≠ some b := by
    rintro b hb
    refine ⟨((hbit b).mp hb).1, ?_⟩
    rintro ⟨_, k⟩ rfl
    exact ((hbit b).mp hb).2 k
  refine ⟨⟨h.owned.release (S := fun p => p.1 = i) ?_ hout fun b hb hno => ?_,
    fun b hb => ?_, fun j hj hfree => ?_, fun j hj hfree bn hbn => ?_⟩,
    fun hcov => hcov.release (S := fun p => p.1 = i) hout hnone⟩
  · rintro ⟨_, k⟩ rfl
    exact hself k
  · exact (hbit b).mpr ⟨hb, fun k => hno (i, k) rfl⟩
  · refine (hbit b).mpr ⟨h.meta_used b hb, fun k hk => ?_⟩
    exact absurd (h.owned.data _ _ hk).1 (Nat.not_le.mpr hb)
  · by_cases hji : j = i
    · rw [hji, update_self] at hfree ⊢
      rw [(hd.resolve_left hfree).1]
      exact Nat.zero_le _
    · rw [update_of_ne hji] at hfree ⊢
      exact h.size_le j hj hfree
  · by_cases hji : j = i
    · rw [hji, update_self] at hfree hbn
      rw [(hd.resolve_left hfree).1] at hbn
      exact absurd hbn (Nat.not_lt_zero _)
    · rw [update_of_ne hji] at hfree hbn
      rw [hout (j, slotOf bn) hji]
      exact h.filled j hj hfree bn hbn

theorem shrink (h : Sound L din bit block) {d : Dinode}
    (hsub : ∀ k a, refAt L (update din i d) block (i, k) = some a →
      refAt L din block (i, k) = some a)
    (hsize : i < L.inodes → d.type ≠ .free → d.size ≤ MAXFILE * BSIZE)
    (hfilled : i < L.inodes → d.type ≠ .free → ∀ bn, bn * BSIZE < d.size →
      refAt L (update din i d) block (i, slotOf bn) ≠ none) :
    Sound L (update din i d) bit block := by
  have hout : ∀ j k, j ≠ i → refAt L (update din i d) block (j, k) = refAt L din block (j, k) := by
    intro j k hj
    rw [refAt, refAt, update_of_ne hj]
  refine ⟨h.owned.mono ?_, h.meta_used, fun j hj hfree => ?_, fun j hj hfree bn hbn => ?_⟩
  · rintro ⟨j, k⟩ a hp
    by_cases hji : j = i
    · rw [hji] at hp ⊢
      exact hsub k a hp
    · rwa [hout j k hji] at hp
  · by_cases hji : j = i
    · rw [hji, update_self] at hfree ⊢
      exact hsize (hji ▸ hj) hfree
    · rw [update_of_ne hji] at hfree ⊢
      exact h.size_le j hj hfree
  · by_cases hji : j = i
    · rw [hji, update_self] at hfree hbn
      rw [hji]
      exact hfilled (hji ▸ hj) hfree bn hbn
    · rw [update_of_ne hji] at hfree hbn
      rw [hout j _ hji]
      exact h.filled j hj hfree bn hbn

end Sound

end KThreads.Inode
