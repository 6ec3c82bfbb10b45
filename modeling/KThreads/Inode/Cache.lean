import KThreads.Inode.Growth

/-!
# The inode cache

The inodes as the calls see them are the copies in the cache, and those on the disk where
there is no valid copy. Of them the invariant speaks: a block has one position at most that
refers to it, its bit is set then, and the contents of an inode have no holes. The disk may
lag behind a copy, in the addresses of blocks behind the end of the file, after a `writei`
whose copy has failed. When an entry is recycled, it is the inode on the disk that counts.
-/

namespace KThreads.Inode

open Function (update update_eq_self update_of_ne update_self)
open Log (Data)

/-- The inode `d` on the disk may lack blocks of its copy `m` that are behind the end. -/
structure Lags (d m : Dinode) : Prop where
  type : d.type = m.type
  size : d.size = m.size
  addrs : ∀ k, k ≤ NDIRECT → d.addrs k = m.addrs k ∨ d.addrs k = 0 ∧ m.size ≤ k * BSIZE

theorem Lags.refl (d : Dinode) : Lags d d := ⟨rfl, rfl, fun _ _ => .inl rfl⟩

theorem Lags.at_eq {d m : Dinode} {bn : ℕ} (h : Lags d m) (hbn : bn * BSIZE < m.size)
    (block : ℕ → Data) : d.at block (slotOf bn) = m.at block (slotOf bn) := by
  have hfull : ∀ k, k ≤ NDIRECT → k ≤ bn → d.addrs k = m.addrs k := by
    intro k hk hle
    rcases h.addrs k hk with heq | ⟨-, hend⟩
    · exact heq
    · have hmul := Nat.mul_le_mul_right BSIZE hle
      omega
  rw [Dinode.at, Dinode.at, slotOf]
  by_cases hdirect : bn < NDIRECT
  · rw [if_pos hdirect, if_pos hdirect.le, if_pos hdirect.le, hfull bn hdirect.le le_rfl]
  · have hlt : ¬bn + 1 ≤ NDIRECT := by omega
    rw [if_neg hdirect, if_neg hlt, if_neg hlt, hfull NDIRECT le_rfl (by omega)]

/-- The state between two calls, in which the calls see the inodes `v`. -/
structure Inv (L : Layout) (s : State) (v : ℕ → Dinode) : Prop where
  cached : ∀ e, 0 < (s.entry e).ref → (s.entry e).valid = true → v (s.entry e).inum = (s.entry e).din
  disk : ∀ i, (∀ e, 0 < (s.entry e).ref → (s.entry e).valid = true → (s.entry e).inum ≠ i) →
    v i = s.dinode i
  sound : Sound L v s.bit s.block
  inums : ∀ e, 0 < (s.entry e).ref → (s.entry e).inum < L.inodes
  single : ∀ e e', 0 < (s.entry e).ref → 0 < (s.entry e').ref →
    (s.entry e).inum = (s.entry e').inum → e = e'
  alloc : ∀ e, 0 < (s.entry e).ref → (s.entry e).valid = true → (s.entry e).din.type ≠ .free
  lags : ∀ i, Lags (s.dinode i) (v i)

/-- The disk does not lag, and every data block whose bit is set is referred to. -/
structure Exact (L : Layout) (s : State) (v : ℕ → Dinode) : Prop where
  agree : v = s.dinode
  covered : Covered (refAt L v s.block) s.bit L.IsData

variable {L : Layout} {s s' : State} {v : ℕ → Dinode} {e : Slot} {d : Dinode} {i k : ℕ}

theorem refAt_of_addrs {block : ℕ → Data} (htype : d.type = .free ↔ (v i).type = .free)
    (haddrs : d.addrs = (v i).addrs) : refAt L (update v i d) block = refAt L v block := by
  refine refAt_congr (fun j => ?_) fun j _ _ k => Dinode.at_congr ?_ (fun _ => rfl) k
  all_goals
    by_cases hj : j = i
    · subst hj
      rw [update_self]
      assumption
    · rw [update_of_ne hj]

theorem Sound.size_le_of_zero (h : Sound L v s.bit s.block) (hi : i < L.inodes)
    (halloc : (v i).type ≠ .free) (hk : k ≤ NDIRECT) (hzero : (v i).addrs k = 0) :
    (v i).size ≤ k * BSIZE := by
  by_contra hlt
  refine h.filled i hi halloc k (Nat.lt_of_not_le hlt) ?_
  rw [refAt, if_neg]
  rintro ⟨-, -, hat⟩
  refine hat ?_
  rw [slotOf, Dinode.at]
  rcases Nat.lt_or_eq_of_le hk with hk | rfl
  · rw [if_pos hk, if_pos hk.le, hzero]
  · simp [hzero]

theorem Grows.lags (h : Grows L v e s s') (hl : Locked L v e s) (hd : Lags d (s.entry e).din) :
    Lags d (s'.entry e).din := by
  refine ⟨hd.type.trans h.type.symm, hd.size.trans h.size.symm, fun k hk => ?_⟩
  rw [h.size]
  rcases hd.addrs k hk with heq | hzero
  · by_cases hk0 : (s.entry e).din.addrs k = 0
    · refine .inr ⟨heq.trans hk0, ?_⟩
      have hle := hl.sound.size_le_of_zero hl.inum hl.view_alloc hk
        (by rw [State.view_self]; exact hk0)
      rwa [State.view_self] at hle
    · -- An address that was there has stayed.
      have href : s.ref L v e k = some ((s.entry e).din.addrs k) := by
        refine refAt_eq_some.mpr ⟨hl.inum, hl.view_alloc, ?_, hk0⟩
        rw [State.view_self, Dinode.at, if_pos hk]
      have href' := h.ref href
      rw [State.ref, refAt_eq_some, State.view_self, Dinode.at, if_pos hk] at href'
      exact .inl (heq.trans href'.2.2.1.symm)
  · exact .inr hzero

namespace Inv

theorem of_entry (h : Inv L s v) (href : 0 < (s.entry e).ref)
    (hsound : Sound L (update v (s.entry e).inum d) s'.bit s'.block)
    (hdinode : ∀ i, i ≠ (s.entry e).inum → s'.dinode i = s.dinode i)
    (hother : ∀ e', e' ≠ e → s'.entry e' = s.entry e')
    (hinum : (s'.entry e).inum = (s.entry e).inum)
    (hself : 0 < (s'.entry e).ref → (s'.entry e).valid = true →
      d = (s'.entry e).din ∧ d.type ≠ .free)
    (hdisk : ¬(0 < (s'.entry e).ref ∧ (s'.entry e).valid = true) → d = s'.dinode (s.entry e).inum)
    (hlags : Lags (s'.dinode (s.entry e).inum) d) : Inv L s' (update v (s.entry e).inum d) := by
  have hne : ∀ e', e' ≠ e → 0 < (s.entry e').ref → (s.entry e').inum ≠ (s.entry e).inum :=
    fun e' he href' heq => he (h.single e' e href' href heq)
  refine ⟨fun e' href' hvalid => ?_, fun i hi => ?_, hsound, fun e' href' => ?_,
    fun e₁ e₂ h₁ h₂ heq => ?_, fun e' href' hvalid => ?_, fun i => ?_⟩
  · by_cases he : e' = e
    · subst he
      rw [hinum, update_self]
      exact (hself href' hvalid).1
    · rw [hother e' he] at href' hvalid ⊢
      rw [update_of_ne (hne e' he href')]
      exact h.cached e' href' hvalid
  · by_cases hii : i = (s.entry e).inum
    · rw [hii, update_self]
      exact hdisk fun hboth => hi e hboth.1 hboth.2 (hinum.trans hii.symm)
    · rw [update_of_ne hii, hdinode i hii]
      refine h.disk i fun e' href' hvalid heq => ?_
      have he : e' ≠ e := fun he => hii (he ▸ heq.symm)
      rw [← hother e' he] at href' hvalid heq
      exact hi e' href' hvalid heq
  · by_cases he : e' = e
    · rw [he, hinum]
      exact h.inums e href
    · rw [hother e' he] at href' ⊢
      exact h.inums e' href'
  · by_cases he₁ : e₁ = e
    · by_cases he₂ : e₂ = e
      · rw [he₁, he₂]
      · rw [he₁, hinum, hother e₂ he₂] at heq
        rw [hother e₂ he₂] at h₂
        exact absurd heq.symm (hne e₂ he₂ h₂)
    · rw [hother e₁ he₁] at h₁ heq
      by_cases he₂ : e₂ = e
      · rw [he₂, hinum] at heq
        exact absurd heq (hne e₁ he₁ h₁)
      · rw [hother e₂ he₂] at h₂ heq
        exact h.single e₁ e₂ h₁ h₂ heq
  · by_cases he : e' = e
    · subst he
      obtain ⟨hd, htype⟩ := hself href' hvalid
      exact hd ▸ htype
    · rw [hother e' he] at href' hvalid ⊢
      exact h.alloc e' href' hvalid
  · by_cases hii : i = (s.entry e).inum
    · rw [hii, update_self]
      exact hlags
    · rw [update_of_ne hii, hdinode i hii]
      exact h.lags i

theorem of_same (h : Inv L s v) (href : 0 < (s.entry e).ref) (q : Entry)
    (hinum : q.inum = (s.entry e).inum)
    (hself : 0 < q.ref → q.valid = true → v (s.entry e).inum = q.din ∧ q.din.type ≠ .free)
    (hdisk : ¬(0 < q.ref ∧ q.valid = true) → v (s.entry e).inum = s.dinode (s.entry e).inum) :
    Inv L (s.setEntry e q) v := by
  have hq : (s.setEntry e q).entry e = q := update_self ..
  have hsame : update v (s.entry e).inum (v (s.entry e).inum) = v := update_eq_self ..
  have hinv : Inv L (s.setEntry e q) (update v (s.entry e).inum (v (s.entry e).inum)) := by
    refine h.of_entry href ?_ (fun _ _ => rfl)
      (fun e' he => update_of_ne he _ _) ?_ ?_ ?_ (h.lags _)
    · rw [hsame]
      exact h.sound
    · rw [hq, hinum]
    · rw [hq]
      exact fun h₁ h₂ => ⟨(hself h₁ h₂).1, (hself h₁ h₂).1 ▸ (hself h₁ h₂).2⟩
    · rw [hq]
      exact hdisk
  rwa [hsame] at hinv

theorem of_invalid (h : Inv L s v) (href : 0 < (s.entry e).ref) (hvalid : (s.entry e).valid = false) :
    v (s.entry e).inum = s.dinode (s.entry e).inum := by
  refine h.disk _ fun e' href' hvalid' heq => ?_
  rw [h.single e' e href' href heq, hvalid] at hvalid'
  cases hvalid'

theorem locked (h : Inv L s v) (href : 0 < (s.entry e).ref) (hvalid : (s.entry e).valid = true) :
    Locked L v e s ∧ s.view v e = v := by
  have hview : s.view v e = v := by rw [State.view, ← h.cached e href hvalid, update_eq_self]
  exact ⟨⟨hview.symm ▸ h.sound, h.inums e href, h.alloc e href hvalid⟩, hview⟩

theorem ilock (h : Inv L s v) (href : 0 < (s.entry e).ref) (hlock : s.ilock e = some s') :
    Inv L s' v ∧ Locked L v e s' ∧ (0 < (s'.entry e).ref ∧ (s'.entry e).valid = true) ∧
      s'.view v e = v ∧ ∃ q, s' = s.setEntry e q ∧ q.inum = (s.entry e).inum := by
  rw [State.ilock] at hlock
  split at hlock
  · next hvalid =>
    cases hlock
    obtain ⟨hl, hview⟩ := h.locked href hvalid
    refine ⟨h, hl, ⟨href, hvalid⟩, hview, s.entry e, ?_, rfl⟩
    rw [State.setEntry, update_eq_self]
  · next hvalid =>
    split at hlock
    · cases hlock
    · next htype =>
      cases hlock
      have hdin := h.of_invalid href (by simpa using hvalid)
      have hself : (s.setEntry e { s.entry e with
          valid := true, din := s.dinode (s.entry e).inum }).entry e =
          { s.entry e with valid := true, din := s.dinode (s.entry e).inum } :=
        update_self ..
      have hview : (s.setEntry e { s.entry e with
          valid := true, din := s.dinode (s.entry e).inum }).view v e = v := by
        rw [State.view, hself, ← hdin, update_eq_self]
      refine ⟨h.of_same href _ rfl (fun _ _ => ⟨hdin, htype⟩) fun hno => absurd ⟨href, rfl⟩ hno,
        ⟨hview.symm ▸ h.sound, ?_, ?_⟩, ?_, hview, _, rfl, rfl⟩
      · rw [hself]
        exact h.inums e href
      · rw [hself]
        exact htype
      · rw [hself]
        exact ⟨href, rfl⟩

theorem idup (h : Inv L s v) (href : 0 < (s.entry e).ref) : Inv L (s.idup e) v :=
  h.of_same href _ rfl (fun _ hvalid => ⟨h.cached e href hvalid, h.alloc e href hvalid⟩)
    fun hno => h.of_invalid href (by simpa using fun hvalid => hno ⟨Nat.succ_pos _, hvalid⟩)

theorem recycle (h : Inv L s v) (hfree : (s.entry e).ref = 0) (hi : i < L.inodes)
    (hnone : ∀ e, 0 < (s.entry e).ref → (s.entry e).inum ≠ i) :
    Inv L (s.setEntry e { s.entry e with inum := i, ref := 1, valid := false }) v := by
  set s' := s.setEntry e { s.entry e with inum := i, ref := 1, valid := false } with hs'
  have hself : s'.entry e = { s.entry e with inum := i, ref := 1, valid := false } :=
    update_self ..
  have hother : ∀ e', e' ≠ e → s'.entry e' = s.entry e' := fun e' he => update_of_ne he _ _
  -- The valid entries are the same.
  have hsame : ∀ e', (s'.entry e').valid = true → e' ≠ e := by
    rintro e' hvalid rfl
    rw [hself] at hvalid
    cases hvalid
  have hused : ∀ e', 0 < (s.entry e').ref → e' ≠ e := by
    rintro e' href rfl
    omega
  refine ⟨fun e' href hvalid => ?_, fun j hj => h.disk j fun e' href hvalid => ?_, h.sound,
    fun e' href => ?_, fun e₁ e₂ h₁ h₂ heq => ?_, fun e' href hvalid => ?_, h.lags⟩
  · have he := hsame e' hvalid
    rw [hother e' he] at href hvalid ⊢
    exact h.cached e' href hvalid
  · have he := hused e' href
    rw [← hother e' he] at href hvalid ⊢
    exact hj e' href hvalid
  · by_cases he : e' = e
    · rw [he, hself]
      exact hi
    · rw [hother e' he] at href ⊢
      exact h.inums e' href
  · by_cases he₁ : e₁ = e
    · by_cases he₂ : e₂ = e
      · rw [he₁, he₂]
      · rw [he₁, hself, hother e₂ he₂] at heq
        rw [hother e₂ he₂] at h₂
        exact absurd heq.symm (hnone e₂ h₂)
    · rw [hother e₁ he₁] at h₁ heq
      by_cases he₂ : e₂ = e
      · rw [he₂, hself] at heq
        exact absurd heq (hnone e₁ h₁)
      · rw [hother e₂ he₂] at h₂ heq
        exact h.single e₁ e₂ h₁ h₂ heq
  · have he := hsame e' hvalid
    rw [hother e' he] at href hvalid ⊢
    exact h.alloc e' href hvalid

theorem iget (h : Inv L s v) (hi : i < L.inodes) (hget : s.iget i = some (s', e)) :
    Inv L s' v ∧ s'.dinode = s.dinode ∧ s'.bit = s.bit ∧ s'.block = s.block := by
  rw [State.iget] at hget
  split at hget
  · next e' hfound =>
    cases hget
    have hp := List.find?_some hfound
    simp only [decide_eq_true_eq] at hp
    exact ⟨h.idup hp.1, rfl, rfl, rfl⟩
  · next hnone =>
    obtain ⟨e', hfound, heq⟩ := Option.map_eq_some_iff.mp hget
    cases heq
    have hp := List.find?_some hfound
    refine ⟨h.recycle (by simpa using hp) hi fun e href heq => ?_, rfl, rfl, rfl⟩
    have hall := List.find?_eq_none.mp hnone e (List.mem_finRange e)
    simp only [decide_eq_true_eq] at hall
    exact hall ⟨href, heq⟩

theorem allocate (h : Inv L s v) (hfree : (s.dinode i).type = .free) {d : Dinode}
    (hsize : d.size = 0) (haddrs : ∀ k, d.addrs k = 0) :
    Inv L { s with dinode := update s.dinode i d } (update v i d) ∧
      refAt L (update v i d) s.block = refAt L v s.block := by
  have hseen : ∀ e, 0 < (s.entry e).ref → (s.entry e).valid = true → (s.entry e).inum ≠ i := by
    rintro e href hvalid rfl
    refine h.alloc e href hvalid ?_
    rw [← h.cached e href hvalid, ← (h.lags _).type, hfree]
  have hvi : v i = s.dinode i := h.disk i hseen
  have hself : ∀ k, refAt L (update v i d) s.block (i, k) = none := by
    intro k
    rw [refAt, if_neg]
    rintro ⟨-, -, hat⟩
    rw [update_self] at hat
    exact hat (Dinode.at_eq_zero (fun k _ => haddrs k) k)
  have hrefs : refAt L (update v i d) s.block = refAt L v s.block := by
    ext1 ⟨j, k⟩
    by_cases hj : j = i
    · rw [hj, hself, refAt, if_neg]
      rw [hvi]
      exact fun hall => hall.2.1 hfree
    · rw [refAt, refAt, update_of_ne hj]
  refine ⟨⟨fun e href hvalid => ?_, fun j hj => ?_, ?_, h.inums, h.single, h.alloc, fun j => ?_⟩, hrefs⟩
  · rw [update_of_ne (hseen e href hvalid)]
    exact h.cached e href hvalid
  · dsimp only
    by_cases hji : j = i
    · rw [hji, update_self, update_self]
    · rw [update_of_ne hji, update_of_ne hji]
      exact h.disk j hj
  · refine h.sound.shrink (fun k a hk => ?_) (fun _ _ => ?_) fun _ _ bn hbn => ?_
    · rw [hself] at hk
      cases hk
    · rw [hsize]
      exact Nat.zero_le _
    · rw [hsize] at hbn
      exact absurd hbn (Nat.not_lt_zero _)
  · dsimp only
    by_cases hji : j = i
    · rw [hji, update_self, update_self]
      exact .refl d
    · rw [update_of_ne hji, update_of_ne hji]
      exact h.lags j

theorem ialloc (h : Inv L s v) {type : FileType} (halloc : s.ialloc L type = some (s', e)) :
    ∃ v', Inv L s' v' ∧ (Exact L s v → Exact L s' v') := by
  obtain ⟨i, hfound, hget⟩ := Option.bind_eq_some_iff.mp halloc
  have hfree := List.find?_some hfound
  simp only [decide_eq_true_eq] at hfree
  have hmem := List.mem_of_find?_eq_some hfound
  rw [List.mem_range'_1] at hmem
  obtain ⟨hinv, hrefs⟩ := h.allocate (d := ⟨type, 0, 0, 0, 0, fun _ => 0⟩) hfree rfl fun _ => rfl
  have hle := L.ninodes_le
  obtain ⟨hinv', hdinode, hbit, hblock⟩ := hinv.iget (by omega) hget
  refine ⟨_, hinv', fun hexact => ⟨?_, ?_⟩⟩
  · rw [hdinode, hexact.agree]
  · rw [hbit, hblock, hrefs]
    exact hexact.covered

end Inv

theorem State.of_bfreeAll {as : List ℕ} (h : s.bfreeAll as = some s') :
    s' = { s with bit := s'.bit } ∧
      ∀ b, s'.bit b = true ↔ s.bit b = true ∧ (b ≠ 0 → b ∉ as) := by
  induction as generalizing s with
  | nil =>
    cases h
    simp
  | cons a as ih =>
    obtain ⟨s₁, h₁, hrest⟩ := Option.bind_eq_some_iff.mp h
    obtain ⟨hs', hbit⟩ := ih hrest
    split at h₁
    · next hzero =>
      cases h₁
      refine ⟨hs', fun b => ?_⟩
      rw [hbit b, List.mem_cons, hzero]
      grind
    · next hne =>
      rw [State.bfree] at h₁
      split at h₁
      · cases h₁
        refine ⟨hs', fun b => ?_⟩
        rw [hbit b, List.mem_cons]
        by_cases hb : b = a
        · simp [hb, hne]
        · simp [hb]
      · cases h₁

theorem Dinode.at_cases (d : Dinode) (block : ℕ → Data) {b : ℕ} (hb : b ≠ 0) :
    (∃ k, d.at block k = b) ↔ b ∈ (List.range NDIRECT).map d.addrs ∨ d.addrs NDIRECT ≠ 0 ∧
      (b = d.addrs NDIRECT ∨
        b ∈ (List.range NINDIRECT).map (word (block (d.addrs NDIRECT)))) := by
  constructor
  · rintro ⟨k, rfl⟩
    rw [Dinode.at] at hb ⊢
    split
    · next hk =>
      rw [if_pos hk] at hb
      rcases Nat.lt_or_eq_of_le hk with hk | rfl
      · exact .inl (List.mem_map_of_mem (List.mem_range.mpr hk))
      · exact .inr ⟨hb, .inl rfl⟩
    · next hk =>
      rw [if_neg hk] at hb
      split
      · next hind => exact absurd (if_pos hind) hb
      · next hind =>
        rw [if_neg hind] at hb
        refine .inr ⟨hind, .inr (List.mem_map_of_mem (List.mem_range.mpr ?_))⟩
        by_contra hlt
        exact hb (dif_neg hlt)
  · rintro (hmem | ⟨hind, rfl | hmem⟩)
    · obtain ⟨k, hk, rfl⟩ := List.mem_map.mp hmem
      exact ⟨k, if_pos (Nat.le_of_lt (List.mem_range.mp hk))⟩
    · exact ⟨NDIRECT, if_pos le_rfl⟩
    · obtain ⟨j, hj, rfl⟩ := List.mem_map.mp hmem
      refine ⟨NDIRECT + 1 + j, ?_⟩
      rw [Dinode.at, if_neg (by omega), if_neg hind, show NDIRECT + 1 + j - (NDIRECT + 1) = j by omega]

/-- An inode without contents. -/
def Dinode.empty (d : Dinode) : Dinode :=
  { d with addrs := fun k => if k ≤ NDIRECT then 0 else d.addrs k, size := 0 }

theorem State.of_itrunc (h : s.itrunc e = some s') :
    ∃ bit, s' = (State.setDin { s with bit } e (s.entry e).din.empty).iupdate e ∧
      ∀ b, bit b = true ↔ s.bit b = true ∧ (b ≠ 0 → ∀ k, (s.entry e).din.at s.block k ≠ b) := by
  obtain ⟨s₁, h₁, h⟩ := Option.bind_eq_some_iff.mp h
  obtain ⟨s₂, h₂, rfl⟩ := Option.map_eq_some_iff.mp h
  obtain ⟨hs₁, hbit₁⟩ := State.of_bfreeAll h₁
  have hcases := fun {b : ℕ} (hb : b ≠ 0) => (s.entry e).din.at_cases s.block hb
  split at h₂
  · next hind =>
    cases h₂
    refine ⟨s₁.bit, by rw [hs₁]; rfl, fun b => (hbit₁ b).trans (and_congr_right fun _ => ?_)⟩
    refine forall_congr' fun hb => ?_
    rw [← not_exists, hcases hb]
    simp [hind]
  · next hind =>
    obtain ⟨s₃, h₃, h₂⟩ := Option.bind_eq_some_iff.mp h₂
    obtain ⟨hs₃, hbit₃⟩ := State.of_bfreeAll h₃
    rw [State.bfree] at h₂
    split at h₂
    · cases h₂
      refine ⟨update s₃.bit ((s.entry e).din.addrs NDIRECT) false, by rw [hs₃, hs₁]; rfl,
        fun b => ?_⟩
      have hblock : s₁.block = s.block := by rw [hs₁]
      rw [hblock] at hbit₃
      by_cases hb : b = (s.entry e).din.addrs NDIRECT
      · subst hb
        simp only [update_self, Bool.false_eq_true, false_iff]
        exact fun hno => hno.2 hind NDIRECT (if_pos le_rfl)
      · rw [update_of_ne hb, hbit₃, hbit₁, and_assoc]
        refine and_congr_right fun _ => ?_
        rw [← imp_and]
        refine forall_congr' fun hb0 => ?_
        rw [← not_exists, hcases hb0]
        simp only [hb, hind, ne_eq, not_false_eq_true, true_and, false_or, not_or]
    · cases h₂

theorem Locked.release (h : Locked L v e s) (hview : s.view v e = v) {bit : ℕ → Bool}
    (hbit : ∀ b, bit b = true ↔ s.bit b = true ∧ (b ≠ 0 → ∀ k, (s.entry e).din.at s.block k ≠ b))
    (hd : d.type = .free ∨ d.size = 0 ∧ ∀ k, k ≤ NDIRECT → d.addrs k = 0) :
    Sound L (update v (s.entry e).inum d) bit s.block ∧
      (Covered (refAt L v s.block) s.bit L.IsData →
        Covered (refAt L (update v (s.entry e).inum d) s.block) bit L.IsData) := by
  have hself : v (s.entry e).inum = (s.entry e).din := by rw [← hview, State.view_self]
  refine (hview ▸ h.sound : Sound L v s.bit s.block).release hd fun b =>
    (hbit b).trans (and_congr_right fun _ => ?_)
  constructor
  · intro hne k hk
    obtain ⟨-, -, hat, hb⟩ := refAt_eq_some.mp hk
    exact hne hb k (hself ▸ hat)
  · exact fun hno hb k hat =>
      hno k (refAt_eq_some.mpr ⟨h.inum, hself ▸ h.alloc, hself ▸ hat, hb⟩)

namespace Inv

theorem of_iupdate (h : Inv L s v) (href : 0 < (s.entry e).ref) {q : Entry}
    (hsound : Sound L (update v (s.entry e).inum q.din) s'.bit s'.block)
    (hdinode : s'.dinode = update s.dinode (s.entry e).inum q.din)
    (hentry : s'.entry = update s.entry e q) (hinum : q.inum = (s.entry e).inum)
    (hvalid : q.valid = true → q.din.type ≠ .free)
    (hcov : Covered (refAt L v s.block) s.bit L.IsData →
      Covered (refAt L (update v (s.entry e).inum q.din) s'.block) s'.bit L.IsData) :
    ∃ v', Inv L s' v' ∧ (Exact L s v → Exact L s' v') := by
  have hq : s'.entry e = q := by rw [hentry, update_self]
  have hd : s'.dinode (s.entry e).inum = q.din := by rw [hdinode, update_self]
  refine ⟨_, h.of_entry href hsound (fun i hi => ?_) (fun e' he => ?_) ?_ ?_ ?_ ?_, fun hexact => ⟨?_, ?_⟩⟩
  · rw [hdinode, update_of_ne hi]
  · rw [hentry, update_of_ne he]
  · rw [hq, hinum]
  · rw [hq]
    exact fun _ hq' => ⟨rfl, hvalid hq'⟩
  · exact fun _ => hd.symm
  · rw [hd]
    exact .refl _
  · rw [hdinode, hexact.agree]
  · exact hcov hexact.covered

theorem itrunc (h : Inv L s v) (hl : Locked L v e s) (href : 0 < (s.entry e).ref)
    (hview : s.view v e = v) (htrunc : s.itrunc e = some s') :
    ∃ v', Inv L s' v' ∧ (Exact L s v → Exact L s' v') := by
  obtain ⟨bit, rfl, hbit⟩ := State.of_itrunc htrunc
  obtain ⟨hsound, hcov⟩ := hl.release (d := (s.entry e).din.empty) hview hbit
    (.inr ⟨rfl, fun k hk => if_pos hk⟩)
  refine h.of_iupdate href (q := { s.entry e with din := (s.entry e).din.empty }) hsound ?_ rfl rfl
    (fun _ => hl.alloc) hcov
  rw [State.iupdate, State.setDin_self]
  rfl

theorem relink (h : Inv L s v) (hl : Locked L v e s) (href : 0 < (s.entry e).ref)
    (hview : s.view v e = v) (nlink : ℤ) :
    ∃ v', Inv L ((s.setDin e { (s.entry e).din with nlink }).iupdate e) v' ∧
      (Exact L s v → Exact L ((s.setDin e { (s.entry e).din with nlink }).iupdate e) v') := by
  have hself : v (s.entry e).inum = (s.entry e).din := by rw [← hview, State.view_self]
  have hrefs : refAt L (update v (s.entry e).inum { (s.entry e).din with nlink }) s.block =
      refAt L v s.block := refAt_of_addrs (by rw [hself]) (by rw [hself])
  have hattr : ∀ j, (update v (s.entry e).inum { (s.entry e).din with nlink } j).size = (v j).size ∧
      ((update v (s.entry e).inum { (s.entry e).din with nlink } j).type = .free ↔
        (v j).type = .free) := by
    intro j
    by_cases hj : j = (s.entry e).inum
    · rw [hj, update_self, hself]
      exact ⟨rfl, Iff.rfl⟩
    · rw [update_of_ne hj]
      exact ⟨rfl, Iff.rfl⟩
  refine h.of_iupdate href (q := { s.entry e with din := { (s.entry e).din with nlink } })
    (h.sound.congr hrefs (fun j => (hattr j).1) fun j => (hattr j).2) ?_ rfl rfl (fun _ => hl.alloc)
    fun hcov => ?_
  · rw [State.iupdate, State.setDin_self]
    rfl
  · exact hrefs ▸ hcov

theorem evict (h : Inv L s v) (href : 0 < (s.entry e).ref) {q : Entry}
    (hq : q.ref = 0) (hinum : q.inum = (s.entry e).inum) :
    ∃ v', Inv L (s.setEntry e q) v' ∧ (Exact L s v → Exact L (s.setEntry e q) v') := by
  have hself : (s.setEntry e q).entry e = q := update_self ..
  have hlags := h.lags (s.entry e).inum
  have hinums := h.inums e href
  -- What the inode on the disk refers to, the copy refers to as well.
  have hsub : ∀ k a, refAt L (update v (s.entry e).inum (s.dinode (s.entry e).inum)) s.block
      ((s.entry e).inum, k) = some a → refAt L v s.block ((s.entry e).inum, k) = some a := by
    intro k a hk
    rw [refAt_eq_some, update_self] at hk
    obtain ⟨-, htype, hat, ha⟩ := hk
    refine refAt_eq_some.mpr ⟨hinums, hlags.type ▸ htype, ?_, ha⟩
    rw [Dinode.at] at hat ⊢
    split
    · next hle =>
      rw [if_pos hle] at hat
      rcases hlags.addrs k hle with heq | hzero
      · rw [← heq, hat]
      · exact absurd (hat.symm.trans hzero.1) ha
    · next hle =>
      rw [if_neg hle] at hat
      rcases hlags.addrs NDIRECT le_rfl with heq | hzero
      · rw [← heq]
        exact hat
      · rw [if_pos hzero.1] at hat
        exact absurd hat.symm ha
  have hsound : Sound L (update v (s.entry e).inum (s.dinode (s.entry e).inum)) s.bit s.block := by
    refine h.sound.shrink hsub (fun hi htype => ?_) fun hi htype bn hbn => ?_
    · rw [hlags.size]
      exact h.sound.size_le _ hi (hlags.type ▸ htype)
    · rw [hlags.size] at hbn
      obtain ⟨a, ha⟩ := Option.ne_none_iff_exists'.mp
        (h.sound.filled _ hi (hlags.type ▸ htype) bn hbn)
      obtain ⟨-, -, hat, ha0⟩ := refAt_eq_some.mp ha
      rw [Option.ne_none_iff_exists']
      refine ⟨a, refAt_eq_some.mpr ⟨hi, by rw [update_self]; exact htype, ?_, ha0⟩⟩
      rw [update_self, hlags.at_eq hbn, hat]
  refine ⟨_, h.of_entry href hsound (fun _ _ => rfl) (fun e' he => update_of_ne he _ _)
    (by rw [hself, hinum]) ?_ (fun _ => rfl) (.refl _), fun hexact => ?_⟩
  · rw [hself, hq]
    exact fun hpos => absurd hpos (Nat.lt_irrefl 0)
  · have hv : update v (s.entry e).inum (s.dinode (s.entry e).inum) = v := by
      rw [← congrFun hexact.agree, update_eq_self]
    rw [hv]
    exact ⟨hexact.agree, hexact.covered⟩

theorem iput (h : Inv L s v) (href : 0 < (s.entry e).ref) (hput : s.iput e = some s') :
    ∃ v', Inv L s' v' ∧ (Exact L s v → Exact L s' v') := by
  obtain ⟨s₁, hs₁, rfl⟩ := Option.map_eq_some_iff.mp hput
  split at hs₁
  · next hlast =>
    obtain ⟨hvalid, -, hone⟩ := hlast
    obtain ⟨s₂, htrunc, rfl⟩ := Option.map_eq_some_iff.mp hs₁
    obtain ⟨bit, rfl, hbit⟩ := State.of_itrunc htrunc
    obtain ⟨hl, hview⟩ := h.locked href hvalid
    obtain ⟨hsound, hcov⟩ := hl.release (d := { (s.entry e).din.empty with type := .free }) hview
      hbit (.inl rfl)
    refine h.of_iupdate href (q := ⟨(s.entry e).inum, (s.entry e).ref - 1, false,
      { (s.entry e).din.empty with type := .free }⟩) hsound ?_ ?_ rfl nofun hcov
    · simp [State.setEntry, State.setDin, State.iupdate]
    · simp [State.setEntry, State.setDin, State.iupdate]
  · next hlast =>
    cases hs₁
    by_cases hone : (s.entry e).ref = 1
    · exact h.evict href (by simp [hone]) rfl
    · refine ⟨v, h.of_same href _ rfl
        (fun _ hvalid => ⟨h.cached e href hvalid, h.alloc e href hvalid⟩) fun hno => ?_,
        fun hexact => ⟨hexact.agree, hexact.covered⟩⟩
      refine h.of_invalid href ?_
      have hpos : 0 < (s.entry e).ref - 1 := by omega
      simpa [hpos] using hno

end Inv

end KThreads.Inode
