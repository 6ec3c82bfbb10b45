import KThreads.Inode.References

/-!
# An inode that grows

`bmap` is called for an inode that is locked: the references are those of some inodes, with
the copy in the cache for the locked one. It leaves every reference and fills the position
that it is asked for, and it changes nothing when that is filled already. The loops of `readi`
and `writei` are a row of such calls.
-/

namespace KThreads.Inode

open Function (update update_idem update_of_ne update_self)
open Log (Data)

variable {L : Layout} {v : ℕ → Dinode} {e : Slot} {s s' s'' : State} {a bn k j : ℕ}

/-- The inodes `v`, with the copy of one of them in the cache. -/
def State.view (s : State) (v : ℕ → Dinode) (e : Slot) : ℕ → Dinode :=
  update v (s.entry e).inum (s.entry e).din

/-- The block that the locked inode refers to at an index. -/
def State.ref (L : Layout) (s : State) (v : ℕ → Dinode) (e : Slot) (k : ℕ) : Option ℕ :=
  refAt L (s.view v e) s.block ((s.entry e).inum, k)

/-- The inode is locked. -/
structure Locked (L : Layout) (v : ℕ → Dinode) (e : Slot) (s : State) : Prop where
  sound : Sound L (s.view v e) s.bit s.block
  inum : (s.entry e).inum < L.inodes
  alloc : (s.entry e).din.type ≠ .free

/-- Blocks have been added to the locked inode. -/
structure Grows (L : Layout) (v : ℕ → Dinode) (e : Slot) (s s' : State) : Prop where
  sound : Sound L (s'.view v e) s'.bit s'.block
  dinode : s'.dinode = s.dinode
  other : ∀ e', e' ≠ e → s'.entry e' = s.entry e'
  entry : s'.entry e = { s.entry e with
    din := { (s.entry e).din with addrs := (s'.entry e).din.addrs } }
  beyond : ∀ k, NDIRECT < k → (s'.entry e).din.addrs k = (s.entry e).din.addrs k
  mono : ∀ p a, refAt L (s.view v e) s.block p = some a → refAt L (s'.view v e) s'.block p = some a
  inode : ∀ p : ℕ × ℕ, p.1 ≠ (s.entry e).inum →
    refAt L (s'.view v e) s'.block p = refAt L (s.view v e) s.block p
  covered : Covered (refAt L (s.view v e) s.block) s.bit L.IsData →
    Covered (refAt L (s'.view v e) s'.block) s'.bit L.IsData

/-- The blocks of the contents are as they were, and those that were added are zero. -/
def KeepsData (L : Layout) (v : ℕ → Dinode) (e : Slot) (s s' : State) : Prop :=
  ∀ p a, refAt L (s'.view v e) s'.block p = some a → p.2 ≠ NDIRECT →
    refAt L (s.view v e) s.block p = some a ∧ s'.block a = s.block a ∨
      refAt L (s.view v e) s.block p = none ∧ s'.block a = fun _ => 0

@[simp] theorem State.view_self (s : State) (v : ℕ → Dinode) (e : Slot) :
    s.view v e (s.entry e).inum = (s.entry e).din :=
  update_self ..

@[simp] theorem State.setEntry_self (s : State) (e : Slot) (q : Entry) : (s.setEntry e q).entry e = q :=
  update_self ..

theorem State.setEntry_of_ne {s : State} {e e' : Slot} {q : Entry} (he : e' ≠ e) :
    (s.setEntry e q).entry e' = s.entry e' :=
  update_of_ne he ..

@[simp] theorem State.setDin_self (s : State) (e : Slot) (d : Dinode) :
    (s.setDin e d).entry e = { s.entry e with din := d } :=
  update_self ..

theorem State.setDin_other (s : State) {e e' : Slot} (d : Dinode) (he : e' ≠ e) :
    (s.setDin e d).entry e' = s.entry e' :=
  update_of_ne he _ _

namespace Grows

theorem refl (h : Locked L v e s) : Grows L v e s s :=
  ⟨h.sound, rfl, fun _ _ => rfl, rfl, fun _ _ => rfl, fun _ _ => id, fun _ _ => rfl, id⟩

theorem trans (h : Grows L v e s s') (h' : Grows L v e s' s'') : Grows L v e s s'' where
  sound := h'.sound
  dinode := h'.dinode.trans h.dinode
  other e' he := (h'.other e' he).trans (h.other e' he)
  entry := by
    rw [h'.entry, h.entry]
  beyond k hk := (h'.beyond k hk).trans (h.beyond k hk)
  mono p a hp := h'.mono p a (h.mono p a hp)
  inode p hp := by
    have hp' : p.1 ≠ (s'.entry e).inum := by rwa [h.entry]
    exact (h'.inode p hp').trans (h.inode p hp)
  covered hcov := h'.covered (h.covered hcov)

theorem inum (h : Grows L v e s s') : (s'.entry e).inum = (s.entry e).inum := by
  rw [h.entry]

theorem type (h : Grows L v e s s') : (s'.entry e).din.type = (s.entry e).din.type := by
  rw [h.entry]

theorem size (h : Grows L v e s s') : (s'.entry e).din.size = (s.entry e).din.size := by
  rw [h.entry]

theorem locked (h : Grows L v e s s') (hl : Locked L v e s) : Locked L v e s' :=
  ⟨h.sound, h.inum ▸ hl.inum, h.type ▸ hl.alloc⟩

theorem ref (h : Grows L v e s s') (hk : s.ref L v e k = some a) : s'.ref L v e k = some a := by
  rw [State.ref, h.inum]
  exact h.mono _ _ hk

theorem ref_ne_none (h : Grows L v e s s') (hk : s.ref L v e k ≠ none) : s'.ref L v e k ≠ none := by
  obtain ⟨a, ha⟩ := Option.ne_none_iff_exists'.mp hk
  rw [h.ref ha]
  nofun

end Grows

namespace KeepsData

theorem refl : KeepsData L v e s s := fun _ _ hp _ => .inl ⟨hp, rfl⟩

theorem trans (h : KeepsData L v e s s') (hgrows : Grows L v e s s') (h' : KeepsData L v e s' s'') :
    KeepsData L v e s s'' := by
  intro p a hp hdata
  rcases h' p a hp hdata with ⟨hp', hblock'⟩ | ⟨hp', hblock'⟩
  · rw [hblock']
    exact h p a hp' hdata
  · refine .inr ⟨?_, hblock'⟩
    by_contra hne
    obtain ⟨b, hb⟩ := Option.ne_none_iff_exists'.mp hne
    rw [hgrows.mono p b hb] at hp'
    cases hp'

theorem of_assign {p : ℕ × ℕ}
    (href : refAt L (s'.view v e) s'.block = update (refAt L (s.view v e) s.block) p (some a))
    (hempty : refAt L (s.view v e) s.block p = none) (hzero : s'.block a = fun _ => 0)
    (hsame : ∀ q b, refAt L (s.view v e) s.block q = some b → q.2 ≠ NDIRECT →
      s'.block b = s.block b) : KeepsData L v e s s' := by
  intro q b hq hdata
  rw [href] at hq
  rcases update_ref.mp hq with ⟨rfl, rfl⟩ | ⟨-, hq⟩
  · exact .inr ⟨hempty, hzero⟩
  · exact .inl ⟨hq, hsame q b hq hdata⟩

end KeepsData

theorem State.of_balloc (h : s.balloc L = some (s', a)) : s.bit a = false ∧ a < L.size ∧
    s' = { s with bit := update s.bit a true, block := update s.block a fun _ => 0 } := by
  obtain ⟨b, hb, heq⟩ := Option.map_eq_some_iff.mp h
  cases heq
  refine ⟨?_, List.mem_range.mp (List.mem_of_find?_eq_some hb), rfl⟩
  simpa using List.find?_some hb

theorem State.view_setDin (s : State) (v : ℕ → Dinode) (e : Slot) (d : Dinode) :
    (s.setDin e d).view v e = update (s.view v e) (s.entry e).inum d := by
  rw [State.view, State.view, State.setDin_self, update_idem]

theorem State.ref_update (hinum : (s'.entry e).inum = (s.entry e).inum)
    (href : refAt L (s'.view v e) s'.block =
      update (refAt L (s.view v e) s.block) ((s.entry e).inum, k) (some a)) :
    s'.ref L v e = update (s.ref L v e) k (some a) := by
  funext k'
  rw [State.ref, href, hinum]
  by_cases hk : k' = k
  · rw [hk, update_self, update_self]
  · rw [update_of_ne hk, update_of_ne fun heq => hk (congrArg Prod.snd heq), State.ref]

namespace Locked

theorem view_alloc (h : Locked L v e s) : (s.view v e (s.entry e).inum).type ≠ .free := by
  rw [State.view_self]
  exact h.alloc

theorem fresh_ne (h : Locked L v e s) (hfresh : s.bit a = false) {p : ℕ × ℕ} {b : ℕ}
    (hp : refAt L (s.view v e) s.block p = some b) : b ≠ a := by
  rintro rfl
  exact h.sound.owned.fresh hfresh hp

theorem grow_addr (h : Locked L v e s) (hk : k ≤ NDIRECT) (hzero : (s.entry e).din.addrs k = 0)
    (hfresh : s.bit a = false) (ha : a < L.size) :
    let s' := State.setAddr
      { s with bit := update s.bit a true, block := update s.block a fun _ => 0 } e k a
    (Grows L v e s s' ∧ KeepsData L v e s s') ∧ s'.ref L v e = update (s.ref L v e) k (some a) := by
  intro s'
  obtain ⟨hsound, href, hempty⟩ := h.sound.assign_addr h.inum h.view_alloc hk
    (by rw [State.view_self]; exact hzero) hfresh ha
  rw [State.view_self] at hsound href
  have hview : s'.view v e = update (s.view v e) (s.entry e).inum ((s.entry e).din.setAddr k a) :=
    State.view_setDin _ v e _
  have hself : s'.entry e = { s.entry e with din := (s.entry e).din.setAddr k a } :=
    State.setDin_self _ e _
  rw [← hview] at hsound href
  refine ⟨⟨⟨hsound, rfl, fun e' he => State.setDin_other _ _ he, ?_, fun k' hk' => ?_,
    fun p b hp => ?_, fun p hp => ?_, fun hcov => ?_⟩, .of_assign href hempty (update_self ..) fun q b hq _ => ?_⟩,
    ?_⟩
  · rw [hself]
    rfl
  · rw [hself]
    exact update_of_ne (by omega) _ _
  · refine (congrFun href p).trans (update_ref.mpr (.inr ⟨?_, hp⟩))
    rintro rfl
    rw [hempty] at hp
    cases hp
  · exact (congrFun href p).trans (update_of_ne (fun heq => hp (congrArg Prod.fst heq)) _ _)
  · exact href ▸ hcov.assign hempty
  · exact update_of_ne (h.fresh_ne hfresh hq) _ _
  · refine State.ref_update ?_ href
    rw [hself]

theorem grow_word (h : Locked L v e s) (hind : (s.entry e).din.addrs NDIRECT ≠ 0) (hj : j < NINDIRECT)
    (hzero : word (s.block ((s.entry e).din.addrs NDIRECT)) j = 0)
    (hfresh : s.bit a = false) (ha : a < L.size) :
    let block := update s.block a fun _ => 0
    let ind := (s.entry e).din.addrs NDIRECT
    let s' := { s with
      bit := update s.bit a true, block := update block ind (setWord (block ind) j a) }
    (Grows L v e s s' ∧ KeepsData L v e s s') ∧
      s'.ref L v e = update (s.ref L v e) (NDIRECT + 1 + j) (some a) := by
  intro block ind s'
  obtain ⟨hsound, href, hempty⟩ := h.sound.assign_word h.inum h.view_alloc
    (by rw [State.view_self]; exact hind) hj (by rw [State.view_self]; exact hzero) hfresh ha
  rw [State.view_self] at hsound href
  have hself : refAt L (s.view v e) s.block ((s.entry e).inum, NDIRECT) = some ind := by
    rw [Sound.ref_indirect h.inum h.view_alloc (by rw [State.view_self]; exact hind), State.view_self]
  have hfreshind : a ≠ ind := (h.fresh_ne hfresh hself).symm
  refine ⟨⟨⟨hsound, rfl, fun _ _ => rfl, rfl, fun _ _ => rfl, fun p b hp => ?_, fun p hp => ?_,
    fun hcov => ?_⟩, .of_assign href hempty ?_ fun q b hq hdata => ?_⟩, ?_⟩
  · refine (congrFun href p).trans (update_ref.mpr (.inr ⟨?_, hp⟩))
    rintro rfl
    rw [hempty] at hp
    cases hp
  · exact (congrFun href p).trans (update_of_ne (fun heq => hp (congrArg Prod.fst heq)) _ _)
  · exact href ▸ hcov.assign hempty
  · exact (update_of_ne hfreshind _ _).trans (update_self ..)
  · -- The indirect block is no block of the contents.
    have hother : b ≠ ind := by
      rintro rfl
      exact hdata (congrArg Prod.snd (h.sound.owned.inj _ _ _ hq hself))
    exact (update_of_ne hother _ _).trans (update_of_ne (h.fresh_ne hfresh hq) _ _)
  · exact State.ref_update rfl href

theorem grab_addr (h : Locked L v e s) (hk : k ≤ NDIRECT)
    (hg : s.grab L ((s.entry e).din.addrs k) (fun s a => s.setAddr e k a) = some (s', a)) :
    (Grows L v e s s' ∧ KeepsData L v e s s') ∧ (s'.entry e).din.addrs k = a ∧ a ≠ 0 ∧
      ((s.entry e).din.addrs k ≠ 0 → s' = s) := by
  rw [State.grab] at hg
  split at hg
  · next hzero =>
    obtain ⟨⟨s₁, b⟩, hx, heq⟩ := Option.map_eq_some_iff.mp hg
    obtain ⟨hfresh, hb, rfl⟩ := State.of_balloc hx
    cases heq
    have hb0 : b ≠ 0 := by
      rintro rfl
      simp [h.sound.meta_used 0 L.data_pos] at hfresh
    refine ⟨(h.grow_addr hk hzero hfresh hb).1, ?_, hb0, fun hne => absurd hzero hne⟩
    rw [State.setAddr, State.setDin_self]
    exact update_self ..
  · next hne =>
    cases hg
    exact ⟨⟨.refl h, .refl⟩, rfl, hne, fun _ => rfl⟩

theorem grab_word (h : Locked L v e s) (hind : (s.entry e).din.addrs NDIRECT ≠ 0) (hj : j < NINDIRECT)
    (hg : s.grab L (word (s.block ((s.entry e).din.addrs NDIRECT)) j) (fun s' a =>
      { s' with
        block := update s'.block ((s.entry e).din.addrs NDIRECT)
          (setWord (s'.block ((s.entry e).din.addrs NDIRECT)) j a) }) = some (s', a)) :
    (Grows L v e s s' ∧ KeepsData L v e s s') ∧ s'.ref L v e (NDIRECT + 1 + j) = some a ∧
      (word (s.block ((s.entry e).din.addrs NDIRECT)) j ≠ 0 → s' = s) := by
  rw [State.grab] at hg
  split at hg
  · next hzero =>
    obtain ⟨⟨s₁, b⟩, hx, heq⟩ := Option.map_eq_some_iff.mp hg
    obtain ⟨hfresh, hb, rfl⟩ := State.of_balloc hx
    cases heq
    obtain ⟨hgrows, href⟩ := h.grow_word hind hj hzero hfresh hb
    exact ⟨hgrows, (congrFun href _).trans (update_self ..), fun hne => absurd hzero hne⟩
  · next hne =>
    cases hg
    refine ⟨⟨.refl h, .refl⟩, ?_, fun _ => rfl⟩
    have hlt : ¬NDIRECT + 1 + j ≤ NDIRECT := by omega
    have hsub : NDIRECT + 1 + j - (NDIRECT + 1) = j := by omega
    refine refAt_eq_some.mpr ⟨h.inum, h.view_alloc, ?_, hne⟩
    rw [State.view_self, Dinode.at, if_neg hlt, if_neg hind, hsub]

theorem bmap (h : Locked L v e s) (hmap : s.bmap L e bn = some (s', a)) :
    (Grows L v e s s' ∧ KeepsData L v e s s') ∧ s'.ref L v e (slotOf bn) = some a ∧
      (s.ref L v e (slotOf bn) ≠ none → s' = s) := by
  rw [State.bmap] at hmap
  split at hmap
  · next hbn =>
    obtain ⟨hgrows, haddr, ha, hsame⟩ := h.grab_addr (Nat.le_of_lt hbn) hmap
    rw [slotOf, if_pos hbn]
    refine ⟨hgrows, ?_, fun hne => hsame fun hzero => hne ?_⟩
    · refine refAt_eq_some.mpr
        ⟨hgrows.1.inum ▸ h.inum, (hgrows.1.locked h).view_alloc, ?_, ha⟩
      rw [State.view_self, Dinode.at, if_pos (Nat.le_of_lt hbn), haddr]
    · simp [State.ref, refAt, Dinode.at, Nat.le_of_lt hbn, hzero]
  · next hbn =>
    split at hmap
    · next hj =>
      obtain ⟨⟨s₁, ind⟩, h₁, hmap⟩ := Option.bind_eq_some_iff.mp hmap
      obtain ⟨⟨hgrows, hdata⟩, rfl, hind, hsame⟩ := h.grab_addr le_rfl h₁
      obtain ⟨⟨hgrows', hdata'⟩, href, hsame'⟩ := (hgrows.locked h).grab_word hind hj hmap
      have hslot : slotOf bn = NDIRECT + 1 + (bn - NDIRECT) := by
        rw [slotOf, if_neg hbn]
        omega
      refine ⟨⟨hgrows.trans hgrows', hdata.trans hgrows hdata'⟩, hslot ▸ href, fun hne => ?_⟩
      obtain ⟨b, hb⟩ := Option.ne_none_iff_exists'.mp hne
      obtain ⟨-, -, hat, hb0⟩ := refAt_eq_some.mp hb
      have hlt : ¬NDIRECT + 1 + (bn - NDIRECT) ≤ NDIRECT := by omega
      have hsub : NDIRECT + 1 + (bn - NDIRECT) - (NDIRECT + 1) = bn - NDIRECT := by omega
      rw [State.view_self, hslot, Dinode.at, if_neg hlt, hsub] at hat
      split at hat
      · exact absurd hat.symm hb0
      · next hind₀ =>
        have heq : s₁ = s := hsame hind₀
        subst heq
        exact hsame' (hat ▸ hb0)
    · cases hmap

theorem write (h : Locked L v e s) (hk : k ≠ NDIRECT) (href : s.ref L v e k = some a) (d : Data) :
    Grows L v e s { s with block := update s.block a d } := by
  have hrefs : refAt L (s.view v e) (update s.block a d) = refAt L (s.view v e) s.block :=
    h.sound.refAt_write hk href d
  exact ⟨h.sound.congr hrefs (fun _ => rfl) fun _ => Iff.rfl, rfl, fun _ _ => rfl, rfl,
    fun _ _ => rfl, fun p b hp => (congrFun hrefs p).trans hp, fun p _ => congrFun hrefs p,
    fun hcov => hrefs ▸ hcov⟩

theorem slotOf_ne (bn : ℕ) : slotOf bn ≠ NDIRECT := by
  rw [slotOf]
  split <;> omega

variable {α : Type} {put : State → α → ℕ → ℕ → ℕ → State × α} {copies : ℕ → Bool}
  {acc acc' : α} {fuel off left i off' : ℕ} {ok : Bool}

theorem div_of_round {x : ℕ} (hlo : off ≤ x) (hhi : x < off + min left (BSIZE - off % BSIZE)) :
    x / BSIZE = off / BSIZE := by
  simp only [BSIZE] at *
  omega

theorem copyLoop (h : Locked L v e s)
    (hput : ∀ s acc a o m, ∃ d, (put s acc a o m).1 = { s with block := update s.block a d })
    (hfuel : left ≤ fuel)
    (hloop : State.copyLoop L e put copies fuel s acc off left i = some (s', acc', off', ok)) :
    Grows L v e s s' ∧
      (ok = true → off' = off + left ∧
        ∀ x, off ≤ x → x < off + left → s'.ref L v e (slotOf (x / BSIZE)) ≠ none) ∧
      ((∀ x, off ≤ x → x < off + left → s.ref L v e (slotOf (x / BSIZE)) ≠ none) →
        s'.entry = s.entry) := by
  -- One round is a call of `bmap` and a write to the block that it returns.
  induction fuel generalizing s acc off left i with
  | zero =>
    cases hloop
    have hleft : left = 0 := Nat.le_zero.mp hfuel
    subst hleft
    exact ⟨.refl h, fun _ => ⟨rfl, fun x hlo hhi => absurd hlo (Nat.not_le.mpr hhi)⟩, fun _ => rfl⟩
  | succ fuel ih =>
    rw [State.copyLoop] at hloop
    split at hloop
    · next hleft =>
      cases hloop
      subst hleft
      exact ⟨.refl h, fun _ => ⟨rfl, fun x hlo hhi => absurd hlo (Nat.not_le.mpr hhi)⟩, fun _ => rfl⟩
    · next hleft =>
      obtain ⟨⟨s₁, a⟩, hmap, hloop⟩ := Option.bind_eq_some_iff.mp hloop
      obtain ⟨⟨hgrows, -⟩, href, hsame⟩ := h.bmap hmap
      simp only at hloop
      split at hloop
      · obtain ⟨d, hd⟩ := hput s₁ acc a off (min left (BSIZE - off % BSIZE))
        rw [hd] at hloop
        set m := min left (BSIZE - off % BSIZE) with hm
        have hwrite := (hgrows.locked h).write (slotOf_ne _) href d
        have hpos : 0 < m := by
          have := Nat.mod_lt off (show 0 < BSIZE by decide)
          omega
        obtain ⟨hgrows', hok, hsame'⟩ := ih (hwrite.locked (hgrows.locked h)) (by omega) hloop
        refine ⟨hgrows.trans (hwrite.trans hgrows'), fun hdone => ?_, fun hfilled => ?_⟩
        · obtain ⟨hoff, hrest⟩ := hok hdone
          refine ⟨by omega, fun x hlo hhi => ?_⟩
          rcases Nat.lt_or_ge x (off + m) with hx | hx
          · rw [div_of_round hlo hx, hgrows'.ref (hwrite.ref href)]
            nofun
          · exact hrest x hx (by omega)
        · obtain rfl : s₁ = s := hsame (hfilled off le_rfl (by omega))
          refine hsame' fun x hlo hhi => hwrite.ref_ne_none (hfilled x (by omega) (by omega))
      · cases hloop
        exact ⟨hgrows, nofun, fun hfilled => by rw [hsame (hfilled _ le_rfl (by omega))]⟩

end Locked

end KThreads.Inode
