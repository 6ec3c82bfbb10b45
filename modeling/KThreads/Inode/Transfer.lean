import KThreads.Inode.Cache
import KThreads.Inode.Contents

/-!
# Reading and writing an inode

`readi` and `writei` of an inode that is locked. The contents have no holes, so that `readi`
finds every block that it comes to: it changes nothing. A `writei` that succeeds has put the
bytes into the file, and the inode on the disk is that in the cache. One that fails at a copy
has added blocks to the copy of the inode in the cache; the disk may not know of them.
-/

namespace KThreads.Inode

open Function (update update_eq_self update_idem update_of_ne update_self)
open Log (Data)

variable {L : Layout} {s s' : State} {v : ℕ → Dinode} {e : Slot} {off n : UInt32}
  {copies : ℕ → Bool} {r r' : ℤ} {src : ℕ → UInt8}

theorem add_lt_self_iff : off + n < off ↔ 2 ^ 32 ≤ off.toNat + n.toNat := by
  rw [UInt32.lt_iff_toNat_lt, UInt32.toNat_add]
  have hoff := off.toNat_lt
  have hn := n.toNat_lt
  omega

/-- `readi` ends without a change to the state, and returns the bytes of the file where it is asked
for some. -/
def State.ReadsFile (L : Layout) (v : ℕ → Dinode) (s : State) (e : Slot) (off n : UInt32)
    (copies : ℕ → Bool) (r : ℤ) : Prop :=
  ∃ r' bytes, s.readi L e off n copies r = some (s, r', bytes) ∧
    ((s.entry e).din.type ≠ .dev → off.toNat ≤ (s.entry e).din.size →
      off.toNat + n.toNat < 2 ^ 32 → (∀ i, copies i = true) →
      r' = min n.toNat ((s.entry e).din.size - off.toNat) ∧
      bytes = (List.range (min n.toNat ((s.entry e).din.size - off.toNat))).map fun x =>
        fileByte L (s.view v e) s.block (s.entry e).inum (off.toNat + x))

theorem State.readi_filled (off n : UInt32) (hsize : (s.entry e).din.size ≤ MAXFILE * BSIZE)
    (hfilled : ∀ x, off.toNat ≤ x → x < off.toNat + n.toNat → x < (s.entry e).din.size →
      s.ref L v e (slotOf (x / BSIZE)) ≠ none) (copies : ℕ → Bool) (r : ℤ) :
    s.ReadsFile L v e off n copies r := by
  unfold State.ReadsFile State.readi
  dsimp only
  by_cases hdev : (s.entry e).din.type = .dev
  · rw [if_pos hdev]
    exact ⟨r, [], rfl, fun hno => absurd hdev hno⟩
  rw [if_neg hdev]
  by_cases hrefuse : (s.entry e).din.size < off.toNat ∨ off + n < off
  · rw [if_pos hrefuse, add_lt_self_iff] at *
    exact ⟨-1, [], rfl, fun _ hle hlt => by omega⟩
  rw [if_neg hrefuse]
  have hmin : (if (s.entry e).din.size < off.toNat + n.toNat then (s.entry e).din.size - off.toNat
      else n.toNat) = min n.toNat ((s.entry e).din.size - off.toNat) := by
    split <;> omega
  rw [hmin]
  set m := min n.toNat ((s.entry e).din.size - off.toNat) with hm
  obtain ⟨bytes, off', ok, hloop, hall⟩ : ∃ bytes off' ok,
      State.copyLoop L e readPut copies m s [] off.toNat m 0 = some (s, bytes, off', ok) ∧
      ((∀ i, copies i = true) → ok = true ∧ bytes = [] ++ (List.range m).map fun x =>
        fileByte L (s.view v e) s.block (s.entry e).inum (off.toNat + x)) :=
    copyLoop_read le_rfl (by omega) fun x hlo hhi => hfilled x hlo (by omega) (by omega)
  refine ⟨if ok then m else -1, bytes, ?_, fun _ _ _ hcopies => ?_⟩
  · exact congrArg (Option.map _) hloop
  · obtain ⟨rfl, rfl⟩ := hall hcopies
    exact ⟨by simp, by simp⟩

theorem Lags.fileByte_eq {d m : ℕ → Dinode} {block : ℕ → Data} {j x : ℕ} (h : Lags (d j) (m j))
    (hx : x < (m j).size) : fileByte L d block j x = fileByte L m block j x := by
  have hat := h.at_eq ((Nat.div_mul_le_self x BSIZE).trans_lt hx) block
  rw [fileByte, fileByte, refAt, refAt]
  dsimp only
  rw [h.type, hat]

namespace Locked

theorem filled (h : Locked L v e s) {x : ℕ} (hx : x < (s.entry e).din.size) :
    s.ref L v e (slotOf (x / BSIZE)) ≠ none := by
  refine h.sound.filled _ h.inum h.view_alloc _ ?_
  rw [State.view_self]
  exact (Nat.div_mul_le_self x BSIZE).trans_lt hx

theorem size_le (h : Locked L v e s) : (s.entry e).din.size ≤ MAXFILE * BSIZE := by
  have hle := h.sound.size_le _ h.inum h.view_alloc
  rwa [State.view_self] at hle

theorem readi (h : Locked L v e s) (off n : UInt32) (copies : ℕ → Bool) (r : ℤ) :
    s.ReadsFile L v e off n copies r :=
  State.readi_filled off n h.size_le (fun _ _ _ hx => h.filled hx) copies r

end Locked

theorem State.of_writei (h : s.writei L e src off n copies r = some (s', r')) :
    s' = s ∨ off.toNat ≤ (s.entry e).din.size ∧ off.toNat + n.toNat ≤ MAXFILE * BSIZE ∧
      ∃ s₁ off' ok,
        State.copyLoop L e (writePut src off.toNat) copies n.toNat s () off.toNat n.toNat 0 =
          some (s₁, (), off', ok) ∧
        ((ok = false ∧ s' = s₁ ∧ r' = -1) ∨
          (ok = true ∧ r' = n.toNat ∧ s' = if 0 < n.toNat ∧ (s.entry e).din.size < off' then
            (s₁.setDin e { (s₁.entry e).din with size := off' }).iupdate e else s₁)) := by
  unfold State.writei at h
  dsimp only at h
  split at h
  · cases h
    exact .inl rfl
  split at h
  · cases h
    exact .inl rfl
  next hrefuse =>
  split at h
  · cases h
    exact .inl rfl
  next hmax =>
  obtain ⟨⟨s₁, u, off', ok⟩, hloop, hend⟩ := Option.map_eq_some_iff.mp h
  refine .inr ⟨by omega, by omega, s₁, off', ok, hloop, ?_⟩
  dsimp only at hend
  cases ok with
  | false =>
    cases hend
    exact .inl ⟨rfl, rfl, rfl⟩
  | true =>
    rw [if_neg (by simp)] at hend
    refine .inr ⟨rfl, ?_⟩
    split at hend
    · next hgrow =>
      cases hend
      exact ⟨rfl, (if_pos hgrow).symm⟩
    · next hgrow =>
      cases hend
      exact ⟨rfl, (if_neg hgrow).symm⟩

theorem State.writei_refuses (hdev : (s.entry e).din.type ≠ .dev)
    (h : ¬(off.toNat ≤ (s.entry e).din.size ∧ off.toNat + n.toNat ≤ MAXFILE * BSIZE)) :
    s.writei L e src off n copies r = some (s, -1) := by
  rw [State.writei, if_neg hdev]
  split
  · rfl
  · rw [if_pos (by omega)]

theorem writePut_block (off₀ : ℕ) (s : State) (acc : Unit) (a o m : ℕ) :
    ∃ d, (writePut src off₀ s acc a o m).1 = { s with block := update s.block a d } :=
  ⟨_, rfl⟩

/-- The address in the inode itself that leads to a block. -/
def Dinode.top (d : Dinode) (bn : ℕ) : ℕ := d.addrs (min bn NDIRECT)

section

variable {a bn fuel o left i o' : ℕ} {ok : Bool}

theorem State.bmap_entry (htop : (s.entry e).din.top bn ≠ 0) (hmap : s.bmap L e bn = some (s', a)) :
    s'.entry = s.entry := by
  unfold State.bmap at hmap
  dsimp only at hmap
  split at hmap
  · next hbn =>
    rw [Dinode.top, min_eq_left hbn.le] at htop
    rw [State.grab, if_neg htop] at hmap
    cases hmap
    rfl
  · next hbn =>
    rw [Dinode.top, min_eq_right (by omega)] at htop
    split at hmap
    · rw [State.grab, if_neg htop, Option.bind_some, State.grab] at hmap
      split at hmap
      · obtain ⟨⟨s₁, b⟩, hx, heq⟩ := Option.map_eq_some_iff.mp hmap
        obtain ⟨-, -, rfl⟩ := State.of_balloc hx
        cases heq
        rfl
      · cases hmap
        rfl
    · cases hmap

theorem State.copyLoop_entry {α : Type} {put : State → α → ℕ → ℕ → ℕ → State × α} {acc acc' : α}
    (hput : ∀ s acc a o m, (put s acc a o m).1.entry = s.entry) (hfuel : left ≤ fuel)
    (htop : ∀ j, 0 < left → (o / BSIZE + j) * BSIZE < o + left → (∀ k < j, copies (i + k) = true) →
      (s.entry e).din.top (o / BSIZE + j) ≠ 0)
    (hloop : State.copyLoop L e put copies fuel s acc o left i = some (s', acc', o', ok)) :
    s'.entry = s.entry := by
  induction fuel generalizing s acc o left i with
  | zero =>
    cases hloop
    rfl
  | succ fuel ih =>
    rw [State.copyLoop] at hloop
    split at hloop
    · cases hloop
      rfl
    · next hleft =>
      obtain ⟨⟨s₁, a⟩, hmap, hloop⟩ := Option.bind_eq_some_iff.mp hloop
      have hmod := Nat.mod_lt o (show 0 < BSIZE by decide)
      have hdiv := Nat.div_add_mod o BSIZE
      have hfirst : (s.entry e).din.top (o / BSIZE) ≠ 0 :=
        htop 0 (by omega) (by rw [Nat.add_zero, Nat.mul_comm]; omega) (by simp)
      have hsame : s₁.entry = s.entry := State.bmap_entry hfirst hmap
      dsimp only at hloop
      split at hloop
      · next hcopy =>
        set m := min left (BSIZE - o % BSIZE) with hm
        rw [← hsame, ← hput s₁ acc a o m]
        refine ih (by omega) (fun j hpos hlt hcopies => ?_) hloop
        -- The next round is at the start of the next block.
        have hnext : (o + m) / BSIZE = o / BSIZE + 1 := by
          simp only [BSIZE] at *
          omega
        have hprev := htop (j + 1) (by omega) (by
          rw [hnext] at hlt
          rw [← Nat.add_assoc, Nat.add_right_comm]
          omega) fun k hk => by
            rcases k with - | k
            · exact hcopy
            · rw [show i + (k + 1) = i + 1 + k by omega]
              exact hcopies k (by omega)
        rw [hput, hsame, hnext, Nat.add_assoc, Nat.add_comm 1]
        exact hprev
      · cases hloop
        exact hsame

theorem State.copyLoop_fails {α : Type} {put : State → α → ℕ → ℕ → ℕ → State × α} {acc acc' : α}
    (hloop : State.copyLoop L e put copies fuel s acc o left i = some (s', acc', o', false)) :
    ∃ j < left, (o / BSIZE + j) * BSIZE < o + left ∧ (∀ k < j, copies (i + k) = true) ∧
      copies (i + j) = false := by
  induction fuel generalizing s acc o left i with
  | zero => cases hloop
  | succ fuel ih =>
    rw [State.copyLoop] at hloop
    split at hloop
    · cases hloop
    · next hleft =>
      obtain ⟨⟨s₁, a⟩, -, hloop⟩ := Option.bind_eq_some_iff.mp hloop
      have hmod := Nat.mod_lt o (show 0 < BSIZE by decide)
      have hdiv := Nat.div_add_mod o BSIZE
      dsimp only at hloop
      split at hloop
      · next hcopy =>
        set m := min left (BSIZE - o % BSIZE) with hm
        obtain ⟨j, hj, hlt, hcopies, hfails⟩ := ih hloop
        have hnext : (o + m) / BSIZE = o / BSIZE + 1 := by
          simp only [BSIZE] at *
          omega
        rw [hnext] at hlt
        refine ⟨j + 1, by omega, ?_, fun k hk => ?_, ?_⟩
        · rw [← Nat.add_assoc, Nat.add_right_comm]
          omega
        · rcases k with - | k
          · exact hcopy
          · rw [show i + (k + 1) = i + 1 + k by omega]
            exact hcopies k (by omega)
        · rw [show i + (j + 1) = i + 1 + j by omega]
          exact hfails
      · next hcopy =>
        exact ⟨0, by omega, by rw [Nat.add_zero, Nat.mul_comm]; omega, by simp, by simpa using hcopy⟩

end

/-- The inode as `ilock` will see it. -/
def State.inode (s : State) (e : Slot) : Dinode :=
  if (s.entry e).valid then (s.entry e).din else s.dinode (s.entry e).inum

theorem Inv.eq_inode (h : Inv L s v) (href : 0 < (s.entry e).ref) :
    v (s.entry e).inum = s.inode e := by
  rw [State.inode]
  split
  · next hvalid => exact h.cached e href hvalid
  · next hvalid =>
    refine h.disk _ fun e' href' hvalid' hinum => hvalid ?_
    rwa [← h.single e' e href' href hinum]

/-- If a copy of `writei` fails, then the inode has its own addresses for the blocks that the
loop has come to. -/
def State.Safe (d : Dinode) (off n : UInt32) (copies : ℕ → Bool) : Prop :=
  ∀ i < n.toNat, (off.toNat / BSIZE + i) * BSIZE < off.toNat + n.toNat →
    (∀ j < i, copies j = true) → copies i = false → ∀ j ≤ i, d.top (off.toNat / BSIZE + j) ≠ 0

theorem State.Safe.entry_eq {s₁ : State} {off' : ℕ} (h : State.Safe (s.entry e).din off n copies)
    (hloop : State.copyLoop L e (writePut src off.toNat) copies n.toNat s () off.toNat n.toNat 0 =
      some (s₁, (), off', false)) : s₁.entry = s.entry := by
  obtain ⟨i, hi, hlt, hcopies, hfails⟩ := State.copyLoop_fails hloop
  simp only [Nat.zero_add] at hcopies hfails
  refine State.copyLoop_entry (fun _ _ _ _ _ => rfl) le_rfl (fun j _ _ hj => ?_) hloop
  refine h i hi hlt hcopies hfails j ?_
  by_contra hgt
  have hcopy := hj i (by omega)
  rw [Nat.zero_add, hfails] at hcopy
  cases hcopy

@[simp] theorem State.iupdate_view (s : State) (v : ℕ → Dinode) (e e' : Slot) :
    (s.iupdate e).view v e' = s.view v e' := rfl

theorem Locked.resize {s₁ : State} {o m : ℕ} (hl : Locked L v e s) (hgrows : Grows L v e s s₁)
    (hoff : o ≤ (s.entry e).din.size) (hmax : o + m ≤ MAXFILE * BSIZE)
    (hfilled : ∀ x, o ≤ x → x < o + m → s₁.ref L v e (slotOf (x / BSIZE)) ≠ none) :
    Locked L v e ((s₁.setDin e { (s₁.entry e).din with size := o + m }).iupdate e) := by
  have hself : ((s₁.setDin e { (s₁.entry e).din with size := o + m }).iupdate e).entry e =
      { s₁.entry e with din := { (s₁.entry e).din with size := o + m } } :=
    State.setDin_self ..
  have hl₁ := hgrows.locked hl
  refine ⟨?_, by rw [hself]; exact hl₁.inum, by rw [hself]; exact hl₁.alloc⟩
  rw [State.iupdate_view, State.view_setDin]
  refine hgrows.sound.resize (by rw [State.view_self]) hmax fun bn hbn => ?_
  rcases Nat.lt_or_ge (bn * BSIZE) (s.entry e).din.size with hlt | hge
  · have hold := hgrows.ref_ne_none (hl.filled hlt)
    rwa [Nat.mul_div_cancel _ (by decide)] at hold
  · have hnew := hfilled (bn * BSIZE) (by omega) hbn
    rwa [Nat.mul_div_cancel _ (by decide)] at hnew

theorem Locked.writei_frame (hl : Locked L v e s)
    (hw : s.writei L e src off n copies r = some (s', r')) :
    Locked L v e s' ∧ (s'.entry e).inum = (s.entry e).inum ∧
      (∀ e', e' ≠ e → s'.entry e' = s.entry e') ∧
      ∀ j, j ≠ (s.entry e).inum → s'.dinode j = s.dinode j := by
  obtain rfl | ⟨hoff, hmax, s₁, off', ok, hloop, hend⟩ := State.of_writei hw
  · exact ⟨hl, rfl, fun _ _ => rfl, fun _ _ => rfl⟩
  obtain ⟨hgrows, hok, -⟩ := hl.copyLoop (writePut_block off.toNat) le_rfl hloop
  have hsame : Locked L v e s₁ ∧ (s₁.entry e).inum = (s.entry e).inum ∧
      (∀ e', e' ≠ e → s₁.entry e' = s.entry e') ∧
      ∀ j, j ≠ (s.entry e).inum → s₁.dinode j = s.dinode j :=
    ⟨hgrows.locked hl, hgrows.inum, hgrows.other, fun j _ => by rw [hgrows.dinode]⟩
  rcases hend with ⟨-, rfl, -⟩ | ⟨rfl, -, hs'⟩
  · exact hsame
  · obtain ⟨rfl, hfilled⟩ := hok rfl
    split at hs'
    · subst hs'
      refine ⟨hl.resize hgrows hoff hmax hfilled, ?_, fun e' he => ?_, fun j hj => ?_⟩
      · rw [State.iupdate, State.setDin_self]
        exact hgrows.inum
      · exact (State.setDin_other _ _ he).trans (hgrows.other e' he)
      · rw [State.iupdate, State.setDin_self]
        dsimp only
        rw [update_of_ne (hgrows.inum ▸ hj)]
        exact congrFun hgrows.dinode j
    · subst hs'
      exact hsame

theorem Inv.writei (h : Inv L s v) (hl : Locked L v e s)
    (href : 0 < (s.entry e).ref ∧ (s.entry e).valid = true) (hview : s.view v e = v) (hw : s.writei L e src off n copies r = some (s', r')) :
    ∃ v', Inv L s' v' ∧
      (Exact L s v → State.Safe (s.entry e).din off n copies → Exact L s' v') := by
  obtain rfl | ⟨hoff, hmax, s₁, off', ok, hloop, hend⟩ := State.of_writei hw
  · exact ⟨v, h, fun hexact _ => hexact⟩
  obtain ⟨hgrows, hok, hsame⟩ := hl.copyLoop (writePut_block off.toNat) le_rfl hloop
  have hself : v (s.entry e).inum = (s.entry e).din := by rw [← hview, State.view_self]
  have hlags : Lags (s₁.dinode (s.entry e).inum) (s₁.entry e).din := by
    rw [hgrows.dinode]
    exact hgrows.lags hl (hself ▸ h.lags _)
  -- The copy in the cache changes, and the disk does not.
  have hstay : Inv L s₁ (update v (s.entry e).inum (s₁.entry e).din) ∧
      (Exact L s v → (s₁.entry e).din = (s.entry e).din →
        Exact L s₁ (update v (s.entry e).inum (s₁.entry e).din)) := by
    have hview₁ : s₁.view v e = update v (s.entry e).inum (s₁.entry e).din := by
      rw [State.view, hgrows.inum]
    refine ⟨h.of_entry href.1 (hview₁ ▸ hgrows.sound) (fun i _ => by rw [hgrows.dinode])
      hgrows.other hgrows.inum (fun _ _ => ⟨rfl, hgrows.type ▸ hl.alloc⟩) (fun hno => ?_) hlags,
      fun hexact hdin => ⟨?_, ?_⟩⟩
    · rw [hgrows.entry] at hno
      exact absurd href hno
    · rw [hgrows.dinode, hdin, ← hself, update_eq_self, hexact.agree]
    · rw [← hview₁]
      exact hgrows.covered (hview.symm ▸ hexact.covered)
  rcases hend with ⟨rfl, rfl, -⟩ | ⟨rfl, -, hs'⟩
  · refine ⟨_, hstay.1, fun hexact hsafe => hstay.2 hexact ?_⟩
    rw [hsafe.entry_eq hloop]
  · obtain ⟨rfl, hfilled⟩ := hok rfl
    split at hs'
    · -- The file has grown, and the inode is written to the disk.
      next hgrow =>
      have hinum : (s₁.entry e).inum = (s.entry e).inum := hgrows.inum
      have hupdate : update (s₁.view v e) (s₁.entry e).inum
          { (s₁.entry e).din with size := off.toNat + n.toNat } =
          update v (s.entry e).inum { (s₁.entry e).din with size := off.toNat + n.toNat } := by
        rw [State.view, update_idem, hinum]
      have hsound := (hl.resize hgrows hoff hmax hfilled).sound
      rw [State.iupdate_view, State.view_setDin, hupdate] at hsound
      have hdinode : s'.dinode = update s.dinode (s.entry e).inum
          { (s₁.entry e).din with size := off.toNat + n.toNat } := by
        rw [hs', State.iupdate, State.setDin_self, ← hgrows.dinode, ← hinum]
        rfl
      have hentry : s'.entry = update s.entry e
          { s₁.entry e with din := { (s₁.entry e).din with size := off.toNat + n.toNat } } := by
        rw [hs']
        funext e'
        by_cases he : e' = e
        · rw [he, update_self]
          exact State.setDin_self ..
        · rw [update_of_ne he]
          exact (State.setDin_other _ _ he).trans (hgrows.other e' he)
      have hrefs : refAt L (update v (s.entry e).inum
          { (s₁.entry e).din with size := off.toNat + n.toNat }) s₁.block =
          refAt L (s₁.view v e) s₁.block := by
        rw [← hupdate]
        exact refAt_of_addrs (by rw [State.view_self]) (by rw [State.view_self])
      obtain ⟨v', hv', hexact'⟩ := h.of_iupdate href.1 (hs' ▸ hsound) hdinode hentry hinum
        (fun _ => hgrows.type ▸ hl.alloc) fun hcov => by
          rw [hs']
          exact hrefs ▸ hgrows.covered (hview.symm ▸ hcov)
      exact ⟨v', hv', fun hexact _ => hexact' hexact⟩
    · next hgrow =>
      subst hs'
      refine ⟨_, hstay.1, fun hexact _ => hstay.2 hexact ?_⟩
      rw [hsame fun x hlo hhi => hl.filled (by omega)]

theorem State.writei_eq (hdev : (s.entry e).din.type ≠ .dev)
    (hoff : off.toNat ≤ (s.entry e).din.size) (hmax : off.toNat + n.toNat ≤ MAXFILE * BSIZE) :
    s.writei L e src off n copies r =
      (State.copyLoop L e (writePut src off.toNat) copies n.toNat s () off.toNat n.toNat 0).map
        fun x => if x.2.2.2 = false then (x.1, (-1 : ℤ))
          else if 0 < n.toNat ∧ (s.entry e).din.size < x.2.2.1 then
            ((x.1.setDin e { (x.1.entry e).din with size := x.2.2.1 }).iupdate e, n.toNat)
          else (x.1, n.toNat) := by
  have hlt : ¬off + n < off := by
    rw [add_lt_self_iff]
    simp only [MAXFILE, BSIZE, NDIRECT, NINDIRECT] at hmax
    omega
  unfold State.writei
  dsimp only
  rw [if_neg hdev, if_neg (not_or.mpr ⟨by omega, hlt⟩), if_neg (by omega)]
  rfl

/-- The source of a `writei` with the result `r'` stands in the file. -/
structure State.Stores (L : Layout) (v : ℕ → Dinode) (e : Slot) (src : ℕ → UInt8) (off n : UInt32)
    (r' : ℤ) (s s' : State) : Prop where
  result : r' = n.toNat
  entry : s'.entry e = { s.entry e with din := (s'.entry e).din }
  type : (s'.entry e).din.type = (s.entry e).din.type
  size : (s'.entry e).din.size = max (s.entry e).din.size (off.toNat + n.toNat)
  bytes : ∀ j x, fileByte L (s'.view v e) s'.block j x =
    if j = (s.entry e).inum ∧ off.toNat ≤ x ∧ x < off.toNat + n.toNat then src (x - off.toNat)
    else fileByte L (s.view v e) s.block j x

theorem Locked.writei_done (hl : Locked L v e s) (hdev : (s.entry e).din.type ≠ .dev)
    (hw : s.writei L e src off n copies r = some (s', r')) (hr : 0 ≤ r') :
    (off.toNat ≤ (s.entry e).din.size ∧ off.toNat + n.toNat ≤ MAXFILE * BSIZE) ∧
      State.Stores L v e src off n r' s s' := by
  have hreach : off.toNat ≤ (s.entry e).din.size ∧ off.toNat + n.toNat ≤ MAXFILE * BSIZE := by
    by_contra hno
    rw [State.writei_refuses hdev hno] at hw
    cases hw
    exact absurd hr (by decide)
  refine ⟨hreach, ?_⟩
  obtain ⟨hoff, hmax⟩ := hreach
  rw [State.writei_eq hdev hoff hmax] at hw
  obtain ⟨⟨s₁, u, off', ok⟩, hloop, hend⟩ := Option.map_eq_some_iff.mp hw
  obtain rfl : ok = true := by
    by_contra hno
    rw [Bool.not_eq_true] at hno
    subst hno
    cases hend
    exact absurd hr (by decide)
  obtain ⟨hgrows, hok, -⟩ := hl.copyLoop (writePut_block off.toNat) le_rfl hloop
  obtain ⟨rfl, -⟩ := hok rfl
  have hentry := hgrows.entry
  have hbytes := copyLoop_write hl le_rfl le_rfl hloop
  dsimp only at hend
  rw [if_neg (by simp)] at hend
  split at hend
  · next hgrow =>
    obtain ⟨rfl, rfl⟩ := Prod.mk.inj hend
    have hself : ((s₁.setDin e { (s₁.entry e).din with size := off.toNat + n.toNat }).iupdate e).entry
        e = { s₁.entry e with din := { (s₁.entry e).din with size := off.toNat + n.toNat } } :=
      State.setDin_self ..
    have hrefs : refAt L (((s₁.setDin e { (s₁.entry e).din with
        size := off.toNat + n.toNat }).iupdate e).view v e) s₁.block =
        refAt L (s₁.view v e) s₁.block := by
      rw [State.view, hself]
      have hupdate : update v (s₁.entry e).inum { (s₁.entry e).din with
          size := off.toNat + n.toNat } = update (s₁.view v e) (s₁.entry e).inum
          { (s₁.entry e).din with size := off.toNat + n.toNat } := by
        rw [State.view, update_idem]
      dsimp only
      rw [hupdate]
      exact refAt_of_addrs (by rw [State.view_self]) (by rw [State.view_self])
    refine ⟨rfl, ?_, ?_, ?_, fun j x => ?_⟩
    · rw [hself]
      dsimp only
      rw [hentry]
    · rw [hself]
      exact hgrows.type
    · rw [hself]
      dsimp only
      omega
    · rw [← hbytes j x, fileByte, fileByte]
      dsimp only [State.iupdate, State.setDin, State.setEntry] at hrefs ⊢
      rw [hrefs]
  · next hgrow =>
    obtain ⟨rfl, rfl⟩ := Prod.mk.inj hend
    refine ⟨rfl, by rw [hentry], hgrows.type, ?_, hbytes⟩
    rw [hgrows.size]
    omega

theorem Locked.writei (hl : Locked L v e s) (hdev : (s.entry e).din.type ≠ .dev)
    (hoff : off.toNat ≤ (s.entry e).din.size) (hmax : off.toNat + n.toNat ≤ MAXFILE * BSIZE)
    (hcopies : ∀ i < n.toNat, copies i = true)
    (hw : s.writei L e src off n copies r = some (s', r')) : State.Stores L v e src off n r' s s' := by
  refine (hl.writei_done hdev hw ?_).2
  rw [State.writei_eq hdev hoff hmax] at hw
  obtain ⟨⟨s₁, u, off', ok⟩, hloop, hend⟩ := Option.map_eq_some_iff.mp hw
  obtain rfl : ok = true := by
    by_contra hno
    rw [Bool.not_eq_true] at hno
    subst hno
    obtain ⟨j, hj, -, -, hfail⟩ := State.copyLoop_fails hloop
    rw [Nat.zero_add, hcopies j hj] at hfail
    cases hfail
  dsimp only at hend
  rw [if_neg (by simp)] at hend
  split at hend <;> cases hend <;> exact Int.natCast_nonneg _

end KThreads.Inode
