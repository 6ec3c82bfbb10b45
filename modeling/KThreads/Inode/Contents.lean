import KThreads.Inode.Growth

/-!
# The contents of an inode

The byte `x` of a file is the byte `x % BSIZE` of the block that the inode refers to for it.
`readi` returns the bytes of the file, and `writei` replaces those that it is given; the other
bytes of the file, and the other files, stay as they are.
-/

namespace KThreads.Inode

open Function (update)
open Log (Data)

theorem toNat_byteOf (x : UInt32) {i : ℕ} (hi : i < 4) :
    (byteOf x i).toNat = x.toNat / 2 ^ (8 * i) % 256 := by
  have hshift : 8 * i % 32 = 8 * i := by omega
  simp [byteOf, UInt32.toNat_shiftRight, Nat.shiftRight_eq_div_pow, hshift]

theorem toNat_join (b₀ b₁ b₂ b₃ : UInt8) :
    (b₀.toUInt32 ||| b₁.toUInt32 <<< 8 ||| b₂.toUInt32 <<< 16 ||| b₃.toUInt32 <<< 24).toNat =
      b₀.toNat + 256 * (b₁.toNat + 256 * (b₂.toNat + 256 * b₃.toNat)) := by
  have h₀ := b₀.toNat_lt
  have h₁ := b₁.toNat_lt
  have h₂ := b₂.toNat_lt
  have h₃ := b₃.toNat_lt
  have e₁ : b₁.toNat * 2 ^ (UInt32.toNat 8 % 32) % 2 ^ 32 = b₁.toNat <<< 8 := by
    rw [Nat.shiftLeft_eq]
    exact Nat.mod_eq_of_lt (by change _ * 256 < _; omega)
  have e₂ : b₂.toNat * 2 ^ (UInt32.toNat 16 % 32) % 2 ^ 32 = b₂.toNat <<< 16 := by
    rw [Nat.shiftLeft_eq]
    exact Nat.mod_eq_of_lt (by change _ * 65536 < _; omega)
  have e₃ : b₃.toNat * 2 ^ (UInt32.toNat 24 % 32) % 2 ^ 32 = b₃.toNat <<< 24 := by
    rw [Nat.shiftLeft_eq]
    exact Nat.mod_eq_of_lt (by change _ * 16777216 < _; omega)
  have j₁ : b₀.toNat ||| b₁.toNat <<< 8 = b₀.toNat + 256 * b₁.toNat := by
    rw [Nat.or_comm, ← Nat.shiftLeft_add_eq_or_of_lt h₀, Nat.shiftLeft_eq]
    omega
  have j₂ : b₀.toNat + 256 * b₁.toNat ||| b₂.toNat <<< 16 =
      b₀.toNat + 256 * (b₁.toNat + 256 * b₂.toNat) := by
    rw [Nat.or_comm, ← Nat.shiftLeft_add_eq_or_of_lt (by omega), Nat.shiftLeft_eq]
    omega
  have j₃ : b₀.toNat + 256 * (b₁.toNat + 256 * b₂.toNat) ||| b₃.toNat <<< 24 =
      b₀.toNat + 256 * (b₁.toNat + 256 * (b₂.toNat + 256 * b₃.toNat)) := by
    rw [Nat.or_comm, ← Nat.shiftLeft_add_eq_or_of_lt (by omega), Nat.shiftLeft_eq]
    omega
  simp only [UInt32.toNat_or, UInt32.toNat_shiftLeft, UInt8.toNat_toUInt32, Nat.shiftLeft_eq]
  rw [e₁, e₂, e₃, j₁, j₂, j₃]

theorem byteOf_join (b : ℕ → UInt8) {i : ℕ} (hi : i < 4) :
    byteOf ((b 0).toUInt32 ||| (b 1).toUInt32 <<< 8 ||| (b 2).toUInt32 <<< 16 |||
      (b 3).toUInt32 <<< 24) i = b i := by
  have h := fun k => (b k).toNat_lt
  have h₀ := h 0
  have h₁ := h 1
  have h₂ := h 2
  have h₃ := h 3
  refine UInt8.toNat_inj.mp ?_
  rw [toNat_byteOf _ hi, toNat_join]
  obtain rfl | rfl | rfl | rfl : i = 0 ∨ i = 1 ∨ i = 2 ∨ i = 3 := by omega
  all_goals
    simp only [Nat.mul_zero, Nat.mul_one, Nat.reduceMul, Nat.reducePow]
    omega

theorem byteAt_copyIn (d : Data) (start m : ℕ) (src : ℕ → UInt8) {x : ℕ} (hx : x < BSIZE) :
    byteAt (copyIn d start m src) x =
      if start ≤ x ∧ x < start + m then src (x - start) else byteAt d x := by
  have hword : x / 4 < 128 := by
    simp only [BSIZE] at hx
    omega
  have hpos : 4 * (x / 4) + x % 4 = x := Nat.div_add_mod x 4
  rw [byteAt, byteAt, dif_pos hword, dif_pos hword]
  refine (byteOf_join (fun i => if start ≤ 4 * (x / 4) + i ∧ 4 * (x / 4) + i < start + m then
    src (4 * (x / 4) + i - start) else byteOf (d ⟨x / 4, hword⟩) i) (Nat.mod_lt x (by decide))).trans ?_
  simp only [hpos]

/-- The byte `x` of a file, 0 if there is no block for it. -/
def fileByte (L : Layout) (din : ℕ → Dinode) (block : ℕ → Data) (i x : ℕ) : UInt8 :=
  match refAt L din block (i, slotOf (x / BSIZE)) with
  | some a => byteAt (block a) (x % BSIZE)
  | none => 0

variable {L : Layout} {v : ℕ → Dinode} {e : Slot} {s s' : State} {a bn i j x off left fuel : ℕ}
  {copies : ℕ → Bool}

theorem fileByte_eq {din : ℕ → Dinode} {block : ℕ → Data}
    (h : refAt L din block (i, slotOf (x / BSIZE)) = some a) :
    fileByte L din block i x = byteAt (block a) (x % BSIZE) := by
  rw [fileByte, h]

theorem fileByte_congr {din din' : ℕ → Dinode} {block : ℕ → Data} (h : din i = din' i) (x : ℕ) :
    fileByte L din block i x = fileByte L din' block i x := by
  rw [fileByte, fileByte, refAt, refAt, h]

theorem slotOf_inj {m n : ℕ} (h : slotOf m = slotOf n) : m = n := by
  unfold slotOf at h
  by_cases hm : m < NDIRECT <;> by_cases hn : n < NDIRECT <;>
    simp only [hm, hn, if_true, if_false] at h <;> omega

theorem bmap_of_ref (hbn : bn < MAXFILE) (href : s.ref L v e (slotOf bn) = some a) :
    s.bmap L e bn = some (s, a) := by
  obtain ⟨-, -, hat, ha⟩ := refAt_eq_some.mp href
  rw [State.view_self] at hat
  unfold State.bmap
  by_cases hdirect : bn < NDIRECT
  · rw [slotOf, if_pos hdirect, Dinode.at, if_pos hdirect.le] at hat
    simp only [if_pos hdirect, State.grab, hat, if_neg ha]
  · have hj : bn - NDIRECT < NINDIRECT := by
      simp only [MAXFILE] at hbn
      omega
    rw [slotOf, if_neg hdirect, Dinode.at, if_neg (by omega)] at hat
    split at hat
    · exact absurd hat.symm ha
    · next hind =>
      have hsub : bn + 1 - (NDIRECT + 1) = bn - NDIRECT := by omega
      rw [hsub] at hat
      simp only [if_neg hdirect, if_pos hj, State.grab, if_neg hind, Option.bind_some, hat, if_neg ha]

/-- What a read puts behind the bytes that it has copied already. -/
def readPut (s : State) (acc : List UInt8) (a o m : ℕ) : State × List UInt8 :=
  (s, acc ++ copyOut (s.block a) (o % BSIZE) m)

theorem copyLoop_read {acc : List UInt8} (hfuel : left ≤ fuel) (hmax : off + left ≤ MAXFILE * BSIZE)
    (hfilled : ∀ x, off ≤ x → x < off + left → s.ref L v e (slotOf (x / BSIZE)) ≠ none) :
    ∃ acc' off' ok, State.copyLoop L e readPut copies fuel s acc off left i =
        some (s, acc', off', ok) ∧
      ((∀ n, copies n = true) → ok = true ∧ acc' = acc ++ (List.range left).map fun x =>
        fileByte L (s.view v e) s.block (s.entry e).inum (off + x)) := by
  induction fuel generalizing acc off left i with
  | zero =>
    obtain rfl : left = 0 := Nat.le_zero.mp hfuel
    exact ⟨acc, off, true, rfl, fun _ => ⟨rfl, by simp⟩⟩
  | succ fuel ih =>
    unfold State.copyLoop
    by_cases hleft : left = 0
    · rw [if_pos hleft]
      exact ⟨acc, off, true, rfl, fun _ => ⟨rfl, by simp [hleft]⟩⟩
    · rw [if_neg hleft]
      obtain ⟨a, ha⟩ := Option.ne_none_iff_exists'.mp (hfilled off le_rfl (by omega))
      have hbn : off / BSIZE < MAXFILE := by
        rw [Nat.div_lt_iff_lt_mul (by decide)]
        omega
      rw [bmap_of_ref hbn ha, Option.bind_some]
      dsimp only
      set m := min left (BSIZE - off % BSIZE) with hm
      have hmod := Nat.mod_lt off (show 0 < BSIZE by decide)
      by_cases hcopy : copies i = true
      · rw [if_pos hcopy]
        obtain ⟨acc', off', ok, hloop, hall⟩ : ∃ acc' off' ok, State.copyLoop L e readPut copies fuel s
            (acc ++ copyOut (s.block a) (off % BSIZE) m) (off + m) (left - m) (i + 1) =
              some (s, acc', off', ok) ∧
            ((∀ n, copies n = true) → ok = true ∧ acc' = acc ++ copyOut (s.block a) (off % BSIZE) m ++
              (List.range (left - m)).map fun x =>
                fileByte L (s.view v e) s.block (s.entry e).inum (off + m + x)) :=
          ih (by omega) (by omega) fun x hlo hhi => hfilled x (by omega) (by omega)
        refine ⟨acc', off', ok, hloop, fun hcopies => ⟨(hall hcopies).1, ?_⟩⟩
        have hround : copyOut (s.block a) (off % BSIZE) m = (List.range m).map fun x =>
            fileByte L (s.view v e) s.block (s.entry e).inum (off + x) := by
          refine List.map_congr_left fun x hx => ?_
          have hlt := List.mem_range.mp hx
          have hdiv : (off + x) / BSIZE = off / BSIZE :=
            Locked.div_of_round (by omega) (show off + x < off + min left (BSIZE - off % BSIZE) by omega)
          have hmodx : (off + x) % BSIZE = off % BSIZE + x := by
            simp only [BSIZE] at *
            omega
          rw [fileByte_eq (a := a) (by rw [hdiv]; exact ha), hmodx]
        have hsplit : List.range left = List.range m ++ (List.range (left - m)).map (m + ·) := by
          rw [← List.range_add]
          congr 1
          omega
        rw [(hall hcopies).2, hround, hsplit, List.map_append, List.map_map, List.append_assoc]
        simp only [Function.comp_def, Nat.add_assoc]
      · rw [if_neg hcopy]
        exact ⟨acc, off, false, rfl, fun hcopies => absurd (hcopies i) hcopy⟩

theorem byteAt_zero (x : ℕ) : byteAt (fun _ => 0) x = 0 := by
  rw [byteAt]
  split
  · simp [byteOf]
  · rfl

theorem KeepsData.fileByte_eq (hdata : KeepsData L v e s s') (hgrows : Grows L v e s s') :
    fileByte L (s'.view v e) s'.block j x = fileByte L (s.view v e) s.block j x := by
  cases href : refAt L (s'.view v e) s'.block (j, slotOf (x / BSIZE)) with
  | none =>
    have hnone : refAt L (s.view v e) s.block (j, slotOf (x / BSIZE)) = none := by
      by_contra hne
      obtain ⟨a, ha⟩ := Option.ne_none_iff_exists'.mp hne
      rw [hgrows.mono _ _ ha] at href
      cases href
    rw [fileByte, fileByte, href, hnone]
  | some a =>
    rw [Inode.fileByte_eq href]
    rcases hdata _ _ href (Locked.slotOf_ne _) with ⟨hold, hblock⟩ | ⟨hnone, hzero⟩
    · rw [Inode.fileByte_eq hold, hblock]
    · rw [fileByte, hnone, hzero, byteAt_zero]

theorem Locked.fileByte_write (h : Locked L v e s) (href : s.ref L v e (slotOf bn) = some a)
    (d : Data) :
    fileByte L (s.view v e) (update s.block a d) j x =
      if j = (s.entry e).inum ∧ x / BSIZE = bn then byteAt d (x % BSIZE)
      else fileByte L (s.view v e) s.block j x := by
  have hrefs := h.sound.refAt_write (slotOf_ne bn) href d
  split
  · next hself =>
    obtain ⟨rfl, rfl⟩ := hself
    have hself : refAt L (s.view v e) (update s.block a d) ((s.entry e).inum, slotOf (x / BSIZE)) =
        some a := (congrFun hrefs _).trans href
    rw [Inode.fileByte_eq hself, Function.update_self]
  · next hself =>
    rw [fileByte, fileByte, hrefs]
    split
    · next b hb =>
      have hne : b ≠ a := by
        rintro rfl
        have hsame := h.sound.owned.inj _ _ _ hb href
        exact hself ⟨congrArg Prod.fst hsame, slotOf_inj (congrArg Prod.snd hsame)⟩
      rw [Function.update_of_ne hne]
    · rfl

/-- What a write does to the block that `bmap` has returned. -/
def writePut (src : ℕ → UInt8) (off₀ : ℕ) (s : State) (_ : Unit) (a o m : ℕ) : State × Unit :=
  ({ s with block := update s.block a (copyIn (s.block a) (o % BSIZE) m fun i => src (o - off₀ + i)) },
    ())

theorem copyLoop_write {src : ℕ → UInt8} {off₀ off' : ℕ} (h : Locked L v e s) (hoff : off₀ ≤ off)
    (hfuel : left ≤ fuel)
    (hloop : State.copyLoop L e (writePut src off₀) copies fuel s () off left i =
      some (s', (), off', true)) (j x : ℕ) :
    fileByte L (s'.view v e) s'.block j x =
      if j = (s.entry e).inum ∧ off ≤ x ∧ x < off + left then src (x - off₀)
      else fileByte L (s.view v e) s.block j x := by
  induction fuel generalizing s off left i with
  | zero =>
    cases hloop
    obtain rfl : left = 0 := Nat.le_zero.mp hfuel
    rw [if_neg]
    omega
  | succ fuel ih =>
    rw [State.copyLoop] at hloop
    split at hloop
    · next hleft =>
      cases hloop
      rw [if_neg]
      omega
    · next hleft =>
      obtain ⟨⟨s₁, a⟩, hmap, hloop⟩ := Option.bind_eq_some_iff.mp hloop
      obtain ⟨⟨hgrows, hdata⟩, href, -⟩ := h.bmap hmap
      dsimp only at hloop
      split at hloop
      · set m := min left (BSIZE - off % BSIZE) with hm
        have hmod := Nat.mod_lt off (show 0 < BSIZE by decide)
        have hl₁ := hgrows.locked h
        set d := copyIn (s₁.block a) (off % BSIZE) m fun i => src (off - off₀ + i) with hd
        have hwrite := hl₁.write (Locked.slotOf_ne _) href d
        have hinum : (s₁.entry e).inum = (s.entry e).inum := hgrows.inum
        have hrest := ih (hwrite.locked hl₁) (by omega) (by omega) hloop
        have hinum' : (({ s₁ with block := update s₁.block a d } : State).entry e).inum =
          (s.entry e).inum := hinum
        rw [hinum'] at hrest
        rw [hrest]
        by_cases hin : j = (s.entry e).inum ∧ off + m ≤ x ∧ x < off + left
        · rw [if_pos ⟨hin.1, hin.2.1, by omega⟩, if_pos ⟨hin.1, by omega, hin.2.2⟩]
        · rw [if_neg (fun hno => hin ⟨hno.1, hno.2.1, by omega⟩)]
          refine (hl₁.fileByte_write href d).trans ?_
          rw [hinum, hdata.fileByte_eq hgrows]
          -- The bytes of this round.
          have hround : (x / BSIZE = off / BSIZE ∧ off % BSIZE ≤ x % BSIZE ∧
              x % BSIZE < off % BSIZE + m) ↔ off ≤ x ∧ x < off + m := by
            simp only [BSIZE] at *
            omega
          by_cases hself : j = (s.entry e).inum ∧ off ≤ x ∧ x < off + left
          · obtain ⟨rfl, hlo, hhi⟩ := hself
            have hlt : x < off + m := by
              by_contra hge
              exact hin ⟨rfl, by omega, hhi⟩
            obtain ⟨hdiv, hmod₁, hmod₂⟩ := hround.mpr ⟨hlo, hlt⟩
            rw [if_pos ⟨rfl, hdiv⟩, if_pos ⟨rfl, hlo, hhi⟩, hd,
              byteAt_copyIn _ _ _ _ (Nat.mod_lt _ (by decide)), if_pos ⟨hmod₁, hmod₂⟩]
            congr 1
            simp only [BSIZE] at *
            omega
          · rw [if_neg hself]
            split
            · next hblock =>
              have hout : ¬(off % BSIZE ≤ x % BSIZE ∧ x % BSIZE < off % BSIZE + m) := fun hmods => by
                have hlohi := hround.mp ⟨hblock.2, hmods⟩
                exact hself ⟨hblock.1, hlohi.1, by omega⟩
              rw [hd, byteAt_copyIn _ _ _ _ (Nat.mod_lt _ (by decide)), if_neg hout,
                ← hdata.fileByte_eq hgrows]
              refine (Inode.fileByte_eq ?_).symm
              rw [hblock.1, hblock.2, ← hinum]
              exact href
            · rfl
      · cases hloop

end KThreads.Inode
