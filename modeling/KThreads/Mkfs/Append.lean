import KThreads.Mkfs.Mount

/-!
# Appending to an inode of the image

`iappend` has its own code for direct and indirect blocks. It does to the image what the loop of
`writei` does to the file system of the kernel: both come to the same blocks, and both run out of
blocks at the same time.
-/

namespace KThreads.Mkfs

open Function (update update_of_ne update_self)
open Log (Data)
open Inode (BSIZE NDIRECT NINDIRECT MAXFILE Dinode State Locked slotOf word setWord copyIn writePut)

variable {img img' : Img} {s s' : State} {v : ℕ → Dinode} {d din din' : DinodeWords}
  {a b k n m x off off' left done fuel i : ℕ} {p : ℕ → UInt8}

/-- The blocks of a file of some size, the indirect block included. -/
def blocks (n : ℕ) : ℕ := (n + BSIZE - 1) / BSIZE + if NDIRECT * BSIZE < n then 1 else 0

/-- The blocks that the byte at an offset needs in addition to those in front of it. -/
def newBlocks (off : ℕ) : ℕ :=
  (if off % BSIZE = 0 then 1 else 0) + if off = NDIRECT * BSIZE then 1 else 0

theorem blocks_add (hm : 0 < m) (hle : m ≤ BSIZE - off % BSIZE) :
    blocks (off + m) = blocks off + newBlocks off := by
  unfold blocks newBlocks
  split_ifs <;> simp only [BSIZE, NDIRECT] at * <;> omega

theorem blocks_mono (h : n ≤ m) : blocks n ≤ blocks m := by
  unfold blocks
  split_ifs <;> simp only [BSIZE, NDIRECT] at * <;> omega

/-- The inode has its blocks up to an offset, and no more. -/
structure Tight (s : State) (v : ℕ → Dinode) (n : ℕ) : Prop where
  blocks : ∀ bn, s.ref layout v 0 (slotOf bn) ≠ none ↔ bn * BSIZE < n
  indirect : s.ref layout v 0 NDIRECT ≠ none ↔ NDIRECT * BSIZE < n

/-- The loops of `iappend` and `writei` are at the same offset of the same inode. -/
structure Loop (img : Img) (din : DinodeWords) (s : State) (v : ℕ → Dinode) (off : ℕ) : Prop where
  sim : Sim img s
  locked : Locked layout v 0 s
  din_eq : (s.entry 0).din = din.decode
  tight : Tight s v off

namespace Loop

variable (h : Loop img din s v off)
include h

theorem ref_addr (hk : k ≤ NDIRECT) :
    s.ref layout v 0 k = if din.addr k = 0 then none else some (din.addr k) := by
  have hat : (s.view v 0 (s.entry 0).inum).at s.block k = din.addr k := by
    rw [State.view_self, h.din_eq, Dinode.at, if_pos hk]
    rfl
  rw [State.ref, Inode.refAt]
  dsimp only
  rw [hat]
  split
  · next hsome => rw [if_neg hsome.2.2]
  · next hnone =>
    rw [if_pos]
    by_contra hne
    exact hnone ⟨h.locked.inum, h.locked.view_alloc, hne⟩

theorem addr_eq_zero (hk : k ≤ NDIRECT) : din.addr k = 0 ↔ s.ref layout v 0 k = none := by
  rw [h.ref_addr hk]
  split <;> simp [*]

theorem ref_word (hind : din.addr NDIRECT ≠ 0) :
    s.ref layout v 0 (NDIRECT + 1 + k) =
      if word (s.block (din.addr NDIRECT)) k = 0 then none
      else some (word (s.block (din.addr NDIRECT)) k) := by
  have hlt : ¬NDIRECT + 1 + k ≤ NDIRECT := by omega
  have hsub : NDIRECT + 1 + k - (NDIRECT + 1) = k := by omega
  have hat : (s.view v 0 (s.entry 0).inum).at s.block (NDIRECT + 1 + k) =
      word (s.block (din.addr NDIRECT)) k := by
    have haddrs : din.decode.addrs NDIRECT = din.addr NDIRECT := rfl
    rw [State.view_self, h.din_eq, Dinode.at, if_neg hlt, haddrs, if_neg hind, hsub]
  rw [State.ref, Inode.refAt]
  dsimp only
  rw [hat]
  split
  · next hsome => rw [if_neg hsome.2.2]
  · next hnone =>
    rw [if_pos]
    by_contra hne
    exact hnone ⟨h.locked.inum, h.locked.view_alloc, hne⟩

theorem enter_new (hk : k ≤ NDIRECT) (hzero : din.addr k = 0) (hlt : img.freeblock < FSSIZE) :
    ∃ s₁, s.grab layout ((s.entry 0).din.addrs k) (fun s a => s.setAddr 0 k a) =
        some (s₁, img.freeblock) ∧
      img.enter din k = (img.bump, din.setAddr k img.freeblock) ∧
      Sim img.bump s₁ ∧ Locked layout v 0 s₁ ∧
      (s₁.entry 0).din = (din.setAddr k img.freeblock).decode ∧
      s₁.ref layout v 0 = update (s.ref layout v 0) k (some img.freeblock) ∧
      (din.setAddr k img.freeblock).addr k = img.freeblock := by
  have hword : img.freeblock < 2 ^ 32 := hlt.trans (by decide)
  have hzero' : (s.entry 0).din.addrs k = 0 := by
    rw [h.din_eq]
    exact hzero
  have hfresh : s.bit img.freeblock = false := by
    rw [h.sim.bit]
    simp
  obtain ⟨⟨hgrows, -⟩, href⟩ := h.locked.grow_addr hk hzero' hfresh hlt
  refine ⟨_, ?_, if_pos hzero, ?_, hgrows.locked h.locked, ?_, href, ?_⟩
  · rw [State.grab, if_pos hzero', h.sim.balloc hlt]
    rfl
  · obtain ⟨hlen, hmeta, hle, hzeros, hbit, hblock, hdinode⟩ := h.sim.bump hlt
    exact ⟨hlen, hmeta, hle, hzeros, hbit, hblock, hdinode⟩
  · rw [State.setAddr, State.setDin_self, DinodeWords.decode_setAddr hk hword]
    dsimp only
    rw [h.din_eq]
  · rw [DinodeWords.addr_setAddr hk hword, update_self]

theorem enter_full (hk : k ≤ NDIRECT) (hzero : din.addr k = 0) (hfull : img.freeblock = FSSIZE) :
    img.enter din k = (img.bump, din.setAddr k FSSIZE) ∧
      (din.setAddr k FSSIZE).addr k = FSSIZE ∧ img.bump.rsect FSSIZE = none := by
  refine ⟨hfull ▸ if_pos hzero, ?_, Img.rsect_eq_none h.sim.length⟩
  rw [DinodeWords.addr_setAddr hk (by decide), update_self]

theorem enter_old (hne : din.addr k ≠ 0) :
    s.grab layout ((s.entry 0).din.addrs k) (fun s a => s.setAddr 0 k a) = some (s, din.addr k) ∧
      img.enter din k = (img, din) := by
  have haddrs : (s.entry 0).din.addrs k = din.addr k := by rw [h.din_eq]; rfl
  rw [haddrs, State.grab, if_neg hne, Img.enter, if_neg hne]
  exact ⟨rfl, rfl⟩

end Loop

section

variable {j : ℕ} (hsim : Sim img s) (hl : Locked layout v 0 s) (hdin : (s.entry 0).din = din.decode)
  (hind : din.addr NDIRECT ≠ 0)
include hsim hl hdin hind

theorem of_indirect : nmeta ≤ din.addr NDIRECT ∧ din.addr NDIRECT < img.freeblock ∧
    img.rsect (din.addr NDIRECT) = some (s.block (din.addr NDIRECT)) := by
  have haddrs : (s.entry 0).din.addrs NDIRECT = din.addr NDIRECT := by rw [hdin]; rfl
  refine hsim.of_ref hl (k := NDIRECT) ?_
  rw [State.ref, Inode.Sound.ref_indirect hl.inum hl.view_alloc
    (by rw [State.view_self, haddrs]; exact hind), State.view_self, haddrs]

theorem enterWord_new (hj : j < NINDIRECT) (hzero : word (s.block (din.addr NDIRECT)) j = 0)
    (hlt : img.freeblock < FSSIZE) :
    ∃ s₁ img₁, s.grab layout (word (s.block (din.addr NDIRECT)) j) (fun s a =>
        { s with
          block := update s.block (din.addr NDIRECT) (setWord (s.block (din.addr NDIRECT)) j a) }) =
        some (s₁, img.freeblock) ∧
      img.enterWord (din.addr NDIRECT) j = some (img₁, img.freeblock) ∧
      Sim img₁ s₁ ∧ img₁.freeblock = img.freeblock + 1 ∧ img₁.freeinode = img.freeinode ∧
      (s₁.entry 0).din = din.decode ∧
      s₁.ref layout v 0 = update (s.ref layout v 0) (NDIRECT + 1 + j) (some img.freeblock) := by
  have haddrs : (s.entry 0).din.addrs NDIRECT = din.addr NDIRECT := by rw [hdin]; rfl
  have hfresh : s.bit img.freeblock = false := by
    rw [hsim.bit]
    simp
  obtain ⟨hmeta, hused, hread⟩ := of_indirect hsim hl hdin hind
  obtain ⟨⟨hgrows, -⟩, hrefs⟩ := hl.grow_word (haddrs ▸ hind) hj (haddrs ▸ hzero) hfresh hlt
  rw [haddrs] at hgrows hrefs
  refine ⟨_, img.bump.wsect (din.addr NDIRECT)
    (setWord (s.block (din.addr NDIRECT)) j img.freeblock), ?_, ?_, ?_, rfl, rfl, ?_, hrefs⟩
  · rw [State.grab, if_pos hzero, hsim.balloc hlt]
    rfl
  · rw [Img.enterWord, hread, Option.map_some, if_pos hzero]
    dsimp only
    rw [Inode.word_setWord _ hj (hlt.trans (by decide))]
  · rw [update_of_ne hused.ne]
    exact (hsim.bump hlt).wsect hmeta (hused.trans (Nat.lt_succ_self _)) _
  · exact hdin

theorem enterWord_full (hj : j < NINDIRECT) (hzero : word (s.block (din.addr NDIRECT)) j = 0)
    (hfull : img.freeblock = FSSIZE) :
    ∃ img₁, img.enterWord (din.addr NDIRECT) j = some (img₁, FSSIZE) ∧ img₁.rsect FSSIZE = none := by
  obtain ⟨-, hused, hread⟩ := of_indirect hsim hl hdin hind
  refine ⟨img.bump.wsect (din.addr NDIRECT) (setWord (s.block (din.addr NDIRECT)) j FSSIZE), ?_,
    Img.rsect_eq_none ?_⟩
  · rw [Img.enterWord, hread, Option.map_some, if_pos hzero, hfull]
    dsimp only
    rw [Inode.word_setWord _ hj (by decide)]
  · have hlength : img.bump.length = FSSIZE := hsim.length
    rw [Img.wsect_of_lt hlength (hused.trans_le hsim.le_size)]
    exact hlength

theorem enterWord_old (hne : word (s.block (din.addr NDIRECT)) j ≠ 0) :
    img.enterWord (din.addr NDIRECT) j = some (img, word (s.block (din.addr NDIRECT)) j) := by
  rw [Img.enterWord, (of_indirect hsim hl hdin hind).2.2, Option.map_some, if_neg hne]

end

namespace Tight

theorem grow (h : Tight s v off) (hmod : off % BSIZE ≠ 0) (hlo : off ≤ n)
    (hhi : n ≤ (off / BSIZE + 1) * BSIZE) : Tight s v n := by
  constructor
  · intro bn
    rw [h.blocks]
    simp only [BSIZE] at *
    omega
  · rw [h.indirect]
    simp only [BSIZE, NDIRECT] at *
    omega

theorem add (h : Tight s v off) (hmod : off % BSIZE = 0) (hlo : off < n)
    (hhi : n ≤ (off / BSIZE + 1) * BSIZE)
    (hblock : ∀ bn, s'.ref layout v 0 (slotOf bn) ≠ none ↔
      s.ref layout v 0 (slotOf bn) ≠ none ∨ bn = off / BSIZE)
    (hind : s'.ref layout v 0 NDIRECT ≠ none ↔
      s.ref layout v 0 NDIRECT ≠ none ∨ off = NDIRECT * BSIZE) : Tight s' v n := by
  constructor
  · intro bn
    rw [hblock, h.blocks]
    simp only [BSIZE] at *
    omega
  · rw [hind, h.indirect]
    simp only [BSIZE, NDIRECT] at *
    omega

end Tight

theorem update_ref_ne_none {f : ℕ → Option ℕ} {k' : ℕ} :
    update f k (some a) k' ≠ none ↔ f k' ≠ none ∨ k' = k := by
  by_cases hk : k' = k
  · simp [hk]
  · simp [hk]

theorem slotOf_eq_iff {bn bn' : ℕ} : slotOf bn = slotOf bn' ↔ bn = bn' :=
  ⟨Inode.slotOf_inj, congrArg slotOf⟩

namespace Loop

theorem round_old (h : Loop img din s v off) (hmax : off / BSIZE < MAXFILE) (hmod : off % BSIZE ≠ 0) :
    ∃ x, img.blockOf din (off / BSIZE) = some (img, din, x) ∧
      s.bmap layout 0 (off / BSIZE) = some (s, x) := by
  have hdiv := Nat.div_add_mod off BSIZE
  obtain ⟨x, hx⟩ := Option.ne_none_iff_exists'.mp
    ((h.tight.blocks (off / BSIZE)).mpr (by rw [Nat.mul_comm]; omega))
  refine ⟨x, ?_, Inode.bmap_of_ref hmax hx⟩
  rw [Img.blockOf]
  split
  · next hdirect =>
    rw [slotOf, if_pos hdirect, h.ref_addr hdirect.le] at hx
    split at hx
    · cases hx
    · next hne =>
      cases hx
      dsimp only
      rw [(h.enter_old hne).2]
  · next hdirect =>
    have hindirect : NDIRECT * BSIZE < off := by
      simp only [BSIZE, NDIRECT] at *
      omega
    have hind : din.addr NDIRECT ≠ 0 := fun hzero =>
      h.tight.indirect.mpr hindirect ((h.addr_eq_zero le_rfl).mp hzero)
    have hslot : slotOf (off / BSIZE) = NDIRECT + 1 + (off / BSIZE - NDIRECT) := by
      rw [slotOf, if_neg hdirect]
      omega
    rw [hslot, h.ref_word hind] at hx
    split at hx
    · cases hx
    · next hne =>
      cases hx
      dsimp only
      rw [(h.enter_old hind).2]
      dsimp only
      rw [enterWord_old h.sim h.locked h.din_eq hind hne]
      rfl

theorem addr_new (h : Loop img din s v off) (hdirect : off / BSIZE < NDIRECT)
    (hmod : off % BSIZE = 0) : din.addr (off / BSIZE) = 0 := by
  have hslot : slotOf (off / BSIZE) = off / BSIZE := if_pos hdirect
  rw [h.addr_eq_zero hdirect.le, ← hslot]
  by_contra hne
  have hlo := (h.tight.blocks _).mp hne
  simp only [BSIZE] at *
  omega

theorem word_new (h : Loop img din s v off) (hindirect : NDIRECT * BSIZE < off)
    (hmod : off % BSIZE = 0) : din.addr NDIRECT ≠ 0 ∧
      word (s.block (din.addr NDIRECT)) (off / BSIZE - NDIRECT) = 0 := by
  have hslot : slotOf (off / BSIZE) = NDIRECT + 1 + (off / BSIZE - NDIRECT) := by
    have hdirect : ¬off / BSIZE < NDIRECT := by
      simp only [BSIZE, NDIRECT] at *
      omega
    rw [slotOf, if_neg hdirect]
    omega
  have hind : din.addr NDIRECT ≠ 0 := fun hzero =>
    h.tight.indirect.mpr hindirect ((h.addr_eq_zero le_rfl).mp hzero)
  refine ⟨hind, ?_⟩
  by_contra hne
  have hlo := (h.tight.blocks (off / BSIZE)).mp (by rw [hslot, h.ref_word hind, if_neg hne]; simp)
  simp only [BSIZE] at *
  omega

theorem addr_indirect (h : Loop img din s v (NDIRECT * BSIZE)) : din.addr NDIRECT = 0 := by
  rw [h.addr_eq_zero le_rfl]
  by_contra hne
  exact lt_irrefl _ (h.tight.indirect.mp hne)

theorem round_direct (h : Loop img din s v off) (hdirect : off / BSIZE < NDIRECT)
    (hmod : off % BSIZE = 0) (hlt : img.freeblock < FSSIZE) :
    ∃ din₁ s₁, img.blockOf din (off / BSIZE) = some (img.bump, din₁, img.freeblock) ∧
      s.bmap layout 0 (off / BSIZE) = some (s₁, img.freeblock) ∧ Sim img.bump s₁ ∧
      (s₁.entry 0).din = din₁.decode ∧
      s₁.ref layout v 0 = update (s.ref layout v 0) (slotOf (off / BSIZE)) (some img.freeblock) := by
  have hslot : slotOf (off / BSIZE) = off / BSIZE := if_pos hdirect
  obtain ⟨s₁, hgrab, henter, hsim, -, hdin, href, haddr⟩ :=
    h.enter_new hdirect.le (h.addr_new hdirect hmod) hlt
  refine ⟨_, s₁, ?_, ?_, hsim, hdin, hslot.symm ▸ href⟩
  · rw [Img.blockOf, if_pos hdirect]
    dsimp only
    rw [henter]
    dsimp only
    rw [haddr]
  · rw [State.bmap, if_pos hdirect]
    exact hgrab

theorem round_indirect (h : Loop img din s v off) (hmax : off / BSIZE < MAXFILE)
    (hindirect : NDIRECT * BSIZE < off) (hmod : off % BSIZE = 0) (hlt : img.freeblock < FSSIZE) :
    ∃ img₁ s₁, img.blockOf din (off / BSIZE) = some (img₁, din, img.freeblock) ∧
      s.bmap layout 0 (off / BSIZE) = some (s₁, img.freeblock) ∧ Sim img₁ s₁ ∧
      img₁.freeblock = img.freeblock + 1 ∧ img₁.freeinode = img.freeinode ∧
      (s₁.entry 0).din = din.decode ∧
      s₁.ref layout v 0 = update (s.ref layout v 0) (slotOf (off / BSIZE)) (some img.freeblock) := by
  have hdirect : ¬off / BSIZE < NDIRECT := by
    simp only [BSIZE, NDIRECT] at *
    omega
  have hj : off / BSIZE - NDIRECT < NINDIRECT := by
    simp only [MAXFILE] at hmax
    omega
  have hslot : slotOf (off / BSIZE) = NDIRECT + 1 + (off / BSIZE - NDIRECT) := by
    rw [slotOf, if_neg hdirect]
    omega
  obtain ⟨hind, hzero⟩ := h.word_new hindirect hmod
  obtain ⟨hgrab, henter⟩ := h.enter_old hind
  obtain ⟨s₁, img₁, hgrab₁, henter₁, hsim, hblock, hinode, hdin, href⟩ :=
    enterWord_new h.sim h.locked h.din_eq hind hj hzero hlt
  refine ⟨img₁, s₁, ?_, ?_, hsim, hblock, hinode, hdin, hslot ▸ href⟩
  · rw [Img.blockOf, if_neg hdirect]
    dsimp only
    rw [henter]
    dsimp only
    rw [henter₁]
    rfl
  · rw [State.bmap, if_neg hdirect, if_pos hj, hgrab, Option.bind_some]
    exact hgrab₁

theorem round_first (h : Loop img din s v (NDIRECT * BSIZE)) (hlt : img.freeblock + 1 < FSSIZE) :
    ∃ img₁ din₁ s₁, img.blockOf din NDIRECT = some (img₁, din₁, img.freeblock + 1) ∧
      s.bmap layout 0 NDIRECT = some (s₁, img.freeblock + 1) ∧ Sim img₁ s₁ ∧
      img₁.freeblock = img.freeblock + 2 ∧ img₁.freeinode = img.freeinode ∧
      (s₁.entry 0).din = din₁.decode ∧
      s₁.ref layout v 0 = update (update (s.ref layout v 0) NDIRECT (some img.freeblock))
        (slotOf NDIRECT) (some (img.freeblock + 1)) := by
  obtain ⟨s₀, hgrab, henter, hsim, hl, hdin, href, haddr⟩ :=
    h.enter_new le_rfl h.addr_indirect (Nat.lt_of_succ_lt hlt)
  have hpos : img.freeblock ≠ 0 := by
    have hle := h.sim.nmeta_le
    have hmeta : 0 < nmeta := by decide
    omega
  have hblank : s₀.block img.freeblock = fun _ => 0 := by
    rw [hsim.block]
    refine (if_neg (Nat.not_lt.mpr h.sim.nmeta_le)).trans (h.sim.fresh _ le_rfl)
  obtain ⟨s₁, img₁, hgrab₁, henter₁, hsim₁, hblock, hinode, hdin₁, href₁⟩ :=
    enterWord_new (j := 0) hsim hl hdin (by rw [haddr]; exact hpos) (by decide)
      (by rw [haddr, hblank, Inode.word_zero]) hlt
  rw [haddr] at hgrab₁ henter₁
  refine ⟨img₁, _, s₁, ?_, ?_, hsim₁, hblock, hinode, hdin₁, href ▸ href₁⟩
  · rw [Img.blockOf, if_neg (lt_irrefl _)]
    dsimp only
    rw [henter, haddr, Nat.sub_self, henter₁]
    rfl
  · rw [State.bmap, if_neg (lt_irrefl _), Nat.sub_self, if_pos (by decide), hgrab, Option.bind_some]
    exact hgrab₁

theorem round (h : Loop img din s v off) (hmax : off / BSIZE < MAXFILE)
    (hfree : img.freeblock + newBlocks off ≤ FSSIZE) :
    ∃ img₁ din₁ s₁ x, img.blockOf din (off / BSIZE) = some (img₁, din₁, x) ∧
      s.bmap layout 0 (off / BSIZE) = some (s₁, x) ∧ Sim img₁ s₁ ∧
      (s₁.entry 0).din = din₁.decode ∧ img₁.freeblock = img.freeblock + newBlocks off ∧
      img₁.freeinode = img.freeinode ∧
      ∀ n, off < n → n ≤ (off / BSIZE + 1) * BSIZE → Tight s₁ v n := by
  by_cases hmod : off % BSIZE = 0
  · rcases Nat.lt_trichotomy off (NDIRECT * BSIZE) with hlt | rfl | hgt
    · have hnew : newBlocks off = 1 := by rw [newBlocks, if_pos hmod, if_neg hlt.ne]
      obtain ⟨din₁, s₁, hblock, hbmap, hsim, hdin, href⟩ :=
        h.round_direct (Nat.div_lt_of_lt_mul (by rw [Nat.mul_comm]; exact hlt)) hmod (by omega)
      refine ⟨_, din₁, s₁, _, hblock, hbmap, hsim, hdin, by rw [hnew]; rfl, rfl, fun n hlo hhi => ?_⟩
      refine h.tight.add hmod hlo hhi (fun bn => ?_) ?_
      · rw [href, update_ref_ne_none, slotOf_eq_iff]
      · rw [href, update_ref_ne_none, or_iff_left (Locked.slotOf_ne _).symm, or_iff_left hlt.ne]
    · have hnew : newBlocks (NDIRECT * BSIZE) = 2 := rfl
      have hdiv : NDIRECT * BSIZE / BSIZE = NDIRECT := rfl
      rw [hdiv]
      obtain ⟨img₁, din₁, s₁, hblock, hbmap, hsim, hfreeblock, hinode, hdin, href⟩ :=
        h.round_first (by omega)
      refine ⟨img₁, din₁, s₁, _, hblock, hbmap, hsim, hdin, hfreeblock, hinode, fun n hlo hhi => ?_⟩
      refine h.tight.add rfl hlo hhi (fun bn => ?_) ?_
      · rw [href, update_ref_ne_none, update_ref_ne_none, slotOf_eq_iff,
          or_iff_left (Locked.slotOf_ne bn), hdiv]
      · rw [href, update_ref_ne_none, update_ref_ne_none]
        simp
    · have hnew : newBlocks off = 1 := by rw [newBlocks, if_pos hmod, if_neg hgt.ne']
      obtain ⟨img₁, s₁, hblock, hbmap, hsim, hfreeblock, hinode, hdin, href⟩ :=
        h.round_indirect hmax hgt hmod (by omega)
      refine ⟨img₁, din, s₁, _, hblock, hbmap, hsim, hdin, by rw [hnew]; exact hfreeblock, hinode,
        fun n hlo hhi => h.tight.add hmod hlo hhi (fun bn => ?_) ?_⟩
      · rw [href, update_ref_ne_none, slotOf_eq_iff]
      · rw [href, update_ref_ne_none, or_iff_left (Locked.slotOf_ne _).symm, or_iff_left hgt.ne']
  · have hnew : newBlocks off = 0 := by
      rw [newBlocks, if_neg hmod, if_neg]
      rintro rfl
      exact hmod rfl
    obtain ⟨x, hblock, hbmap⟩ := h.round_old hmax hmod
    exact ⟨img, din, s, x, hblock, hbmap, h.sim, h.din_eq, by rw [hnew]; rfl, rfl,
      fun n hlo hhi => h.tight.grow hmod hlo.le hhi⟩

theorem round_full (h : Loop img din s v off) (hmax : off / BSIZE < MAXFILE)
    (hfull : FSSIZE < img.freeblock + newBlocks off) :
    (img.blockOf din (off / BSIZE)).bind (fun x => x.1.rsect x.2.2) = none := by
  have hle := h.sim.le_size
  have hmod : off % BSIZE = 0 := by
    by_contra hmod
    rw [newBlocks, if_neg hmod, if_neg] at hfull
    · omega
    · rintro rfl
      exact hmod rfl
  rcases Nat.lt_trichotomy off (NDIRECT * BSIZE) with hlt | rfl | hgt
  · rw [newBlocks, if_pos hmod, if_neg hlt.ne] at hfull
    have hdirect : off / BSIZE < NDIRECT := Nat.div_lt_of_lt_mul (by rw [Nat.mul_comm]; exact hlt)
    obtain ⟨henter, haddr, hread⟩ :=
      h.enter_full hdirect.le (h.addr_new hdirect hmod) (by omega)
    rw [Img.blockOf, if_pos hdirect]
    dsimp only
    rw [henter, Option.bind_some]
    dsimp only
    rw [haddr, hread]
  · have hdiv : NDIRECT * BSIZE / BSIZE = NDIRECT := rfl
    have hnew : newBlocks (NDIRECT * BSIZE) = 2 := rfl
    rw [hdiv, Img.blockOf, if_neg (lt_irrefl _)]
    dsimp only
    rcases hle.lt_or_eq with hlt | heq
    · -- There is room for the indirect block only.
      obtain ⟨s₀, -, henter, hsim, hl, hdin, -, haddr⟩ := h.enter_new le_rfl h.addr_indirect hlt
      have hne : (din.setAddr NDIRECT img.freeblock).addr NDIRECT ≠ 0 := by
        have hmeta := h.sim.nmeta_le
        have hpos : 0 < nmeta := by decide
        omega
      have hblank : s₀.block img.freeblock = fun _ => 0 := by
        rw [hsim.block]
        exact (if_neg (Nat.not_lt.mpr h.sim.nmeta_le)).trans (h.sim.fresh _ le_rfl)
      obtain ⟨img₁, henter₁, hread⟩ := enterWord_full (j := 0) hsim hl hdin hne (by decide)
        (by rw [haddr, hblank, Inode.word_zero]) (show img.freeblock + 1 = FSSIZE by omega)
      rw [henter, Nat.sub_self, henter₁, Option.map_some, Option.bind_some]
      exact hread
    · obtain ⟨henter, haddr, hread⟩ := h.enter_full le_rfl h.addr_indirect heq
      rw [henter]
      dsimp only
      rw [haddr, Img.enterWord, hread]
      rfl
  · rw [newBlocks, if_pos hmod, if_neg hgt.ne'] at hfull
    have hdirect : ¬off / BSIZE < NDIRECT := by
      simp only [BSIZE, NDIRECT] at *
      omega
    have hj : off / BSIZE - NDIRECT < NINDIRECT := by
      simp only [MAXFILE] at hmax
      omega
    obtain ⟨hind, hzero⟩ := h.word_new hgt hmod
    obtain ⟨img₁, henter₁, hread⟩ :=
      enterWord_full h.sim h.locked h.din_eq hind hj hzero (by omega)
    rw [Img.blockOf, if_neg hdirect]
    dsimp only
    rw [(h.enter_old hind).2]
    dsimp only
    rw [henter₁, Option.map_some, Option.bind_some]
    exact hread

theorem write (h : Loop img din s v off) (href : s.ref layout v 0 (slotOf k) = some x) (buf : Data) :
    Loop (img.wsect x buf) din { s with block := update s.block x buf } v off := by
  obtain ⟨hmeta, hused, -⟩ := h.sim.of_ref h.locked href
  have hwrite := h.locked.write (Locked.slotOf_ne _) href buf
  have hrefs : State.ref layout { s with block := update s.block x buf } v 0 = s.ref layout v 0 := by
    funext j
    exact congrFun (h.locked.sound.refAt_write (Locked.slotOf_ne _) href buf) _
  exact ⟨h.sim.wsect hmeta hused buf, hwrite.locked h.locked, h.din_eq,
    ⟨fun bn => hrefs ▸ h.tight.blocks bn, hrefs ▸ h.tight.indirect⟩⟩

theorem append {off₀ : ℕ} (h : Loop img din s v off) (hoff : off = off₀ + done) (hfuel : left ≤ fuel)
    (hmax : off + left ≤ MAXFILE * BSIZE)
    (hfree : img.freeblock + blocks (off + left) ≤ FSSIZE + blocks off) :
    ∃ img' din' s', Img.appendLoop p fuel img din off left done = some (img', din', off + left) ∧
      State.copyLoop layout 0 (writePut p off₀) (fun _ => true) fuel s () off left i =
        some (s', (), off + left, true) ∧
      Loop img' din' s' v (off + left) ∧
      img'.freeblock + blocks off = img.freeblock + blocks (off + left) ∧
      img'.freeinode = img.freeinode := by
  induction fuel generalizing img din s off left done i with
  | zero =>
    obtain rfl : left = 0 := Nat.le_zero.mp hfuel
    exact ⟨img, din, s, rfl, rfl, h, rfl, rfl⟩
  | succ fuel ih =>
    rw [Img.appendLoop, State.copyLoop]
    by_cases hleft : left = 0
    · subst hleft
      rw [if_pos rfl, if_pos rfl]
      exact ⟨img, din, s, rfl, rfl, h, rfl, rfl⟩
    rw [if_neg hleft, if_neg hleft]
    have hbn : off / BSIZE < MAXFILE := by
      rw [Nat.div_lt_iff_lt_mul (by decide)]
      omega
    have hsplit := Nat.div_add_mod off BSIZE
    have hmod := Nat.mod_lt off (show 0 < BSIZE by decide)
    set m := min left (BSIZE - off % BSIZE) with hm
    -- The two ways to say how much is copied, and where to.
    have hm' : min left ((off / BSIZE + 1) * BSIZE - off) = m := by
      rw [Nat.add_mul, Nat.one_mul, Nat.mul_comm]
      omega
    have hstart : off - off / BSIZE * BSIZE = off % BSIZE := by
      rw [Nat.mul_comm]
      omega
    have hround : blocks (off + m) = blocks off + newBlocks off := blocks_add (by omega) (by omega)
    have hmono : blocks (off + m) ≤ blocks (off + left) := blocks_mono (by omega)
    obtain ⟨img₁, din₁, s₁, x, hblock, hbmap, hsim, hdin, hfree₁, hinode, htight⟩ :=
      h.round hbn (by omega)
    obtain ⟨⟨hgrows, -⟩, href, -⟩ := h.locked.bmap hbmap
    have h₁ : Loop img₁ din₁ s₁ v (off + m) :=
      ⟨hsim, hgrows.locked h.locked, hdin, htight _ (by omega) (by
        rw [Nat.add_mul, Nat.one_mul, Nat.mul_comm]
        omega)⟩
    obtain ⟨-, -, hread⟩ := hsim.of_ref h₁.locked href
    set buf := copyIn (s₁.block x) (off % BSIZE) m fun k => p (done + k) with hbuf
    have hrest : off + m + (left - m) = off + left := by omega
    obtain ⟨img', din', s', happend, hcopy, hloop, hfree', hinode'⟩ : ∃ img' din' s',
        Img.appendLoop p fuel (img₁.wsect x buf) din₁ (off + m) (left - m) (done + m) =
          some (img', din', off + m + (left - m)) ∧
        State.copyLoop layout 0 (writePut p off₀) (fun _ => true) fuel
          { s₁ with block := update s₁.block x buf } () (off + m) (left - m) (i + 1) =
          some (s', (), off + m + (left - m), true) ∧
        Loop img' din' s' v (off + m + (left - m)) ∧
        img'.freeblock + blocks (off + m) = img₁.freeblock + blocks (off + m + (left - m)) ∧
        img'.freeinode = img₁.freeinode := by
      refine ih (h₁.write href buf) (by omega) (by omega) (by omega) ?_
      rw [hrest]
      dsimp only [Img.wsect]
      omega
    rw [hrest] at happend hcopy hloop hfree'
    refine ⟨img', din', s', ?_, ?_, hloop, ?_, hinode'.trans hinode⟩
    · rw [if_pos hbn, hblock, Option.bind_some]
      dsimp only
      rw [hread, Option.bind_some, hm', hstart]
      exact happend
    · rw [hbmap, Option.bind_some]
      dsimp only
      rw [if_pos rfl]
      have hsrc : off - off₀ = done := by omega
      simp only [writePut, hsrc]
      exact hcopy
    · omega

theorem of_append (h : Loop img din s v off) (hfuel : left ≤ fuel) (hoff : off ≤ MAXFILE * BSIZE)
    {r : Img × DinodeWords × ℕ} (happend : Img.appendLoop p fuel img din off left done = some r) :
    off + left ≤ MAXFILE * BSIZE ∧ img.freeblock + blocks (off + left) ≤ FSSIZE + blocks off := by
  have hle := h.sim.le_size
  induction fuel generalizing img din s off left done with
  | zero =>
    obtain rfl : left = 0 := Nat.le_zero.mp hfuel
    exact ⟨hoff, by rw [Nat.add_zero]; omega⟩
  | succ fuel ih =>
    rw [Img.appendLoop] at happend
    split at happend
    · next hleft =>
      subst hleft
      exact ⟨hoff, by rw [Nat.add_zero]; omega⟩
    · next hleft =>
      split at happend
      · next hbn =>
        have hsplit := Nat.div_add_mod off BSIZE
        have hmod := Nat.mod_lt off (show 0 < BSIZE by decide)
        set m := min left (BSIZE - off % BSIZE) with hm
        have hm' : min left ((off / BSIZE + 1) * BSIZE - off) = m := by
          rw [Nat.add_mul, Nat.one_mul, Nat.mul_comm]
          omega
        have hlast : off + m ≤ MAXFILE * BSIZE := by
          have hmul := Nat.mul_le_mul_right BSIZE (Nat.succ_le_of_lt hbn)
          rw [Nat.succ_mul, Nat.mul_comm (off / BSIZE)] at hmul
          omega
        have hround : blocks (off + m) = blocks off + newBlocks off :=
          blocks_add (by omega) (by omega)
        by_cases hfree : img.freeblock + newBlocks off ≤ FSSIZE
        · obtain ⟨img₁, din₁, s₁, x, hblock, hbmap, hsim, hdin, hfree₁, hinode, htight⟩ :=
            h.round hbn hfree
          obtain ⟨⟨hgrows, -⟩, href, -⟩ := h.locked.bmap hbmap
          have h₁ : Loop img₁ din₁ s₁ v (off + m) :=
            ⟨hsim, hgrows.locked h.locked, hdin, htight _ (by omega) (by
              rw [Nat.add_mul, Nat.one_mul, Nat.mul_comm]
              omega)⟩
          obtain ⟨-, -, hread⟩ := hsim.of_ref h₁.locked href
          rw [hblock, Option.bind_some] at happend
          dsimp only at happend
          rw [hread, Option.bind_some, hm'] at happend
          obtain ⟨hmax, hrest⟩ := ih (h₁.write href _) (by omega) hlast happend h₁.sim.le_size
          rw [show off + m + (left - m) = off + left by omega] at hmax hrest
          dsimp only [Img.wsect] at hrest
          exact ⟨hmax, by omega⟩
        · have hnone := h.round_full hbn (by omega)
          obtain ⟨y, hy, hread⟩ := Option.bind_eq_some_iff.mp happend
          obtain ⟨buf, hbuf, -⟩ := Option.bind_eq_some_iff.mp hread
          rw [hy, Option.bind_some, hbuf] at hnone
          cases hnone
      · cases happend

end Loop

end KThreads.Mkfs
