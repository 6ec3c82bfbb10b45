import KThreads.Buffer.Calls
import KThreads.Files.Write
import KThreads.Inode.Room
import KThreads.Inodes

/-!
# The transactions of a write

`filewrite` cuts its buffer into parts and writes each one in a transaction of its own. A part
is at most `max` bytes long, so that the blocks of the data, their bitmap block, the indirect
block and the block of the inode are not more than the log keeps for one operation. The file is
a regular one, and no other thread uses the `struct file`; the file system is shared.
-/

namespace KThreads.Inode

open Transition

/-- What `readi` returns with a kernel buffer: its result and the bytes. -/
def State.reads (L : Layout) (s : State) (e : Slot) (off n : UInt32) : Option (ℤ × List UInt8) :=
  (s.readi L e off n (fun _ => true) 0).map Prod.snd

variable {L : Layout} {s s' : State} {v : ℕ → Dinode} {e : Slot} {src : ℕ → UInt8}
  {off n : UInt32} {copies : ℕ → Bool} {r r' : ℤ}

/-- What a call has done that has written the bytes `src` to the file of an entry. -/
structure Written (L : Layout) (e : Slot) (src : ℕ → UInt8) (off n : UInt32) (s s' : State) :
    Prop where
  bytes : s'.reads L e off n = some ((n.toNat : ℤ), (List.range n.toNat).map src)
  others : ∀ x : UInt32, x.toNat < (s.entry e).din.size →
    ¬(off.toNat ≤ x.toNat ∧ x.toNat < off.toNat + n.toNat) →
    ∃ b, s.reads L e x 1 = some (1, [b]) ∧ s'.reads L e x 1 = some (1, [b])
  size : (s'.entry e).din.size = max (s.entry e).din.size (off.toNat + n.toNat)
  entries : ∀ e', e' ≠ e → s'.entry e' = s.entry e'
  files : ∀ e', e' ≠ e → 0 < (s.entry e').ref → (s.entry e').valid = true →
    ∀ o m, s'.reads L e' o m = s.reads L e' o m
  /-- The inodes on the disk, in the cache or not, and their contents -/
  disk : ∀ j, j ≠ (s.entry e).inum → s'.dinode j = s.dinode j ∧
    ∀ x < (s.dinode j).size,
      fileByte L s'.dinode s'.block j x = fileByte L s.dinode s.block j x

/-- The bytes that are in the file from `o` on, at most `m`. -/
def State.bytesFrom (L : Layout) (s : State) (v : ℕ → Dinode) (e : Slot) (o m : ℕ) : List UInt8 :=
  (List.range (min m ((s.entry e).din.size - o))).map fun x =>
    fileByte L (s.view v e) s.block (s.entry e).inum (o + x)

theorem Locked.reads (h : Locked L v e s) (o m : UInt32) :
    s.reads L e o m = some (if (s.entry e).din.type = .dev then (0, [])
      else if (s.entry e).din.size < o.toNat ∨ o + m < o then (-1, [])
      else (((min m.toNat ((s.entry e).din.size - o.toNat) : ℕ) : ℤ),
        s.bytesFrom L v e o.toNat m.toNat)) := by
  by_cases hdev : (s.entry e).din.type = .dev
  · rw [if_pos hdev, State.reads, State.readi, if_pos hdev]
    rfl
  rw [if_neg hdev]
  by_cases hrefuse : (s.entry e).din.size < o.toNat ∨ o + m < o
  · rw [if_pos hrefuse, State.reads, State.readi, if_neg hdev, if_pos hrefuse]
    rfl
  rw [if_neg hrefuse]
  rw [not_or, add_lt_self_iff] at hrefuse
  obtain ⟨r', bytes, hread, hall⟩ := h.readi o m (fun _ => true) 0
  obtain ⟨rfl, rfl⟩ := hall hdev (by omega) (by omega) fun _ => rfl
  rw [State.reads, hread]
  rfl

theorem Locked.reads_one (h : Locked L v e s) (hdev : (s.entry e).din.type ≠ .dev) {x : UInt32}
    (hx : x.toNat < (s.entry e).din.size) :
    s.reads L e x 1 = some (1, [fileByte L (s.view v e) s.block (s.entry e).inum x.toNat]) := by
  have hsize := h.size_le
  have hone : (1 : UInt32).toNat = 1 := rfl
  have hmin : min 1 ((s.entry e).din.size - x.toNat) = 1 := by omega
  have hrefuse : ¬((s.entry e).din.size < x.toNat ∨ x + 1 < x) := by
    rw [not_or, add_lt_self_iff, hone]
    simp only [MAXFILE, BSIZE, NDIRECT, NINDIRECT] at hsize
    omega
  rw [h.reads, if_neg hdev, if_neg hrefuse, State.bytesFrom, hone, hmin]
  rfl

theorem Inv.written_done (h : Inv L s v) (href : 0 < (s.entry e).ref)
    (hvalid : (s.entry e).valid = true) (hdev : (s.entry e).din.type ≠ .dev)
    (hw : s.writei L e src off n copies r = some (s', r')) (hr : 0 ≤ r') :
    r' = n.toNat ∧ Written L e src off n s s' := by
  obtain ⟨hl, hview⟩ := h.locked href hvalid
  obtain ⟨hl', hinum, hentries, hdisk⟩ := hl.writei_frame hw
  obtain ⟨⟨hoff, hmax⟩, hr, -, htype, hsize, hbytes⟩ := hl.writei_done hdev hw hr
  have hdev' : (s'.entry e).din.type ≠ .dev := by rwa [htype]
  -- the other inodes, as the calls see them
  have hseen : ∀ j, j ≠ (s.entry e).inum → s'.view v e j = v j := fun j hj =>
    Function.update_of_ne (by rwa [hinum]) _ _
  have hkept : ∀ j x, j ≠ (s.entry e).inum →
      fileByte L (s'.view v e) s'.block j x = fileByte L v s.block j x := by
    intro j x hj
    rw [hbytes, if_neg fun hin => hj hin.1, hview]
  refine ⟨hr, ⟨?_, fun x hx hout => ?_, hsize, hentries, fun e' he href' hvalid' o m => ?_,
    fun j hj => ⟨hdisk j hj, fun x hx => ?_⟩⟩⟩
  · have hmin : min n.toNat ((s'.entry e).din.size - off.toNat) = n.toNat := by omega
    have hrefuse : ¬((s'.entry e).din.size < off.toNat ∨ off + n < off) := by
      rw [not_or, add_lt_self_iff]
      simp only [MAXFILE, BSIZE, NDIRECT, NINDIRECT] at hmax
      omega
    rw [hl'.reads, if_neg hdev', if_neg hrefuse, State.bytesFrom, hmin]
    congr 2
    refine List.map_congr_left fun x hx => ?_
    have hlt := List.mem_range.mp hx
    rw [hbytes, if_pos ⟨hinum, by omega, by omega⟩, Nat.add_sub_cancel_left]
  · refine ⟨_, hl.reads_one hdev hx, ?_⟩
    rw [hl'.reads_one hdev' (by omega), hbytes, if_neg fun hin => hout hin.2, hinum]
  · have hne : (s.entry e').inum ≠ (s.entry e).inum := fun heq => he (h.single e' e href' href heq)
    obtain ⟨hl₂, hview₂⟩ := h.locked href' hvalid'
    have hview₂' : s'.view (s'.view v e) e' = s'.view v e := by
      rw [State.view, hentries e' he]
      refine Function.update_eq_self_iff.mpr ?_
      rw [hseen _ hne]
      exact (h.cached e' href' hvalid').symm
    have hl₂' : Locked L (s'.view v e) e' s' :=
      ⟨by rw [hview₂']; exact hl'.sound, by rw [hentries e' he]; exact hl₂.inum,
        by rw [hentries e' he]; exact hl₂.alloc⟩
    have hsame : ∀ o m, s'.bytesFrom L (s'.view v e) e' o m = s.bytesFrom L v e' o m := by
      intro o m
      rw [State.bytesFrom, State.bytesFrom, hentries e' he, hview₂, hview₂']
      exact List.map_congr_left fun x _ => hkept _ _ hne
    rw [hl₂.reads, hl₂'.reads, hsame, hentries e' he]
  · have hlags := h.lags j
    have hlags' : Lags (s'.dinode j) (s'.view v e j) := by rwa [hdisk j hj, hseen j hj]
    rw [hlags'.fileByte_eq (by rw [hseen j hj, ← hlags.size]; exact hx), hkept j x hj,
      hlags.fileByte_eq (by rw [← hlags.size]; exact hx)]

theorem Inv.written (h : Inv L s v) (href : 0 < (s.entry e).ref)
    (hvalid : (s.entry e).valid = true) (hdev : (s.entry e).din.type ≠ .dev)
    (hoff : off.toNat ≤ (s.entry e).din.size) (hmax : off.toNat + n.toNat ≤ MAXFILE * BSIZE)
    (hcopies : ∀ i < n.toNat, copies i = true)
    (hw : s.writei L e src off n copies r = some (s', r')) :
    r' = n.toNat ∧ Written L e src off n s s' := by
  obtain ⟨hl, -⟩ := h.locked href hvalid
  obtain ⟨hr, -⟩ := hl.writei hdev hoff hmax hcopies hw
  exact h.written_done href hvalid hdev hw (by omega)

/-- **What is written is read.** In every well-formed state, for every locked inode that is no
device, every offset and every number of bytes. -/
theorem writei_readi (h : Inv L s v) (href : 0 < (s.entry e).ref)
    (hvalid : (s.entry e).valid = true) (hdev : (s.entry e).din.type ≠ .dev) (src : ℕ → UInt8)
    (off n : UInt32) (copies : ℕ → Bool) (hcopies : ∀ i < n.toNat, copies i = true) (r : ℤ) :
    (off.toNat ≤ (s.entry e).din.size → off.toNat + n.toNat ≤ MAXFILE * BSIZE →
      (s.lacks e (touched off.toNat n.toNat)).card ≤ (s.free L).card →
      ∃ s', s.writei L e src off n copies r = some (s', (n.toNat : ℤ)) ∧ Written L e src off n s s') ∧
    (¬(off.toNat ≤ (s.entry e).din.size ∧ off.toNat + n.toNat ≤ MAXFILE * BSIZE) →
      s.writei L e src off n copies r = some (s, -1)) := by
  refine ⟨fun hoff hmax hroom => ?_, State.writei_refuses hdev⟩
  obtain ⟨hl, -⟩ := h.locked href hvalid
  obtain ⟨s', r', hw⟩ : ∃ s' r', s.writei L e src off n copies r = some (s', r') :=
    hl.writei_room hmax hroom
  obtain ⟨rfl, hwritten⟩ := h.written href hvalid hdev hoff hmax hcopies hw
  exact ⟨s', hw, hwritten⟩

/-- A byte is written to the empty file of the small image. -/
theorem writei_readi_byte : ∃ s s' : State,
    s.writei smallDisk 0 (fun _ => 7) 0 1 (fun _ => true) 0 = some (s', 1) ∧
      Written smallDisk 0 (fun _ => 7) 0 1 s s' := by
  obtain ⟨s, -, hs, href, hvalid, hdev, hroom⟩ := Reach.exists_of_exec (machine_step smallDisk _)
    smallImage_wellFormed [.iget 1, .readi 0 0 0 (fun _ => true) 0]
    (fun s => 0 < (s.entry 0).ref ∧ (s.entry 0).valid = true ∧ (s.entry 0).din.type ≠ .dev ∧
      (s.lacks 0 (touched 0 1)).card ≤ (s.free smallDisk).card) (by decide)
  obtain ⟨v, hv⟩ := inv_of_reach (fun _ h => WellFormed.toMounted h) hs
  have hwrite := writei_readi hv href hvalid hdev (fun _ => 7) 0 1 (fun _ => true)
    (fun _ _ => rfl) 0
  obtain ⟨s', hs'⟩ := hwrite.1 (Nat.zero_le _) (by decide) hroom
  exact ⟨s, s', hs'⟩

end KThreads.Inode

namespace KThreads.Inode

open Function (update)

/-- Where the superblock says that the inodes and the bitmap start. -/
structure Areas where
  inodestart : ℕ
  bmapstart : ℕ

namespace Areas

variable (A : Areas)

/-- The inodes in a block. -/
def IPB : ℕ := BSIZE / 64

/-- The bits in a block. -/
def BPB : ℕ := BSIZE * 8

/-- The block of an inode. -/
def IBLOCK (i : ℕ) : ℕ := i / IPB + A.inodestart

/-- The block of the bit of a block. -/
def BBLOCK (b : ℕ) : ℕ := b / BPB + A.bmapstart

end Areas

namespace State

variable (A : Areas) (L : Layout) (s : State) (e : Slot)

def ballocLogged : Option ((State × ℕ) × List ℕ) :=
  (s.balloc L).map fun x => (x, [A.BBLOCK x.2, x.2])

/-- `grab`; the block `after` is logged when a new address was put there. -/
def grabLogged (a : ℕ) (put : State → ℕ → State) (after : List ℕ) :
    Option ((State × ℕ) × List ℕ) :=
  if a = 0 then (s.ballocLogged A L).map fun x => ((put x.1.1 x.1.2, x.1.2), x.2 ++ after)
  else some ((s, a), [])

def bmapLogged (bn : ℕ) : Option ((State × ℕ) × List ℕ) :=
  let d := (s.entry e).din
  if bn < NDIRECT then s.grabLogged A L (d.addrs bn) (fun s a => s.setAddr e bn a) []
  else if bn - NDIRECT < NINDIRECT then
    (s.grabLogged A L (d.addrs NDIRECT) (fun s a => s.setAddr e NDIRECT a) []).bind fun x =>
      (x.1.1.grabLogged A L (word (x.1.1.block x.1.2) (bn - NDIRECT)) (fun s a =>
        { s with block := update s.block x.1.2 (setWord (s.block x.1.2) (bn - NDIRECT) a) })
        [x.1.2]).map fun y => (y.1, x.2 ++ y.2)
  else none

/-- The loop of `writei`. -/
def writeLoop (src : ℕ → UInt8) (off₀ : ℕ) (copies : ℕ → Bool) :
    ℕ → State → ℕ → ℕ → ℕ → Option ((State × ℕ × Bool) × List ℕ)
  | 0, s, off, _, _ => some ((s, off, true), [])
  | fuel + 1, s, off, left, i =>
      if left = 0 then some ((s, off, true), [])
      else (s.bmapLogged A L e (off / BSIZE)).bind fun x =>
        let m := min left (BSIZE - off % BSIZE)
        if copies i then
          (writeLoop src off₀ copies fuel (writePut src off₀ x.1.1 () x.1.2 off m).1 (off + m)
            (left - m) (i + 1)).map fun y => (y.1, x.2 ++ x.1.2 :: y.2)
        else some ((x.1.1, off, false), x.2)

def writeiLogged (src : ℕ → UInt8) (off n : UInt32) (copies : ℕ → Bool) (r : ℤ) :
    Option ((State × ℤ) × List ℕ) :=
  let d := (s.entry e).din
  if d.type = .dev then some ((s, r), [])
  else if d.size < off.toNat ∨ off + n < off then some ((s, -1), [])
  else if MAXFILE * BSIZE < off.toNat + n.toNat then some ((s, -1), [])
  else
    (writeLoop A L e src off.toNat copies n.toNat s off.toNat n.toNat 0).map fun x =>
      if x.1.2.2 = false then ((x.1.1, -1), x.2)
      else if 0 < n.toNat ∧ d.size < x.1.2.1 then
        (((x.1.1.setDin e { (x.1.1.entry e).din with size := x.1.2.1 }).iupdate e, n.toNat),
          x.2 ++ [A.IBLOCK (x.1.1.entry e).inum])
      else ((x.1.1, n.toNat), x.2)

end State

variable {A : Areas} {L : Layout} {s s' : State} {v : ℕ → Dinode} {e : Slot} {src : ℕ → UInt8}
  {off n : UInt32} {copies : ℕ → Bool} {r r' : ℤ} {a bn : ℕ} {bs : List ℕ}

theorem State.grabLogged_fst {put : State → ℕ → State} {after : List ℕ} :
    (s.grabLogged A L a put after).map Prod.fst = s.grab L a put := by
  unfold State.grabLogged State.grab State.ballocLogged
  split
  · rw [Option.map_map, Option.map_map]
    rfl
  · rfl

theorem State.bmapLogged_fst : (s.bmapLogged A L e bn).map Prod.fst = s.bmap L e bn := by
  unfold State.bmapLogged State.bmap
  dsimp only
  split
  · exact State.grabLogged_fst
  split
  · rw [← State.grabLogged_fst (A := A), Option.map_bind, Option.bind_map]
    refine Option.bind_congr fun x _ => ?_
    dsimp only [Function.comp_apply]
    rw [Option.map_map]
    exact State.grabLogged_fst
  · rfl

theorem State.writeLoop_fst {off₀ fuel o left i : ℕ} :
    (State.writeLoop A L e src off₀ copies fuel s o left i).map Prod.fst =
      (State.copyLoop L e (writePut src off₀) copies fuel s () o left i).map
        fun x => (x.1, x.2.2.1, x.2.2.2) := by
  induction fuel generalizing s o left i with
  | zero => rfl
  | succ fuel ih =>
    rw [State.writeLoop, State.copyLoop]
    split
    · rfl
    rw [← State.bmapLogged_fst (A := A), Option.map_bind, Option.bind_map, Option.map_bind]
    refine Option.bind_congr fun x _ => ?_
    dsimp only [Function.comp_apply]
    split
    · rw [Option.map_map]
      exact ih
    · rfl

theorem State.writeiLogged_fst :
    (s.writeiLogged A L e src off n copies r).map Prod.fst = s.writei L e src off n copies r := by
  unfold State.writeiLogged State.writei
  dsimp only
  split
  · rfl
  split
  · rfl
  split
  · rfl
  change _ = (State.copyLoop L e (writePut src off.toNat) copies n.toNat s () off.toNat n.toNat 0).map _
  have hloop :=
    @State.writeLoop_fst A L s e src copies off.toNat n.toNat off.toNat n.toNat 0
  cases hw : State.writeLoop A L e src off.toNat copies n.toNat s off.toNat n.toNat 0 with
  | none =>
    rw [hw] at hloop
    rw [Option.map_eq_none_iff.mp hloop.symm]
    rfl
  | some x =>
    obtain ⟨⟨s₁, o, ok⟩, bs⟩ := x
    rw [hw] at hloop
    obtain ⟨⟨s₂, u, o₂, ok₂⟩, hcopy, heq⟩ := Option.map_eq_some_iff.mp hloop.symm
    cases heq
    rw [hcopy]
    simp only [Option.map_some, Option.some.injEq]
    split
    · rfl
    split <;> rfl

theorem State.of_grabLogged {put : State → ℕ → State} {after : List ℕ} {a₀ : ℕ}
    (hsize : L.size ≤ Areas.BPB) (h : s.grabLogged A L a₀ put after = some ((s', a), bs)) :
    a₀ ≠ 0 ∧ bs = [] ∨ a₀ = 0 ∧ bs = A.bmapstart :: a :: after := by
  unfold State.grabLogged at h
  split at h
  · next hzero =>
    obtain ⟨x, hx, heq⟩ := Option.map_eq_some_iff.mp h
    obtain ⟨⟨s₁, b⟩, hb, rfl⟩ := Option.map_eq_some_iff.mp hx
    cases heq
    obtain ⟨-, hlt, -⟩ := State.of_balloc hb
    have hdiv : b / Areas.BPB = 0 := Nat.div_eq_of_lt (by omega)
    refine .inr ⟨hzero, ?_⟩
    rw [Areas.BBLOCK, hdiv, Nat.zero_add]
    rfl
  · next hne =>
    cases h
    exact .inl ⟨hne, rfl⟩

theorem Locked.bmapLogged (h : Locked L v e s) (hsize : L.size ≤ Areas.BPB)
    (hmap : s.bmapLogged A L e bn = some ((s', a), bs)) :
    ∀ b ∈ bs, b = A.bmapstart ∨ b = a ∨ s'.ref L v e NDIRECT = some b := by
  unfold State.bmapLogged at hmap
  dsimp only at hmap
  split at hmap
  · intro b hb
    rcases State.of_grabLogged hsize hmap with ⟨-, rfl⟩ | ⟨-, rfl⟩
    · cases hb
    · have hb : b = A.bmapstart ∨ b = a := by simpa using hb
      exact hb.imp_right .inl
  split at hmap
  swap
  · cases hmap
  next hj =>
  obtain ⟨⟨⟨s₁, ind⟩, bs₁⟩, hind, hmap⟩ := Option.bind_eq_some_iff.mp hmap
  obtain ⟨⟨⟨s₂, a₂⟩, bs₂⟩, hword, heq⟩ := Option.map_eq_some_iff.mp hmap
  cases heq
  have hgrab : s.grab L ((s.entry e).din.addrs NDIRECT) (fun s a => s.setAddr e NDIRECT a) =
      some (s₁, ind) := by
    rw [← State.grabLogged_fst (A := A), hind]
    rfl
  obtain ⟨⟨hgrows, -⟩, rfl, hne, -⟩ := h.grab_addr le_rfl hgrab
  have hl₁ := hgrows.locked h
  have hgrab' := @State.grabLogged_fst A L s₁
    (word (s₁.block ((s₁.entry e).din.addrs NDIRECT)) (bn - NDIRECT))
    (fun s a => { s with
      block := update s.block ((s₁.entry e).din.addrs NDIRECT)
        (setWord (s.block ((s₁.entry e).din.addrs NDIRECT)) (bn - NDIRECT) a) })
    [(s₁.entry e).din.addrs NDIRECT]
  rw [hword] at hgrab'
  obtain ⟨⟨hgrows', -⟩, -⟩ := hl₁.grab_word hne hj hgrab'.symm
  have hind₁ : s₁.ref L v e NDIRECT = some ((s₁.entry e).din.addrs NDIRECT) := by
    have href := @Sound.ref_indirect _ _ s₁.block _ hl₁.inum hl₁.view_alloc
      (by rw [State.view_self]; exact hne)
    rwa [State.view_self] at href
  have hind' := hgrows'.ref hind₁
  intro b hb
  rcases List.mem_append.mp hb with hb | hb
  · rcases State.of_grabLogged hsize hind with ⟨-, rfl⟩ | ⟨-, rfl⟩
    · cases hb
    · have hb : b = A.bmapstart ∨ b = (s₁.entry e).din.addrs NDIRECT := by simpa using hb
      rcases hb with hb | rfl
      · exact .inl hb
      · exact .inr (.inr hind')
  · rcases State.of_grabLogged hsize hword with ⟨-, rfl⟩ | ⟨-, rfl⟩
    · cases hb
    · have hb : b = A.bmapstart ∨ b = a ∨ b = (s₁.entry e).din.addrs NDIRECT := by simpa using hb
      rcases hb with hb | hb | rfl
      · exact .inl hb
      · exact .inr (.inl hb)
      · exact .inr (.inr hind')

theorem State.bmap_of_logged (h : s.bmapLogged A L e bn = some ((s', a), bs)) :
    s.bmap L e bn = some (s', a) := by
  rw [← State.bmapLogged_fst (A := A), h]
  rfl

theorem State.copyLoop_of_logged {off₀ fuel o left i o' : ℕ} {ok : Bool}
    (h : State.writeLoop A L e src off₀ copies fuel s o left i = some ((s', o', ok), bs)) :
    State.copyLoop L e (writePut src off₀) copies fuel s () o left i = some (s', (), o', ok) := by
  have hloop := @State.writeLoop_fst A L s e src copies off₀ fuel o left i
  rw [h] at hloop
  obtain ⟨⟨s₂, u, o₂, ok₂⟩, hcopy, heq⟩ := Option.map_eq_some_iff.mp hloop.symm
  cases heq
  exact hcopy

theorem Locked.writeLoop_logged {off₀ fuel o left i o' : ℕ} {ok : Bool} (h : Locked L v e s)
    (hsize : L.size ≤ Areas.BPB) (hfuel : left ≤ fuel)
    (hloop : State.writeLoop A L e src off₀ copies fuel s o left i = some ((s', o', ok), bs)) :
    ∃ data : List ℕ, data.length ≤ (o % BSIZE + left + (BSIZE - 1)) / BSIZE ∧
      (left = 0 → data = []) ∧
      ∀ b ∈ bs, b = A.bmapstart ∨ b ∈ data ∨ s'.ref L v e NDIRECT = some b := by
  induction fuel generalizing s o left i bs with
  | zero =>
    cases hloop
    exact ⟨[], Nat.zero_le _, fun _ => rfl, by simp⟩
  | succ fuel ih =>
    have hgrows := (h.copyLoop (writePut_block off₀) hfuel (State.copyLoop_of_logged hloop)).1
    rw [State.writeLoop] at hloop
    split at hloop
    · cases hloop
      exact ⟨[], Nat.zero_le _, fun _ => rfl, by simp⟩
    next hleft =>
    obtain ⟨⟨⟨s₁, a⟩, bs₁⟩, hmap, hloop⟩ := Option.bind_eq_some_iff.mp hloop
    have hlogged := h.bmapLogged hsize hmap
    obtain ⟨⟨hgrows₁, -⟩, href, -⟩ := h.bmap (State.bmap_of_logged hmap)
    have hl₁ := hgrows₁.locked h
    dsimp only at hloop
    split at hloop
    · obtain ⟨m, hm⟩ : ∃ m, m = min left (BSIZE - o % BSIZE) := ⟨_, rfl⟩
      rw [← hm] at hloop
      obtain ⟨⟨⟨s₂, o₂, ok₂⟩, bs₂⟩, hrest, heq⟩ := Option.map_eq_some_iff.mp hloop
      cases heq
      obtain ⟨d, hd⟩ := writePut_block off₀ s₁ () a o m
      have hwrite := hl₁.write (Locked.slotOf_ne _) href d
      rw [← hd] at hwrite
      have hl₂ := hwrite.locked hl₁
      have hmod := Nat.mod_lt o (show 0 < BSIZE by decide)
      have hfuel' : left - m ≤ fuel := by omega
      have hgrows₂ := (hl₂.copyLoop (writePut_block off₀) hfuel' (State.copyLoop_of_logged hrest)).1
      obtain ⟨data, hlen, hend, hdata⟩ := ih hl₂ hfuel' hrest
      refine ⟨a :: data, ?_, fun hzero => absurd hzero hleft, fun b hb => ?_⟩
      · rw [List.length_cons]
        by_cases hlast : left - m = 0
        · rw [hend hlast, List.length_nil]
          simp only [BSIZE] at *
          omega
        · simp only [BSIZE] at *
          omega
      · rcases List.mem_append.mp hb with hb | hb
        · rcases hlogged b hb with hb | rfl | hb
          · exact .inl hb
          · exact .inr (.inl (List.mem_cons_self ..))
          · exact .inr (.inr (hgrows₂.ref (hwrite.ref hb)))
        · rcases List.mem_cons.mp hb with rfl | hb
          · exact .inr (.inl (List.mem_cons_self ..))
          · exact (hdata b hb).imp_right (Or.imp_left (List.mem_cons_of_mem _))
    · cases hloop
      refine ⟨[a], ?_, fun hzero => absurd hzero hleft, fun b hb => ?_⟩
      · simp only [List.length_singleton, BSIZE]
        omega
      · simpa using hlogged b hb

theorem Locked.writei_logged (h : Locked L v e s) (hsize : L.size ≤ Areas.BPB)
    (hn : n.toNat ≤ 3 * BSIZE)
    (hw : s.writeiLogged A L e src off n copies r = some ((s', r'), bs)) :
    bs.toFinset.card ≤ 7 := by
  unfold State.writeiLogged at hw
  dsimp only at hw
  split at hw
  · cases hw
    simp
  split at hw
  · cases hw
    simp
  split at hw
  · cases hw
    simp
  obtain ⟨⟨⟨s₁, o', ok⟩, bs₁⟩, hloop, hend⟩ := Option.map_eq_some_iff.mp hw
  obtain ⟨data, hlen, -, hdata⟩ := h.writeLoop_logged hsize le_rfl hloop
  have hlen : data.length ≤ 4 := by
    simp only [BSIZE] at *
    omega
  obtain ⟨ind, hind⟩ : ∃ ind, ∀ b, s₁.ref L v e NDIRECT = some b → b = ind :=
    ⟨(s₁.ref L v e NDIRECT).getD 0, fun b hb => by rw [hb]; rfl⟩
  have hsub : bs.toFinset ⊆
      insert A.bmapstart (insert ind (insert (A.IBLOCK (s₁.entry e).inum) data.toFinset)) := by
    intro b hb
    have hb : b ∈ bs₁ ∨ b = A.IBLOCK (s₁.entry e).inum := by
      rw [List.mem_toFinset] at hb
      dsimp only at hend
      split at hend
      · cases hend
        exact .inl hb
      split at hend
      · cases hend
        simpa using hb
      · cases hend
        exact .inl hb
    simp only [Finset.mem_insert, List.mem_toFinset]
    rcases hb with hb | hb
    · rcases hdata b hb with hb | hb | hb
      · exact .inl hb
      · exact .inr (.inr (.inr hb))
      · exact .inr (.inl (hind b hb))
    · exact .inr (.inr (.inl hb))
  calc bs.toFinset.card
      ≤ (insert A.bmapstart (insert ind (insert (A.IBLOCK (s₁.entry e).inum)
          data.toFinset))).card := Finset.card_le_card hsub
    _ ≤ data.toFinset.card + 1 + 1 + 1 :=
      (Finset.card_insert_le _ _).trans (Nat.succ_le_succ ((Finset.card_insert_le _ _).trans
        (Nat.succ_le_succ (Finset.card_insert_le _ _))))
    _ ≤ 7 := by
      have := List.toFinset_card_le data
      omega

end KThreads.Inode

namespace KThreads.FileWrite

open Inode (Areas Layout Slot State Inv Written MAXFILE BSIZE)
open Transition (Reach)

/-- One round of the loop. -/
structure Txn where
  /-- `i` -/
  i : ℕ
  /-- `f->off` -/
  off : UInt32
  /-- The file system behind `ilock` -/
  before : State
  /-- The file system behind `writei` -/
  after : State
  /-- The result of `writei` -/
  r : ℤ
  /-- The blocks that were given to `log_write`, in this order -/
  logged : List ℕ

/-- The end of the loop -/
structure Ended where
  i : ℕ
  off : UInt32
  state : State
  txns : List Txn

inductive Panic
  /-- `ilock: no type` -/
  | ilock
  /-- `balloc: out of blocks` -/
  | balloc
  /-- `short filewrite` -/
  | short
  deriving DecidableEq

/-- What a call does not decide. -/
structure World where
  /-- What the other threads make of the file system before the lock of a round -/
  between : ℕ → State → State
  /-- Whether a copy from user space in a round succeeds -/
  copies : ℕ → ℕ → Bool

section

variable (A : Areas) (L : Layout) (e : Slot) (W : World) (buf : List UInt8)

/-- The loop of `filewrite`, from the round `k` on. Every round moves `i`, so that as many rounds
as there are bytes suffice. -/
def filewriteLoop : ℕ → ℕ → ℕ → UInt32 → State → Except Panic Ended
  | 0, _, i, off, s => .ok ⟨i, off, s, []⟩
  | fuel + 1, k, i, off, s =>
      if i < buf.length then
        match (W.between k s).ilock e with
        | none => .error .ilock
        | some b =>
          match b.writeiLogged A L e (fun j => buf.getD (i + j) 0) off (.ofNat (chunk buf i))
            (W.copies k) 0 with
          | none => .error .balloc
          | some ((a, r), logged) =>
            let off' := if 0 < r then off + .ofNat r.toNat else off
            if r < 0 then .ok ⟨i, off', a, [⟨i, off, b, a, r, logged⟩]⟩
            else if r ≠ chunk buf i then .error .short
            else (filewriteLoop fuel (k + 1) (i + r.toNat) off' a).map fun o =>
              { o with txns := ⟨i, off, b, a, r, logged⟩ :: o.txns }
      else .ok ⟨i, off, s, []⟩

/-- `filewrite`, for an inode. `argptr` has refused a negative number of bytes. -/
def filewrite (writable : Bool) (off : UInt32) (s : State) : Except Panic (ℤ × Ended) :=
  if writable = false then .ok (-1, ⟨0, off, s, []⟩)
  else (filewriteLoop A L e W buf buf.length 0 0 off s).map fun o => (result buf o.i, o)

end

/-- An entry of the cache that is held for the regular file `j`. -/
structure IsOpen (L : Layout) (e : Slot) (j : ℕ) (s : State) : Prop where
  inv : ∃ v, Inv L s v ∧ (v j).type = .file
  ref : 0 < (s.entry e).ref
  inum : (s.entry e).inum = j

/-- The bytes that a round has written. -/
def Txn.bytes (buf : List UInt8) (t : Txn) : List UInt8 := (buf.drop t.i).take t.r.toNat

/-- The bytes of a round are in the file, and nothing else has changed. -/
def Txn.Stored (L : Layout) (e : Slot) (buf : List UInt8) (t : Txn) : Prop :=
  Written L e (fun j => buf.getD (t.i + j) 0) t.off (.ofNat t.r.toNat) t.before t.after

/-- All bytes were written, one behind the other, and the offset is behind the last one. -/
structure Complete (L : Layout) (e : Slot) (buf : List UInt8) (off : UInt32) (o : Ended) :
    Prop where
  bytes : (o.txns.map (Txn.bytes buf)).flatten = buf
  offsets : ∀ (k : ℕ) (hk : k < o.txns.length), o.txns[k].off.toNat =
    off.toNat + ((o.txns.take k).map (Txn.bytes buf)).flatten.length
  stored : ∀ t ∈ o.txns, t.Stored L e buf
  advanced : o.off.toNat = off.toNat + buf.length

variable {A : Areas} {L : Layout} {e : Slot} {W : World} {buf : List UInt8} {off : UInt32}
  {s s' b : State} {i j k n : ℕ} {o : Ended} {t : Txn}

theorem maxBytes_eq : maxBytes = 3 * BSIZE := rfl

theorem toNat_chunk (buf : List UInt8) (i : ℕ) : (UInt32.ofNat (chunk buf i)).toNat = chunk buf i := by
  rw [UInt32.toNat_ofNat']
  exact Nat.mod_eq_of_lt ((Nat.min_le_right _ _).trans_lt (by decide))

theorem IsOpen.ilock (h : IsOpen L e j s) : ∃ b v, s.ilock e = some b ∧ Inv L b v ∧
    (b.entry e).valid = true ∧ 0 < (b.entry e).ref ∧ (b.entry e).inum = j ∧
    (b.entry e).din.type = .file := by
  obtain ⟨⟨v, hv, htype⟩, href, rfl⟩ := h
  have hdisk : (s.dinode (s.entry e).inum).type = .file := (hv.lags _).type.trans htype
  obtain ⟨b, hb⟩ : ∃ b, s.ilock e = some b := by
    rw [State.ilock]
    split
    · exact ⟨s, rfl⟩
    · rw [if_neg (by rw [hdisk]; simp)]
      exact ⟨_, rfl⟩
  obtain ⟨hinv, -, ⟨href', hvalid⟩, -, q, rfl, hinum⟩ := hv.ilock href hb
  have hself : ((s.setEntry e q).entry e).inum = (s.entry e).inum := by
    simp only [State.setEntry, Function.update_self, hinum]
  refine ⟨_, v, hb, hinv, hvalid, href', hself, ?_⟩
  rw [← hinv.cached e href' hvalid, hself]
  exact htype

theorem round {v : ℕ → Inode.Dinode} {copies : ℕ → Bool} {a : State} {r : ℤ} {logged : List ℕ}
    (hsize : L.size ≤ Bcache.FSSIZE) (hv : Inv L b v) (hvalid : (b.entry e).valid = true)
    (href : 0 < (b.entry e).ref) (hinum : (b.entry e).inum = j)
    (htype : (b.entry e).din.type = .file)
    (hw : b.writeiLogged A L e (fun j => buf.getD (i + j) 0) off (.ofNat (chunk buf i)) copies 0 =
      some ((a, r), logged)) :
    logged.toFinset.card ≤ Log.MAXOPBLOCKS ∧
      (0 ≤ r → r = chunk buf i ∧ off.toNat + chunk buf i ≤ MAXFILE * BSIZE ∧
        Txn.Stored L e buf ⟨i, off, b, a, r, logged⟩ ∧ IsOpen L e j a) := by
  obtain ⟨hl, hview⟩ := hv.locked href hvalid
  have hdev : (b.entry e).din.type ≠ .dev := by
    rw [htype]
    nofun
  have hfew : logged.toFinset.card ≤ 7 := by
    refine hl.writei_logged (hsize.trans (by decide)) ?_ hw
    rw [toNat_chunk, ← maxBytes_eq]
    exact Nat.min_le_right _ _
  refine ⟨hfew.trans (by decide), fun hr => ?_⟩
  have hplain : b.writei L e (fun j => buf.getD (i + j) 0) off (.ofNat (chunk buf i)) copies 0 =
      some (a, r) := by
    rw [← State.writeiLogged_fst, hw]
    rfl
  obtain ⟨⟨-, hmax⟩, hrn, hentry, htype', -⟩ := hl.writei_done hdev hplain hr
  obtain ⟨-, hwritten⟩ := hv.written_done href hvalid hdev hplain hr
  obtain ⟨v', hv', -⟩ := hv.writei hl ⟨href, hvalid⟩ hview hplain
  rw [toNat_chunk] at hrn hmax
  have href' : 0 < (a.entry e).ref := by
    rw [hentry]
    exact href
  have hinum' : (a.entry e).inum = j := by
    rw [hentry]
    exact hinum
  refine ⟨hrn, hmax, ?_, ⟨v', hv', ?_⟩, href', hinum'⟩
  · rw [Txn.Stored, hrn, Int.toNat_natCast]
    exact hwritten
  · have hvalid' : (a.entry e).valid = true := by
      rw [hentry]
      exact hvalid
    rw [← hinum', hv'.cached e href' hvalid', htype', htype]

/-- What the loop has done from `i` on. -/
structure Ran (L : Layout) (e : Slot) (buf : List UInt8) (i : ℕ) (off : UInt32) (o : Ended) :
    Prop where
  le : i ≤ o.i
  le_length : o.i ≤ buf.length
  bytes : (o.txns.map (Txn.bytes buf)).flatten = (buf.drop i).take (o.i - i)
  offsets : ∀ (k : ℕ) (hk : k < o.txns.length), o.txns[k].off.toNat =
    off.toNat + ((o.txns.take k).map (Txn.bytes buf)).flatten.length
  stored : o.i = buf.length → ∀ t ∈ o.txns, t.Stored L e buf
  advanced : o.off.toNat = off.toNat + (o.i - i)
  logged : ∀ t ∈ o.txns, t.logged.toFinset.card ≤ Log.MAXOPBLOCKS

theorem Ran.nil (hi : i ≤ buf.length) : Ran L e buf i off ⟨i, off, s, []⟩ where
  le := le_rfl
  le_length := hi
  bytes := by simp
  offsets := nofun
  stored := nofun
  advanced := by simp
  logged := nofun

theorem Ran.failed (hi : i < buf.length) (htoff : t.off = off) (hr : t.r < 0)
    (hfew : t.logged.toFinset.card ≤ Log.MAXOPBLOCKS) : Ran L e buf i off ⟨i, off, s, [t]⟩ where
  le := le_rfl
  le_length := hi.le
  bytes := by
    rw [Nat.sub_self, List.take_zero, List.map_singleton, List.flatten_singleton, Txn.bytes,
      Int.toNat_of_nonpos hr.le, List.take_zero]
  offsets := by
    intro k hk
    obtain rfl : k = 0 := by simpa using hk
    simp [htoff]
  stored := fun hend => absurd hend hi.ne
  advanced := by simp
  logged := by
    intro u hu
    rwa [List.mem_singleton.mp hu]

theorem Ran.cons {off' : UInt32} (h : Ran L e buf (i + n) off' o) (hti : t.i = i)
    (htoff : t.off = off) (hr : t.r = n) (hoff : off'.toNat = off.toNat + n)
    (hfew : t.logged.toFinset.card ≤ Log.MAXOPBLOCKS) (hstored : t.Stored L e buf) :
    Ran L e buf i off { o with txns := t :: o.txns } := by
  have hle := h.le
  have hlen := h.le_length
  have hbytes : t.bytes buf = (buf.drop i).take n := by rw [Txn.bytes, hti, hr, Int.toNat_natCast]
  have hlength : (t.bytes buf).length = n := by
    rw [hbytes, List.length_take, List.length_drop]
    omega
  refine ⟨(Nat.le_add_right i n).trans hle, hlen, ?_, ?_, ?_, ?_, ?_⟩
  · obtain ⟨m, hm⟩ : ∃ m, o.i = i + n + m := Nat.exists_eq_add_of_le hle
    rw [List.map_cons, List.flatten_cons, h.bytes, hbytes, ← List.drop_drop]
    have hleft : o.i - (i + n) = m := by omega
    have hall : o.i - i = n + m := by omega
    rw [hleft, hall, List.take_add]
  · intro k hk
    cases k with
    | zero => simp [htoff]
    | succ k =>
      have hk' : k < o.txns.length := by simpa using hk
      rw [List.getElem_cons_succ, h.offsets k hk', List.take_succ_cons, List.map_cons,
        List.flatten_cons, List.length_append, hlength, hoff]
      omega
  · intro hend u hu
    rcases List.mem_cons.mp hu with rfl | hu
    · exact hstored
    · exact h.stored hend u hu
  · have hadv := h.advanced
    dsimp only
    omega
  · intro u hu
    rcases List.mem_cons.mp hu with rfl | hu
    · exact hfew
    · exact h.logged u hu

theorem filewriteLoop_spec (hsize : L.size ≤ Bcache.FSSIZE)
    (hW : ∀ k s, IsOpen L e j s → IsOpen L e j (W.between k s)) {fuel : ℕ} (hs : IsOpen L e j s)
    (hi : i ≤ buf.length) (hfuel : buf.length ≤ i + fuel) :
    (∀ p, filewriteLoop A L e W buf fuel k i off s = .error p → p = .balloc) ∧
      ∀ o, filewriteLoop A L e W buf fuel k i off s = .ok o → Ran L e buf i off o := by
  -- The file is open in front of every round.
  induction fuel generalizing k i off s with
  | zero =>
    refine ⟨(by rintro _ ⟨⟩), fun o ho => ?_⟩
    cases ho
    exact .nil hi
  | succ fuel ih =>
    rw [filewriteLoop]
    by_cases hlt : i < buf.length
    swap
    · rw [if_neg hlt]
      refine ⟨(by simp), fun o ho => ?_⟩
      cases ho
      exact .nil hi
    rw [if_pos hlt]
    obtain ⟨b, v, hb, hv, hvalid, href, hinum, htype⟩ := (hW k s hs).ilock
    rw [hb]
    dsimp only
    cases hw : b.writeiLogged A L e (fun j => buf.getD (i + j) 0) off (.ofNat (chunk buf i))
      (W.copies k) 0 with
    | none =>
      refine ⟨fun p hp => ?_, by simp⟩
      cases hp
      rfl
    | some x =>
      obtain ⟨⟨a, r⟩, logged⟩ := x
      obtain ⟨hfew, hdone⟩ := round hsize hv hvalid href hinum htype hw
      dsimp only
      by_cases hr : r < 0
      · rw [if_pos hr, if_neg (by omega)]
        refine ⟨(by simp), fun o ho => ?_⟩
        cases ho
        exact .failed hlt rfl hr hfew
      obtain ⟨rfl, hmax, hstored, hopen⟩ := hdone (by omega)
      have hpos : 0 < chunk buf i := by
        have hmax : 0 < maxBytes := by decide
        rw [chunk]
        omega
      have hle : i + chunk buf i ≤ buf.length := by
        rw [chunk]
        omega
      have hoff : (off + .ofNat (chunk buf i)).toNat = off.toNat + chunk buf i := by
        simp only [MAXFILE, BSIZE, Inode.NDIRECT, Inode.NINDIRECT] at hmax
        rw [UInt32.toNat_add, toNat_chunk, Nat.mod_eq_of_lt (by omega)]
      rw [if_neg hr, if_neg (by simp), if_pos (by omega), Int.toNat_natCast]
      have hfuel' : buf.length ≤ i + chunk buf i + fuel := by omega
      cases hrest : filewriteLoop A L e W buf fuel (k + 1) (i + chunk buf i)
          (off + .ofNat (chunk buf i)) a with
      | error q =>
        refine ⟨fun p hp => ?_, (by rintro _ ⟨⟩)⟩
        cases hp
        exact (ih hopen hle hfuel').1 _ hrest
      | ok o' =>
        have hran := (ih hopen hle hfuel').2 _ hrest
        refine ⟨(by rintro _ ⟨⟩), fun o ho => ?_⟩
        cases ho
        exact hran.cons rfl rfl rfl hoff hfew hstored

/-- **The transactions of a write.** On a file system of at most `FSSIZE` blocks, every
transaction of a call has at most as many blocks as the log keeps for it, whatever the other
threads do to the file system in between. The call returns the number of bytes if and only if
all of them were written, one behind the other, and the offset has moved behind them. It does not
panic by itself. -/
theorem filewrite_transactions (hsize : L.size ≤ Bcache.FSSIZE) (hs : IsOpen L e j s)
    (hW : ∀ k s, IsOpen L e j s → IsOpen L e j (W.between k s)) (writable : Bool) :
    (∀ p, filewrite A L e W buf writable off s = .error p → p = .balloc) ∧
      ∀ r o, filewrite A L e W buf writable off s = .ok (r, o) →
        (∀ t ∈ o.txns, t.logged.toFinset.card ≤ Log.MAXOPBLOCKS) ∧
          (r = buf.length ↔ writable = true ∧ Complete L e buf off o) := by
  cases writable with
  | false =>
    refine ⟨nofun, fun r o ho => ?_⟩
    cases ho
    refine ⟨nofun, fun hr => ?_, fun hr => nomatch hr.1⟩
    omega
  | true =>
    have hfuel : buf.length ≤ 0 + buf.length := (Nat.zero_add _).ge
    rw [filewrite, if_neg (by decide)]
    cases hloop : filewriteLoop A L e W buf buf.length 0 0 off s with
    | error q =>
      refine ⟨fun p hp => ?_, nofun⟩
      cases hp
      exact (filewriteLoop_spec hsize hW hs (Nat.zero_le _) hfuel).1 _ hloop
    | ok o' =>
      refine ⟨nofun, fun r o ho => ?_⟩
      cases ho
      have hran := (filewriteLoop_spec hsize hW hs (Nat.zero_le _) hfuel).2 _ hloop
      have hbytes := hran.bytes
      have hadv := hran.advanced
      rw [List.drop_zero, Nat.sub_zero] at hbytes
      refine ⟨hran.logged, fun hr => ⟨rfl, ?_⟩, fun ⟨_, hall⟩ => ?_⟩
      · have hend : o'.i = buf.length := by
          by_contra hne
          rw [result, if_neg hne] at hr
          omega
        refine ⟨?_, hran.offsets, hran.stored hend, by omega⟩
        rw [hbytes, hend, List.take_length]
      · have hend : o'.i = buf.length := by
          have hlength := congrArg List.length (hbytes.symm.trans hall.bytes)
          rw [List.length_take] at hlength
          have hle := hran.le_length
          omega
        exact if_pos hend

/-- A byte is written to the empty file of the small image, by a thread that is alone. -/
theorem filewrite_transactions_byte : ∃ (s : State) (o : Ended),
    filewrite ⟨0, 0⟩ Inode.smallDisk 0 ⟨fun _ s => s, fun _ _ => true⟩ [7] true 0 s = .ok (1, o) ∧
      (∀ t ∈ o.txns, t.logged.toFinset.card ≤ Log.MAXOPBLOCKS) ∧
        Complete Inode.smallDisk 0 [7] 0 o := by
  obtain ⟨s, -, hs, href, hvalid, htype, hwrites⟩ := Reach.exists_of_exec
    (Inode.machine_step Inode.smallDisk _) Inode.smallImage_wellFormed
    [.iget 1, .readi 0 0 0 (fun _ => true) 0]
    (fun s => 0 < (s.entry 0).ref ∧ (s.entry 0).valid = true ∧ (s.entry 0).din.type = .file ∧
      ((filewrite ⟨0, 0⟩ Inode.smallDisk 0 ⟨fun _ s => s, fun _ _ => true⟩ [7] true 0 s).map
        Prod.fst).toOption = some 1) (by decide)
  obtain ⟨v, hv⟩ := Inode.inv_of_reach (fun _ h => Inode.WellFormed.toMounted h) hs
  have hopen : IsOpen Inode.smallDisk 0 (s.entry 0).inum s :=
    ⟨⟨v, hv, by rw [hv.cached 0 href hvalid, htype]⟩, href, rfl⟩
  cases hrun : filewrite ⟨0, 0⟩ Inode.smallDisk 0 ⟨fun _ s => s, fun _ _ => true⟩ [7] true 0 s with
  | error p =>
    rw [hrun] at hwrites
    cases hwrites
  | ok x =>
    obtain ⟨r, o⟩ := x
    rw [hrun] at hwrites
    obtain rfl : r = 1 := Option.some.inj hwrites
    obtain ⟨hfew, hall⟩ := (filewrite_transactions (by decide) hopen (fun _ _ h => h) true).2 1 o hrun
    exact ⟨s, o, hrun, hfew, (hall.mp rfl).2⟩

end KThreads.FileWrite
