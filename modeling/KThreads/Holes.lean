import KThreads.MkfsImages

/-!
# Holes

`readi` calls `bmap`, which allocates a block where there is none. In a file system without holes
it finds every block, and no call makes a hole. But `mkfs` rounds the size of the root directory
up by a whole block when the entries fill their blocks, and it lets inodes grow into the bitmap.
-/

namespace KThreads.Mkfs

open Transition (Reach anyStep)
open Inode (BSIZE NDIRECT MAXFILE Dinode Layout State Inv Mounted machine slotOf refAt byteAt word)

variable {img : Img} {s : State} {v : ℕ → Dinode} {L : Layout} {files : List HostFile} {i n used w : ℕ}

/-- Every inode, on the disk and in the cache, has its blocks up to its size, and a read changes
nothing. -/
structure NoHoles (L : Layout) (s : State) : Prop where
  disk : ∀ i < L.inodes, (s.dinode i).type ≠ .free → ∀ bn, bn * BSIZE < (s.dinode i).size →
    (s.dinode i).at s.block (slotOf bn) ≠ 0
  cache : ∀ e, 0 < (s.entry e).ref → (s.entry e).valid = true → ∀ bn,
    bn * BSIZE < (s.entry e).din.size → (s.entry e).din.at s.block (slotOf bn) ≠ 0
  reads : ∀ e s', 0 < (s.entry e).ref → s.ilock e = some s' → ∀ off n copies r,
    ∃ r' bytes, s'.readi L e off n copies r = some (s', r', bytes)

theorem noHoles_of_inv (h : Inv L s v) : NoHoles L s := by
  have hfilled : ∀ i < L.inodes, (v i).type ≠ .free → ∀ bn, bn * BSIZE < (v i).size →
      (v i).at s.block (slotOf bn) ≠ 0 := by
    intro i hi htype bn hbn
    obtain ⟨a, ha⟩ := Option.ne_none_iff_exists'.mp (h.sound.filled i hi htype bn hbn)
    obtain ⟨-, -, hat, ha0⟩ := Inode.refAt_eq_some.mp ha
    rwa [hat]
  refine ⟨fun i hi htype bn hbn => ?_, fun e href hvalid bn hbn => ?_,
    fun e s' href hlock off n copies r => ?_⟩
  · have hlags := h.lags i
    rw [hlags.size] at hbn
    rw [hlags.at_eq hbn]
    exact hfilled i hi (hlags.type ▸ htype) bn hbn
  · rw [← h.cached e href hvalid] at hbn ⊢
    exact hfilled _ (h.inums e href) (by rw [h.cached e href hvalid]; exact h.alloc e href hvalid) bn hbn
  · obtain ⟨-, hl, -⟩ := h.ilock href hlock
    obtain ⟨r', bytes, hread, -⟩ := hl.readi off n copies r
    exact ⟨r', bytes, hread⟩

/-- What the superblock says, and the inodes that were used. -/
def layoutFor (n : ℕ) : Layout :=
  { layout with
    inodes := max layout.inodes n
    ninodes_le := layout.ninodes_le.trans (le_max_left _ _) }

theorem layoutFor_of_le (h : n ≤ layout.inodes) : layoutFor n = layout := by
  simp only [layoutFor, max_eq_left h]

theorem toNat_byteAt_bitmap (hused : used ≤ BSIZE * 8) {x : ℕ} (hx : x < BSIZE) :
    (8 * (x + 1) ≤ used → (byteAt (Img.bitmap used) x).toNat = 255) ∧
      (used ≤ 8 * x → (byteAt (Img.bitmap used) x).toNat = 0) := by
  have hbits : ∀ j, (byteAt (Img.bitmap used) x).toNat.testBit j =
      decide (j < 8 ∧ 8 * x + j < used) := by
    intro j
    by_cases hj : j < 8
    · have hbit := testBit_bitmap (b := 8 * x + j) hused (by omega)
      rw [show (8 * x + j) / 8 = x by omega, show (8 * x + j) % 8 = j by omega] at hbit
      rw [hbit, decide_eq_decide]
      omega
    · rw [Nat.testBit_lt_two_pow, decide_eq_false (by omega)]
      exact (UInt8.toNat_lt _).trans_le (Nat.pow_le_pow_right (by decide) (Nat.not_lt.mp hj))
  constructor
  · intro hfull
    refine Nat.eq_of_testBit_eq fun j => ?_
    rw [hbits, show 255 = 2 ^ 8 - 1 from rfl, Nat.testBit_two_pow_sub_one, decide_eq_decide]
    omega
  · intro hfree
    refine Nat.eq_of_testBit_eq fun j => ?_
    rw [hbits, Nat.zero_testBit, decide_eq_false (by omega)]

theorem toNat_word_bitmap (hw : w < 128) :
    (Img.bitmap used ⟨w, hw⟩).toNat = (byteAt (Img.bitmap used) (4 * w + 0)).toNat +
      256 * ((byteAt (Img.bitmap used) (4 * w + 1)).toNat +
        256 * ((byteAt (Img.bitmap used) (4 * w + 2)).toNat +
          256 * (byteAt (Img.bitmap used) (4 * w + 3)).toNat)) := by
  have hbyte : ∀ j (hj : j < 4), (byteAt (Img.bitmap used) (4 * w + j)).toNat =
      (Img.bitmap used ⟨w, hw⟩).toNat / 2 ^ (8 * j) % 256 := by
    intro j hj
    have hdiv : (4 * w + j) / 4 = w := by omega
    have hmod : (4 * w + j) % 4 = j := by omega
    rw [byteAt, dif_pos (by omega), hmod, Inode.toNat_byteOf _ hj]
    simp only [hdiv]
  have hlt := (Img.bitmap used ⟨w, hw⟩).toNat_lt
  rw [hbyte 0 (by decide), hbyte 1 (by decide), hbyte 2 (by decide),
    hbyte 3 (by decide)]
  simp only [Nat.mul_zero, Nat.mul_one, Nat.reduceMul, Nat.reducePow]
  omega

theorem word_bitmap_full (hused : used ≤ BSIZE * 8) (hw : w < 128) (h : 32 * (w + 1) ≤ used) :
    (Img.bitmap used ⟨w, hw⟩).toNat = 2 ^ 32 - 1 := by
  have hbyte : ∀ j < 4, (byteAt (Img.bitmap used) (4 * w + j)).toNat = 255 := fun j hj =>
    (toNat_byteAt_bitmap hused (by rw [BSIZE]; omega)).1 (by omega)
  change _ = 4294967295
  rw [toNat_word_bitmap hw, hbyte 0 (by decide), hbyte 1 (by decide), hbyte 2 (by decide),
    hbyte 3 (by decide)]

theorem word_bitmap_zero (hused : used ≤ BSIZE * 8) (hw : w < 128) (h : used ≤ 32 * w) :
    (Img.bitmap used ⟨w, hw⟩).toNat = 0 := by
  have hbyte : ∀ j < 4, (byteAt (Img.bitmap used) (4 * w + j)).toNat = 0 := fun j hj =>
    (toNat_byteAt_bitmap hused (by rw [BSIZE]; omega)).2 (by omega)
  rw [toNat_word_bitmap hw, hbyte 0 (by decide), hbyte 1 (by decide), hbyte 2 (by decide),
    hbyte 3 (by decide)]

theorem word_bitmap_pos (hused : used ≤ BSIZE * 8) (hw : w < 128) (h : 32 * w < used) :
    0 < (Img.bitmap used ⟨w, hw⟩).toNat := by
  have hbit := testBit_bitmap (b := 32 * w) hused (by rw [BSIZE]; omega)
  rw [decide_eq_true h, show 32 * w / 8 = 4 * w by omega, show 32 * w % 8 = 0 by omega] at hbit
  have hpos : (byteAt (Img.bitmap used) (4 * w)).toNat ≠ 0 := by
    intro hzero
    rw [hzero, Nat.zero_testBit] at hbit
    cases hbit
  rw [toNat_word_bitmap hw, Nat.add_zero]
  omega

theorem build_append (files files' : List HostFile) : build (files ++ files') =
    (build files).bind fun img => files'.foldlM (fun img f => img.addFile ROOTINO f) img := by
  unfold build
  cases halloc : (Img.blank.wsect 1 Img.superblock).ialloc 1 with
  | none => rfl
  | some x =>
    simp only [Option.bind_some]
    by_cases hroot : x.2 = ROOTINO
    · simp only [hroot, if_true, Option.bind_assoc, List.foldlM_append]
      rfl
    · simp only [if_neg hroot, Option.bind_none]

theorem freeblock_of_many (h : build files = some img) (hmany : 206 < files.length) :
    66 ≤ img.freeblock := by
  have htake : (files.take 206).length = 206 := List.length_take_of_le hmany.le
  rw [← List.take_append_drop 206 files, build_append] at h
  obtain ⟨img₁, hbuild, hrest⟩ := Option.bind_eq_some_iff.mp h
  obtain ⟨s, hbuilt⟩ := built_of_build hbuild (by rw [htake]; decide)
  have hused := hbuilt.freeblock
  have hroot : blocks (rootBytes (files.take 206)).length = 7 := by
    rw [length_rootBytes, htake]
    rfl
  have hmeta : nmeta = 59 := rfl
  rw [contents, used, List.map_cons, List.sum_cons, hroot] at hused
  have hle := (Img.takes_addFiles hrest).2
  dsimp only at hle
  omega

theorem hole_of_many (h : mkfs files = some img) (hmany : 206 < files.length) :
    ¬NoHoles (layoutFor (files.length + 2)) (mount (layoutFor (files.length + 2)).inodes img) := by
  obtain ⟨img₀, hbuild, -, hfree, hlt, hsector⟩ := of_mkfs h
  have hmin := freeblock_of_many hbuild hmany
  have hused := hlt.le
  have hin : 208 < (layoutFor (files.length + 2)).inodes := by
    have hle : files.length + 2 ≤ (layoutFor (files.length + 2)).inodes := le_max_right _ _
    omega
  have hwords : ∀ k : Fin 16, img.dinode 208 k = Img.bitmap img.freeblock ⟨k.val, by omega⟩ := by
    intro k
    have hblock : img.dinode 208 = .ofBlock (img.sector bmapstart) 208 := rfl
    rw [hblock, hsector]
    exact congrArg (Img.bitmap img.freeblock) (Fin.ext (by dsimp only; omega))
  have hdinode : (mount (layoutFor (files.length + 2)).inodes img).dinode 208 =
      (img.dinode 208).decode := if_pos hin
  have htype : (img.dinode 208).decode.type ≠ .free := by
    have hfull : (img.dinode 208 0).toNat = 2 ^ 32 - 1 := by
      rw [hwords]
      exact word_bitmap_full hused (by decide) (by omega)
    rw [DinodeWords.decode, hfull]
    dsimp only
    decide
  have hsize : (img.dinode 208).decode.size = (Img.bitmap img.freeblock ⟨2, by decide⟩).toNat :=
    congrArg UInt32.toNat (hwords 2)
  intro hno
  have hdisk := hno.disk 208 hin
  rw [hdinode] at hdisk
  rcases Nat.lt_or_ge 96 img.freeblock with hbig | hsmall
  · -- The size is the largest of all, and there is no block of that number.
    refine hdisk htype MAXFILE ?_ ?_
    · rw [hsize, word_bitmap_full hused (by decide) (by omega)]
      decide
    · rw [Dinode.at, if_neg (by decide)]
      split
      · rfl
      · rw [word, dif_neg (by decide)]
  · -- The inode has a size, and no first block.
    refine hdisk htype 0 ?_ ?_
    · rw [hsize, Nat.zero_mul]
      exact word_bitmap_pos hused (by decide) (by omega)
    · have hzero := word_bitmap_zero (w := 3) hused (by decide) hsmall
      rw [Dinode.at, if_pos (by decide)]
      change (img.dinode 208).addr 0 = 0
      rw [DinodeWords.addr, dif_pos (by decide), hwords]
      exact hzero

section

variable (h : mkfs files = some img) (hroom : files.length + 1 < layout.inodes)
include h hroom

theorem root_at (bn : ℕ) :
    ((mount layout.inodes img).dinode ROOTINO).at (mount layout.inodes img).block (slotOf bn) ≠ 0 ↔
      bn * BSIZE < 16 * (files.length + 2) := by
  obtain ⟨img₀, s, hbuilt, hmount, hrefs⟩ := refAt_mount h hroom
  have hroot := hbuilt.root
  have hblocks := hroot.blocks bn
  rw [length_rootBytes, ← hrefs] at hblocks
  rw [← hblocks, refAt]
  have htype : ((mount layout.inodes img).dinode ROOTINO).type ≠ .free := by
    rw [hmount]
    dsimp only
    rw [Function.update_self]
    rw [hroot.type_eq]
    simp
  have hlt : ROOTINO < layout.inodes := by decide
  simp [htype, hlt]

theorem hole_of_full (hfull : (files.length + 2) % 32 = 0) :
    ¬NoHoles layout (mount layout.inodes img) := by
  intro hno
  have hdisk := hno.disk ROOTINO (by decide) (by rw [root_type h hroom]; nofun)
    ((files.length + 2) / 32)
  rw [root_size h hroom, root_at h hroom] at hdisk
  simp only [rounded, BSIZE] at hdisk
  omega

theorem mounted_mkfs (hfull : (files.length + 2) % 32 ≠ 0) :
    Mounted layout (mount layout.inodes img) := by
  obtain ⟨img₀, s, hbuilt, hmount⟩ := mount_mkfs h hroom
  have hroot := hbuilt.root
  rw [hmount]
  refine ⟨hbuilt.wf.sound.resize rfl ?_ fun bn hbn => (hroot.blocks bn).mpr ?_, fun _ => rfl⟩
  · have hinodes : layout.inodes = 208 := rfl
    simp only [rounded, MAXFILE, BSIZE, NDIRECT, Inode.NINDIRECT]
    omega
  · rw [length_rootBytes]
    simp only [rounded, BSIZE] at *
    omega

end

/-- **No holes.** In every run of the calls of the kernel from an image that `mkfs` has written, every
inode has its blocks up to its size, and `readi` changes nothing: if and only if there are at most
206 files, whose inodes are in the inode blocks, and the entries of the root directory do not fill
its blocks. -/
theorem mkfs_no_holes (h : mkfs files = some img) :
    (∀ s, Reach (machine (layoutFor (files.length + 2))
        (· = mount (layoutFor (files.length + 2)).inodes img)) anyStep s →
      NoHoles (layoutFor (files.length + 2)) s) ↔
    files.length ≤ 206 ∧ (files.length + 2) % 32 ≠ 0 := by
  constructor
  · intro hall
    have hmount := hall _ (.init rfl)
    have hle : files.length ≤ 206 := by
      by_contra hmany
      exact hole_of_many h (by omega) hmount
    refine ⟨hle, fun hfull => ?_⟩
    have hroom : files.length + 2 ≤ layout.inodes := (Nat.add_le_add_right hle 2).trans (by decide)
    rw [layoutFor_of_le hroom] at hmount
    exact hole_of_full h hroom hfull hmount
  · rintro ⟨hle, hfull⟩ s hs
    have hroom : files.length + 2 ≤ layout.inodes := (Nat.add_le_add_right hle 2).trans (by decide)
    rw [layoutFor_of_le hroom] at hs ⊢
    obtain ⟨v, hv⟩ := Inode.inv_of_reach (fun s hs => hs ▸ mounted_mkfs h hroom hfull) hs
    exact noHoles_of_inv hv

/-- An image without files. -/
theorem mkfs_no_holes_none : ∃ img, mkfs [] = some img ∧
    ∀ s, Reach (machine (layoutFor 2) (· = mount (layoutFor 2).inodes img)) anyStep s →
      NoHoles (layoutFor 2) s := by
  obtain ⟨img, h⟩ : ∃ img, mkfs [] = some img := mkfs_accepts nofun (by decide)
    (fits_replicate (n := 0) (f := emptyFile [97] (by decide)) rfl (Nat.zero_le _))
  exact ⟨img, h, (mkfs_no_holes h).mpr ⟨by decide, by decide⟩⟩

/-- Thirty files: the entries of the root directory fill a block, and the directory has a second
one by its size that it has no block for. -/
theorem mkfs_makes_hole : ∃ img,
    mkfs (List.replicate 30 (emptyFile [97] (by decide))) = some img ∧
      ((mount layout.inodes img).dinode ROOTINO).size = 1024 ∧
      ((mount layout.inodes img).dinode ROOTINO).at (mount layout.inodes img).block (slotOf 1) = 0 ∧
      ¬NoHoles layout (mount layout.inodes img) := by
  obtain ⟨img, h⟩ : ∃ img, mkfs (List.replicate 30 (emptyFile [97] (by decide))) = some img := by
    refine mkfs_accepts (fun f hf => ?_) (by rw [List.length_replicate]; decide)
      (fits_replicate rfl (by decide))
    rw [List.eq_of_mem_replicate hf]
    exact ⟨by decide, by decide⟩
  have hroom : (List.replicate 30 (emptyFile [97] (by decide))).length + 1 < layout.inodes := by
    rw [List.length_replicate]
    decide
  refine ⟨img, h, ?_, ?_, hole_of_full h hroom (by rw [List.length_replicate])⟩
  · rw [root_size h hroom, List.length_replicate]
    rfl
  · by_contra hne
    have hlt := (root_at h hroom 1).mp hne
    rw [List.length_replicate] at hlt
    exact absurd hlt (by decide)

end KThreads.Mkfs
