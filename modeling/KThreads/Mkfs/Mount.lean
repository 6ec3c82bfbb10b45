import KThreads.Inodes

/-!
# The image in the eyes of the kernel

The kernel finds the inodes in the sectors that `mkfs` has written them to. While `mkfs` builds
an image, the blocks below `freeblock` are those that are in use: it goes through the states
that the calls of the kernel would go through.
-/

namespace KThreads.Mkfs

open Function (update)
open Log (Data LOGSIZE)
open Inode (BSIZE NDIRECT MAXFILE word setWord byteAt copyIn)

/-- The size of the file system in blocks. -/
def FSSIZE : ℕ := 1000

def NINODES : ℕ := 200

/-- The inodes of a block. -/
def IPB : ℕ := BSIZE / 64

def DIRSIZ : ℕ := 14

def ROOTINO : ℕ := 1

def nbitmap : ℕ := FSSIZE / (BSIZE * 8) + 1

def ninodeblocks : ℕ := NINODES / IPB + 1

/-- The blocks in front of the data: boot block, superblock, log, inodes, bitmap. -/
def nmeta : ℕ := 2 + LOGSIZE + ninodeblocks + nbitmap

def inodestart : ℕ := 2 + LOGSIZE

def bmapstart : ℕ := 2 + LOGSIZE + ninodeblocks

/-- The image, and the counters `freeinode` and `freeblock`. -/
structure Img where
  sector : ℕ → Data
  /-- The sectors of the file -/
  length : ℕ
  freeinode : ℕ
  freeblock : ℕ

/-- The sector that is found at `sec * BSIZE`, which is computed with 32 bits. -/
def sectorOf (sec : ℕ) : ℕ := sec * BSIZE % 2 ^ 32 / BSIZE

/-- `struct dinode`: the type and the numbers of a device and the links share two words; then come
the size and the addresses. -/
abbrev DinodeWords := Fin 16 → UInt32

namespace DinodeWords

variable (d : DinodeWords)

def size : ℕ := (d 2).toNat

theorem three_add_lt {k : ℕ} (h : k ≤ NDIRECT) : 3 + k < 16 := by
  simp only [NDIRECT] at h
  omega

def addr (k : ℕ) : ℕ := if h : k ≤ NDIRECT then (d ⟨3 + k, three_add_lt h⟩).toNat else 0

def setSize (n : ℕ) : DinodeWords := fun w => if w.val = 2 then .ofNat n else d w

def setAddr (k a : ℕ) : DinodeWords := fun w => if w.val = 3 + k then .ofNat a else d w

/-- The inode `i` of its block. -/
def ofBlock (buf : Data) (i : ℕ) : DinodeWords := fun w =>
  buf ⟨16 * (i % 8) + w.val, by omega⟩

def toBlock (buf : Data) (i : ℕ) : Data := fun w =>
  if w.val / 16 = i % 8 then d ⟨w.val % 16, by omega⟩ else buf w

end DinodeWords

namespace Img

variable (img : Img)

def rsect (sec : ℕ) : Option Data :=
  if sectorOf sec < img.length then some (img.sector (sectorOf sec)) else none

def wsect (sec : ℕ) (buf : Data) : Img :=
  { img with
    sector := update img.sector (sectorOf sec) buf
    length := max img.length (sectorOf sec + 1) }

def rinode (inum : ℕ) : Option DinodeWords :=
  (img.rsect (inum / IPB + inodestart)).map fun buf => .ofBlock buf inum

def winode (inum : ℕ) (d : DinodeWords) : Option Img :=
  (img.rsect (inum / IPB + inodestart)).map fun buf =>
    img.wsect (inum / IPB + inodestart) (d.toBlock buf inum)

/-- The next inode, with one link. -/
def ialloc (type : UInt32) : Option (Img × ℕ) :=
  let inum := img.freeinode
  let din : DinodeWords := fun w => if w.val = 0 then type else if w.val = 1 then 65536 else 0
  (winode { img with freeinode := img.freeinode + 1 } inum din).map fun img => (img, inum)

/-- `freeblock++` -/
def bump : Img := { img with freeblock := img.freeblock + 1 }

/-- `if(xint(din.addrs[k]) == 0) din.addrs[k] = xint(freeblock++)` -/
def enter (din : DinodeWords) (k : ℕ) : Img × DinodeWords :=
  if din.addr k = 0 then (img.bump, din.setAddr k img.freeblock) else (img, din)

/-- The same for the entry `j` of the indirect block `a`, which is written back. -/
def enterWord (a j : ℕ) : Option (Img × ℕ) :=
  (img.rsect a).map fun indirect =>
    if word indirect j = 0 then
      let indirect := setWord indirect j img.freeblock
      (img.bump.wsect a indirect, word indirect j)
    else (img, word indirect j)

/-- The block of an inode with the number `fbn`. -/
def blockOf (din : DinodeWords) (fbn : ℕ) : Option (Img × DinodeWords × ℕ) :=
  if fbn < NDIRECT then
    let x := img.enter din fbn
    some (x.1, x.2, x.2.addr fbn)
  else
    let x := img.enter din NDIRECT
    (x.1.enterWord (x.2.addr NDIRECT) (fbn - NDIRECT)).map fun y => (y.1, x.2, y.2)

/-- The loop of `iappend`: `left` bytes are left, and `done` were written. -/
def appendLoop (p : ℕ → UInt8) :
    ℕ → Img → DinodeWords → ℕ → ℕ → ℕ → Option (Img × DinodeWords × ℕ)
  | 0, img, din, off, _, _ => some (img, din, off)
  | fuel + 1, img, din, off, left, done =>
      if left = 0 then some (img, din, off)
      else if off / BSIZE < MAXFILE then
        (img.blockOf din (off / BSIZE)).bind fun x =>
          let m := min left ((off / BSIZE + 1) * BSIZE - off)
          (x.1.rsect x.2.2).bind fun buf =>
            let buf := copyIn buf (off - off / BSIZE * BSIZE) m fun i => p (done + i)
            appendLoop p fuel (x.1.wsect x.2.2 buf) x.2.1 (off + m) (left - m) (done + m)
      -- `assert(fbn < MAXFILE)`
      else none

/-- Append bytes to an inode. -/
def iappend (inum : ℕ) (p : List UInt8) : Option Img :=
  (img.rinode inum).bind fun din =>
    (appendLoop (fun i => p.getD i 0) p.length img din din.size p.length 0).bind fun x =>
      x.1.winode inum (x.2.1.setSize x.2.2)

/-- A block with the first `used` bits set. -/
def bitmap (used : ℕ) : Data :=
  (List.range used).foldl (fun buf i =>
    copyIn buf (i / 8) 1 fun _ => byteAt buf (i / 8) ||| 1 <<< (i % 8).toUInt8) fun _ => 0

/-- `balloc(freeblock)` -/
def balloc : Option Img :=
  if img.freeblock < BSIZE * 8 then some (img.wsect bmapstart (bitmap img.freeblock)) else none

/-- The size of the root directory is rounded. -/
def fixSize (inum : ℕ) : Option Img :=
  (img.rinode inum).bind fun din => img.winode inum (din.setSize ((din.size / BSIZE + 1) * BSIZE))

end Img

/-- `strncpy(de.name, name, DIRSIZ)`, where `de.name` is filled with zeros. -/
def padded (name : List UInt8) : List UInt8 := (List.range DIRSIZ).map fun i => name.getD i 0

/-- `struct dirent` -/
def dirent (inum : ℕ) (name : List UInt8) : List UInt8 :=
  [inum.toUInt8, (inum / 256).toUInt8] ++ padded name

/-- A file of the host; `pieces` is what the calls of `read` return. -/
structure HostFile where
  name : List UInt8
  pieces : List (List UInt8)
  name_ne : ∀ b ∈ name, b ≠ 0
  pieces_pos : ∀ p ∈ pieces, 0 < p.length ∧ p.length ≤ BSIZE

/-- The contents of a file. -/
def HostFile.bytes (f : HostFile) : List UInt8 := f.pieces.flatten

/-- The name without a leading underscore. -/
def HostFile.stripped (f : HostFile) : List UInt8 :=
  match f.name with
  | 95 :: name => name
  | name => name

namespace Img

/-- One round of the loop of `main`. -/
def addFile (img : Img) (rootino : ℕ) (f : HostFile) : Option Img :=
  -- `assert(index(argv[i], '/') == 0)`, and `open` of an empty path
  if 47 ∈ f.name ∨ f.name = [] then none
  else (img.ialloc 2).bind fun x =>
    (x.1.iappend rootino (dirent x.2 f.stripped)).bind fun img =>
      f.pieces.foldlM (fun img p => img.iappend x.2 p) img

/-- The superblock. -/
def superblock : Data := fun w =>
  ([FSSIZE, FSSIZE - nmeta, NINODES, LOGSIZE, 2, inodestart, bmapstart].getD w.val 0).toUInt32

/-- The image after the loop that writes `FSSIZE` sectors of zeros. -/
def blank : Img := ⟨fun _ _ => 0, FSSIZE, 1, nmeta⟩

end Img

/-- The files are added to an image with a root directory. -/
def build (files : List HostFile) : Option Img :=
  ((Img.blank.wsect 1 Img.superblock).ialloc 1).bind fun x =>
    -- `assert(rootino == ROOTINO)`
    if x.2 = ROOTINO then
      (x.1.iappend x.2 (dirent x.2 [46])).bind fun img =>
        (img.iappend x.2 (dirent x.2 [46, 46])).bind fun img =>
          files.foldlM (fun img f => img.addFile x.2 f) img
    else none

/-- `main` -/
def mkfs (files : List HostFile) : Option Img :=
  (build files).bind fun img => (img.fixSize ROOTINO).bind Img.balloc

open Function (update update_of_ne update_self)
open Log (Data)
open Inode (BSIZE NDIRECT FileType Dinode Layout State Locked byteAt)

/-- What the superblock says. -/
def layout : Layout where
  size := FSSIZE
  data := nmeta
  ninodes := NINODES
  inodes := ninodeblocks * IPB
  data_pos := by decide
  size_le := by decide
  ninodes_le := by decide

/-- A `short`. -/
def short (n : ℕ) : ℤ := if n < 32768 then n else n - 65536

/-- `T_DIR` is 1, `T_FILE` is 2, and `T_DEV` is 3. -/
def fileType : ℕ → FileType
  | 0 => .free
  | 1 => .dir
  | 3 => .dev
  | _ => .file

theorem neZero_words : NeZero 16 := ⟨by decide⟩

def DinodeWords.decode (d : DinodeWords) : Dinode :=
  haveI := neZero_words
  { type := fileType ((d 0).toNat % 65536)
    major := short ((d 0).toNat / 65536)
    minor := short ((d 1).toNat % 65536)
    nlink := short ((d 1).toNat / 65536)
    size := d.size
    addrs := d.addr }

/-- The words of an inode in the image. -/
def Img.dinode (img : Img) (i : ℕ) : DinodeWords :=
  .ofBlock (img.sector (i / IPB + inodestart)) i

/-- An inode that was never allocated. -/
def noInode : Dinode := ⟨.free, 0, 0, 0, 0, fun _ => 0⟩

/-- The file system that the kernel finds, with the inodes below a number. -/
def mount (inodes : ℕ) (img : Img) : State where
  bit b := decide (b < FSSIZE) && (byteAt (img.sector bmapstart) (b / 8)).toNat.testBit (b % 8)
  dinode i := if i < inodes then (img.dinode i).decode else noInode
  block b := if b < nmeta then fun _ => 0 else img.sector b
  entry _ := ⟨0, 0, false, noInode⟩

/-- A state of the kernel that has the files of an image that is being built. -/
structure Sim (img : Img) (s : State) : Prop where
  length : img.length = FSSIZE
  nmeta_le : nmeta ≤ img.freeblock
  le_size : img.freeblock ≤ FSSIZE
  fresh : ∀ b, img.freeblock ≤ b → img.sector b = fun _ => 0
  bit : s.bit = fun b => decide (b < img.freeblock)
  block : s.block = fun b => if b < nmeta then fun _ => 0 else img.sector b
  dinode : s.dinode = fun i => if i < layout.inodes then (img.dinode i).decode else noInode

variable {img img' : Img} {s s' : State} {v : ℕ → Dinode} {d din : DinodeWords} {a b i j k n x : ℕ}

theorem sectorOf_of_le (h : b ≤ FSSIZE) : sectorOf b = b := by
  simp only [sectorOf, BSIZE, FSSIZE] at *
  omega

theorem Img.rsect_of_lt (hlength : img.length = FSSIZE) (h : b < FSSIZE) :
    img.rsect b = some (img.sector b) := by
  rw [Img.rsect, sectorOf_of_le h.le, hlength, if_pos h]

theorem Img.rsect_eq_none (hlength : img.length = FSSIZE) : img.rsect FSSIZE = none := by
  rw [Img.rsect, sectorOf_of_le le_rfl, hlength, if_neg (lt_irrefl _)]

theorem Img.wsect_of_lt (hlength : img.length = FSSIZE) (h : b < FSSIZE) (buf : Data) :
    img.wsect b buf = { img with sector := update img.sector b buf } := by
  rw [Img.wsect, sectorOf_of_le h.le, hlength, max_eq_left h, ← hlength]

theorem DinodeWords.addr_setAddr (hk : k ≤ NDIRECT) (ha : a < 2 ^ 32) :
    (d.setAddr k a).addr = update d.addr k a := by
  funext j
  rw [DinodeWords.addr]
  by_cases hj : j = k
  · subst hj
    rw [dif_pos hk, update_self, DinodeWords.setAddr, if_pos rfl, UInt32.toNat_ofNat']
    exact Nat.mod_eq_of_lt ha
  · rw [update_of_ne hj, DinodeWords.addr]
    split
    · rw [DinodeWords.setAddr, if_neg (by dsimp only; omega)]
    · rfl

theorem DinodeWords.decode_setAddr (hk : k ≤ NDIRECT) (ha : a < 2 ^ 32) :
    (d.setAddr k a).decode = d.decode.setAddr k a := by
  have hlow : ∀ w : Fin 16, w.val < 3 → d.setAddr k a w = d w := fun w hw => if_neg (by omega)
  rw [DinodeWords.decode, addr_setAddr hk ha, hlow 0 (by decide), hlow 1 (by decide),
    DinodeWords.size, hlow 2 (by decide)]
  rfl

theorem DinodeWords.decode_setSize (hn : n < 2 ^ 32) :
    (d.setSize n).decode = { d.decode with size := n } := by
  have haddr : (d.setSize n).addr = d.addr := by
    funext j
    rw [DinodeWords.addr, DinodeWords.addr]
    split
    · rw [DinodeWords.setSize, if_neg (by dsimp only; omega)]
    · rfl
  have hsize : (d.setSize n).size = n := by
    have hword : d.setSize n 2 = .ofNat n := rfl
    rw [DinodeWords.size, hword, UInt32.toNat_ofNat']
    exact Nat.mod_eq_of_lt hn
  rw [DinodeWords.decode, haddr, hsize]
  rfl

theorem DinodeWords.ofBlock_toBlock (buf : Data) :
    DinodeWords.ofBlock (d.toBlock buf i) j =
      if j % 8 = i % 8 then d else DinodeWords.ofBlock buf j := by
  funext w
  have hdiv : (16 * (j % 8) + w.val) / 16 = j % 8 := by omega
  have hmod : (16 * (j % 8) + w.val) % 16 = w.val := by omega
  simp only [DinodeWords.ofBlock, DinodeWords.toBlock, hdiv, hmod]
  split <;> rfl

namespace Sim

theorem rinode (h : Sim img s) (hi : i < layout.inodes) :
    img.rinode i = some (img.dinode i) ∧ s.dinode i = (img.dinode i).decode := by
  have hlt : i / IPB + inodestart < FSSIZE := by
    simp only [layout, ninodeblocks, NINODES, IPB, BSIZE, inodestart, Log.LOGSIZE, Log.MAXOPBLOCKS,
      FSSIZE] at *
    omega
  rw [Img.rinode, Img.rsect_of_lt h.length hlt, h.dinode]
  exact ⟨rfl, if_pos hi⟩

theorem winode (h : Sim img s) (hi : i < layout.inodes) (d : DinodeWords) :
    ∃ img', img.winode i d = some img' ∧ img'.freeblock = img.freeblock ∧
      img'.freeinode = img.freeinode ∧
      Sim img' { s with dinode := update s.dinode i d.decode } := by
  have hmeta : i / IPB + inodestart < nmeta := by
    simp only [layout, ninodeblocks, NINODES, IPB, BSIZE, inodestart, Log.LOGSIZE, Log.MAXOPBLOCKS,
      nmeta] at *
    omega
  have hlt : i / IPB + inodestart < FSSIZE := hmeta.trans (by decide)
  let buf := d.toBlock (img.sector (i / IPB + inodestart)) i
  have hwrite : img.winode i d =
      some { img with sector := update img.sector (i / IPB + inodestart) buf } := by
    rw [Img.winode, Img.rsect_of_lt h.length hlt, Option.map_some, Img.wsect_of_lt h.length hlt]
  refine ⟨_, hwrite, rfl, rfl, h.length, h.nmeta_le, h.le_size, fun b hb => ?_, h.bit, ?_, ?_⟩
  · have hne : b ≠ i / IPB + inodestart := by
      have hle := h.nmeta_le
      dsimp only at hb
      omega
    exact (update_of_ne hne _ _).trans (h.fresh b hb)
  · dsimp only
    rw [h.block]
    funext b
    split
    · rfl
    · next hb => exact (update_of_ne (by omega) _ _).symm
  · dsimp only
    rw [h.dinode]
    funext j
    by_cases hj : j = i
    · simp only [hj, update_self, if_pos hi, Img.dinode, buf, DinodeWords.ofBlock_toBlock,
        if_true]
    · rw [update_of_ne hj]
      split
      · congr 1
        simp only [Img.dinode]
        by_cases hblock : j / IPB + inodestart = i / IPB + inodestart
        · have hmod : j % 8 ≠ i % 8 := by
            simp only [IPB, BSIZE] at hblock
            omega
          rw [hblock, update_self, DinodeWords.ofBlock_toBlock, if_neg hmod]
        · rw [update_of_ne hblock]
      · rfl

theorem balloc (h : Sim img s) (hlt : img.freeblock < FSSIZE) :
    s.balloc layout = some ({ s with
      bit := update s.bit img.freeblock true
      block := update s.block img.freeblock fun _ => 0 }, img.freeblock) := by
  have hfind : (List.range layout.size).find? (fun b => !s.bit b) = some img.freeblock := by
    rw [h.bit, List.find?_range_eq_some]
    exact ⟨by simp, List.mem_range.mpr hlt, fun j hj => by simpa using hj⟩
  rw [State.balloc, hfind]
  rfl

theorem bump (h : Sim img s) (hlt : img.freeblock < FSSIZE) :
    Sim img.bump { s with
      bit := update s.bit img.freeblock true
      block := update s.block img.freeblock fun _ => 0 } where
  length := h.length
  nmeta_le := h.nmeta_le.trans (Nat.le_succ _)
  le_size := hlt
  fresh b hb := h.fresh b ((Nat.le_succ _).trans hb)
  bit := by
    rw [h.bit]
    funext b
    by_cases hb : b = img.freeblock
    · simp [hb, Img.bump]
    · dsimp only
      rw [update_of_ne hb, decide_eq_decide]
      dsimp only [Img.bump]
      omega
  block := by
    dsimp only
    rw [h.block]
    funext b
    by_cases hb : b = img.freeblock
    · subst hb
      rw [update_self, if_neg (Nat.not_lt.mpr h.nmeta_le)]
      exact (h.fresh _ le_rfl).symm
    · rw [update_of_ne hb]
      rfl
  dinode := h.dinode

theorem wsect (h : Sim img s) (hmeta : nmeta ≤ x) (hx : x < img.freeblock) (buf : Data) :
    Sim (img.wsect x buf) { s with block := update s.block x buf } := by
  rw [Img.wsect_of_lt h.length (hx.trans_le h.le_size)]
  refine ⟨h.length, h.nmeta_le, h.le_size, fun b hb => ?_, h.bit, ?_, ?_⟩
  · dsimp only at hb
    exact (update_of_ne (by omega) _ _).trans (h.fresh b hb)
  · rw [h.block]
    funext b
    by_cases hb : b = x
    · subst hb
      simp [Nat.not_lt.mpr hmeta]
    · simp [hb]
  · rw [h.dinode]
    funext i
    split
    · next hi =>
      have hne : i / IPB + inodestart ≠ x := by
        simp only [layout, ninodeblocks, NINODES, IPB, BSIZE, inodestart, Log.LOGSIZE,
          Log.MAXOPBLOCKS, nmeta] at *
        omega
      simp only [Img.dinode, update_of_ne hne]
    · rfl

theorem of_ref (h : Sim img s) (hl : Locked layout v 0 s) (href : s.ref layout v 0 k = some a) :
    nmeta ≤ a ∧ a < img.freeblock ∧ img.rsect a = some (s.block a) := by
  obtain ⟨hmeta, hlt⟩ := hl.sound.owned.data _ _ href
  have hbit := hl.sound.owned.used _ _ href
  rw [h.bit, decide_eq_true_eq] at hbit
  refine ⟨hmeta, hbit, ?_⟩
  rw [Img.rsect_of_lt h.length hlt, h.block]
  exact congrArg some (if_neg (Nat.not_lt.mpr hmeta)).symm

end Sim

end KThreads.Mkfs
