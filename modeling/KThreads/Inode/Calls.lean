import KThreads.Log.Calls

/-!
# Inodes and their blocks

`ialloc`, `iget`, `idup`, `ilock`, `iput`, `bmap`, `itrunc`, `readi` and `writei`, one call
after the other. A panic has no next state. The buffer cache and the log are not seen
here: a block is what was last written to it. The caller of a call owns a reference to the
inode, and locks it for `readi`, `writei` and `itrunc`.
-/

namespace KThreads.Inode

open Function (update)
open Log (Data)

/-- The bytes of a block. -/
def BSIZE : ℕ := 512

def NDIRECT : ℕ := 12

def NINDIRECT : ℕ := 128

def MAXFILE : ℕ := NDIRECT + NINDIRECT

/-- The entries of the inode cache. -/
def NINODE : ℕ := 50

instance : NeZero NINODE := ⟨by decide⟩

/-- The type of an inode, with `free` for 0. -/
inductive FileType
  | free
  | dir
  | file
  | dev
  deriving DecidableEq

/-- `struct dinode`. The entry `NDIRECT` of `addrs` is the indirect block. -/
structure Dinode where
  type : FileType
  major : ℤ
  minor : ℤ
  nlink : ℤ
  size : ℕ
  addrs : ℕ → ℕ

/-- `ip->addrs[k] = a` -/
def Dinode.setAddr (d : Dinode) (k a : ℕ) : Dinode := { d with addrs := update d.addrs k a }

@[simp] theorem Dinode.setAddr_addrs (d : Dinode) (k a : ℕ) :
    (d.setAddr k a).addrs = update d.addrs k a := rfl

/-- `struct inode`. -/
structure Entry where
  inum : ℕ
  ref : ℕ
  valid : Bool
  din : Dinode

/-- What the superblock says. -/
structure Layout where
  /-- The number of the blocks -/
  size : ℕ
  /-- The first data block -/
  data : ℕ
  ninodes : ℕ
  /-- The inodes for which there is room; those from `ninodes` on are never allocated. -/
  inodes : ℕ
  data_pos : 0 < data
  size_le : size ≤ 2 ^ 32
  ninodes_le : ninodes ≤ inodes

/-- A block of the data. -/
def Layout.IsData (L : Layout) (b : ℕ) : Prop := L.data ≤ b ∧ b < L.size

instance (L : Layout) (b : ℕ) : Decidable (L.IsData b) := inferInstanceAs (Decidable (_ ∧ _))

abbrev Slot := Fin NINODE

/-- The bitmap, the inodes on the disk, the blocks, and the inode cache. -/
structure State where
  bit : ℕ → Bool
  dinode : ℕ → Dinode
  block : ℕ → Data
  entry : Slot → Entry

/-- A word of a block. -/
def word (d : Data) (j : ℕ) : ℕ := if h : j < 128 then (d ⟨j, h⟩).toNat else 0

def setWord (d : Data) (j a : ℕ) : Data := fun w => if w.val = j then .ofNat a else d w

/-- A byte of a word. -/
def byteOf (x : UInt32) (i : ℕ) : UInt8 := (x >>> (8 * i).toUInt32).toUInt8

/-- A byte of a block. -/
def byteAt (d : Data) (x : ℕ) : UInt8 := if h : x / 4 < 128 then byteOf (d ⟨x / 4, h⟩) (x % 4) else 0

/-- The `m` bytes of a block from the byte `start` on. -/
def copyOut (d : Data) (start m : ℕ) : List UInt8 := (List.range m).map fun i => byteAt d (start + i)

/-- Copy `m` bytes to a block, from the byte `start` on. -/
def copyIn (d : Data) (start m : ℕ) (src : ℕ → UInt8) : Data := fun w =>
  let byte (i : ℕ) : UInt32 :=
    let p := 4 * w.val + i
    (if start ≤ p ∧ p < start + m then src (p - start) else byteOf (d w) i).toUInt32
  byte 0 ||| byte 1 <<< 8 ||| byte 2 <<< 16 ||| byte 3 <<< 24

namespace State

variable (L : Layout) (s : State) (e : Slot)

def setEntry (q : Entry) : State := { s with entry := update s.entry e q }

/-- Change the copy of the inode in the cache. -/
def setDin (d : Dinode) : State := s.setEntry e { s.entry e with din := d }

def setAddr (k a : ℕ) : State := s.setDin e ((s.entry e).din.setAddr k a)

/-- The bit of a free block is set, and the block is zeroed. -/
def balloc : Option (State × ℕ) :=
  ((List.range L.size).find? fun b => !s.bit b).map fun b =>
    ({ s with bit := update s.bit b true, block := update s.block b fun _ => 0 }, b)

def bfree (b : ℕ) : Option State :=
  if s.bit b then some { s with bit := update s.bit b false } else none

/-- Copy the inode from the cache to the disk. -/
def iupdate : State :=
  { s with dinode := update s.dinode (s.entry e).inum (s.entry e).din }

/-- The block that an address names; if it names none, one is allocated and put there. -/
def grab (a : ℕ) (put : State → ℕ → State) : Option (State × ℕ) :=
  if a = 0 then (s.balloc L).map fun x => (put x.1 x.2, x.2) else some (s, a)

/-- The block of an inode with the number `bn`, which is allocated if there is none. -/
def bmap (bn : ℕ) : Option (State × ℕ) :=
  let d := (s.entry e).din
  if bn < NDIRECT then s.grab L (d.addrs bn) fun s a => s.setAddr e bn a
  else if bn - NDIRECT < NINDIRECT then
    (s.grab L (d.addrs NDIRECT) fun s a => s.setAddr e NDIRECT a).bind fun x =>
      x.1.grab L (word (x.1.block x.2) (bn - NDIRECT)) fun s a =>
        { s with block := update s.block x.2 (setWord (s.block x.2) (bn - NDIRECT) a) }
  else none

/-- Free the blocks of a list of addresses. -/
def bfreeAll : State → List ℕ → Option State
  | s, [] => some s
  | s, a :: as => (if a = 0 then some s else s.bfree a).bind fun s => bfreeAll s as

/-- Discard the contents of an inode. -/
def itrunc : Option State :=
  let d := (s.entry e).din
  (s.bfreeAll ((List.range NDIRECT).map d.addrs)).bind fun s =>
    (if d.addrs NDIRECT = 0 then some s
      else (s.bfreeAll ((List.range NINDIRECT).map (word (s.block (d.addrs NDIRECT))))).bind fun s =>
        s.bfree (d.addrs NDIRECT)).map fun s =>
      let addrs k := if k ≤ NDIRECT then 0 else d.addrs k
      (s.setDin e { d with addrs, size := 0 }).iupdate e

/-- The first entry with a property. -/
def findEntry (p : Entry → Bool) : Option Slot := (List.finRange NINODE).find? fun e => p (s.entry e)

/-- Find the inode in the cache, or use a free entry for it. -/
def iget (inum : ℕ) : Option (State × Slot) :=
  match s.findEntry fun q => decide (0 < q.ref ∧ q.inum = inum) with
  | some e => some (s.setEntry e { s.entry e with ref := (s.entry e).ref + 1 }, e)
  | none =>
      (s.findEntry fun q => q.ref = 0).map fun e =>
        (s.setEntry e { s.entry e with inum, ref := 1, valid := false }, e)

def idup : State := s.setEntry e { s.entry e with ref := (s.entry e).ref + 1 }

/-- The inode is read from the disk if it is not valid. -/
def ilock : Option State :=
  let q := s.entry e
  if q.valid then some s
  else if (s.dinode q.inum).type = .free then none
  else some (s.setEntry e { q with valid := true, din := s.dinode q.inum })

/-- Drop a reference; an inode without links is freed with the last one. -/
def iput : Option State :=
  let q := s.entry e
  (if q.valid ∧ q.din.nlink = 0 ∧ q.ref = 1 then
      (s.itrunc e).map fun s =>
        let s := (s.setDin e { (s.entry e).din with type := .free }).iupdate e
        s.setEntry e { s.entry e with valid := false }
    else some s).map fun s => s.setEntry e { s.entry e with ref := (s.entry e).ref - 1 }

/-- Allocate an inode: the first free one is cleared and given its type. -/
def ialloc (type : FileType) : Option (State × Slot) :=
  ((List.range' 1 (L.ninodes - 1)).find? fun i => (s.dinode i).type = .free).bind fun i =>
    iget { s with dinode := update s.dinode i ⟨type, 0, 0, 0, 0, fun _ => 0⟩ } i

/-- What the loops of `readi` and `writei` have in common: `left` is what is left to copy, and
`copies i` says whether the copy number `i` succeeds. The result has the offset behind the
last copy, and whether all have succeeded. -/
def copyLoop {α : Type} (put : State → α → ℕ → ℕ → ℕ → State × α) (copies : ℕ → Bool) :
    ℕ → State → α → ℕ → ℕ → ℕ → Option (State × α × ℕ × Bool)
  | 0, s, acc, off, _, _ => some (s, acc, off, true)
  | fuel + 1, s, acc, off, left, i =>
      if left = 0 then some (s, acc, off, true)
      else (s.bmap L e (off / BSIZE)).bind fun x =>
        let m := min left (BSIZE - off % BSIZE)
        if copies i then
          let y := put x.1 acc x.2 off m
          copyLoop put copies fuel y.1 y.2 (off + m) (left - m) (i + 1)
        else some (x.1, acc, off, false)

/-- Read from an inode; `r` is the result of a device. The bytes are those that were copied. -/
def readi (off n : UInt32) (copies : ℕ → Bool) (r : ℤ) : Option (State × ℤ × List UInt8) :=
  let d := (s.entry e).din
  if d.type = .dev then some (s, r, [])
  else if d.size < off.toNat ∨ off + n < off then some (s, -1, [])
  else
    let n := if d.size < off.toNat + n.toNat then d.size - off.toNat else n.toNat
    let put (s : State) (acc : List UInt8) (a o m : ℕ) : State × List UInt8 :=
      (s, acc ++ copyOut (s.block a) (o % BSIZE) m)
    (copyLoop L e put copies n s [] off.toNat n 0).map fun x =>
      (x.1, if x.2.2.2 then n else -1, x.2.1)

/-- Write to an inode. -/
def writei (src : ℕ → UInt8) (off n : UInt32) (copies : ℕ → Bool) (r : ℤ) : Option (State × ℤ) :=
  let d := (s.entry e).din
  if d.type = .dev then some (s, r)
  else if d.size < off.toNat ∨ off + n < off then some (s, -1)
  else if MAXFILE * BSIZE < off.toNat + n.toNat then some (s, -1)
  else
    let put (s : State) (_ : Unit) (a o m : ℕ) : State × Unit :=
      ({ s with
        block := update s.block a
          (copyIn (s.block a) (o % BSIZE) m fun i => src (o - off.toNat + i)) }, ())
    (copyLoop L e put copies n.toNat s () off.toNat n.toNat 0).map fun x =>
      if x.2.2.2 = false then (x.1, -1)
      else if 0 < n.toNat ∧ d.size < x.2.2.1 then
        ((x.1.setDin e { (x.1.entry e).din with size := x.2.2.1 }).iupdate e, n.toNat)
      else (x.1, n.toNat)

end State

/-- The calls. -/
inductive Label
  | ialloc (type : FileType)
  | iget (inum : ℕ)
  | idup (e : Slot)
  | iput (e : Slot)
  | itrunc (e : Slot)
  | readi (e : Slot) (off n : UInt32) (copies : ℕ → Bool) (r : ℤ)
  | writei (e : Slot) (src : ℕ → UInt8) (off n : UInt32) (copies : ℕ → Bool) (r : ℤ)
  /-- What `link`, `unlink` and `create` do to an inode. -/
  | relink (e : Slot) (nlink : ℤ)

namespace State

variable (L : Layout) (s : State)

/-- One call, `none` when it panics or the caller has no reference to the inode. -/
def next : Label → Option State
  | .ialloc type => if type = .free then none else (s.ialloc L type).map Prod.fst
  | .iget inum => if inum < L.inodes then (s.iget inum).map Prod.fst else none
  | .idup e => if 0 < (s.entry e).ref then some (s.idup e) else none
  | .iput e => if 0 < (s.entry e).ref then s.iput e else none
  | .itrunc e => if 0 < (s.entry e).ref then (s.ilock e).bind fun s => s.itrunc e else none
  | .readi e off n copies r =>
      if 0 < (s.entry e).ref then
        (s.ilock e).bind fun s => (s.readi L e off n copies r).map Prod.fst
      else none
  | .writei e src off n copies r =>
      if 0 < (s.entry e).ref then
        (s.ilock e).bind fun s => (s.writei L e src off n copies r).map Prod.fst
      else none
  | .relink e nlink =>
      if 0 < (s.entry e).ref then
        (s.ilock e).map fun s => (s.setDin e { (s.entry e).din with nlink }).iupdate e
      else none

end State

end KThreads.Inode
