import KThreads.Inode.Transfer

/-!
# Directories and paths

`dirlookup` reads the entries of a directory one after the other, until one has the name. `namex`
goes from one directory to the next, along the elements of a path. A path is the list of its bytes
before the terminating zero; the name of an element is the list of those that are compared.
-/

namespace KThreads.Inode

/-- The bytes of a name in a directory entry. -/
def DIRSIZ : ℕ := 14

/-- The inode of the root directory. -/
def ROOTINO : ℕ := 1

/-- Compare two strings, with zeros behind the end of a list. -/
def strncmp : List UInt8 → List UInt8 → ℕ → ℤ
  | _, _, 0 => 0
  | p, q, n + 1 =>
      if p.headD 0 ≠ 0 ∧ p.headD 0 = q.headD 0 then strncmp p.tail q.tail n
      else (p.headD 0).toNat - (q.headD 0).toNat

def namecmp (p q : List UInt8) : ℤ := strncmp p q DIRSIZ

/-- Copy a string to a field of `n` bytes, which is filled up with zeros. -/
def strncpy : List UInt8 → ℕ → List UInt8
  | _, 0 => []
  | t, n + 1 =>
      if t.headD 0 = 0 then List.replicate (n + 1) 0 else t.headD 0 :: strncpy t.tail n

/-- The next element of a path, and the path behind it. -/
def skipelem (path : List UInt8) : Option (List UInt8 × List UInt8) :=
  let path := path.dropWhile (· = 47)
  if path = [] then none
  else
    some ((path.takeWhile (· ≠ 47)).take DIRSIZ, (path.dropWhile (· ≠ 47)).dropWhile (· = 47))

/-- `de.inum`, from the bytes of an entry. -/
def direntInum (de : List UInt8) : ℕ := (de.getD 0 0).toNat + 256 * (de.getD 1 0).toNat

/-- `de.name` -/
def direntName (de : List UInt8) : List UInt8 := de.drop 2

/-- `struct dirent`: `inum`, of two bytes, and `name`. -/
def direntBytes (inum : ℕ) (name : List UInt8) : List UInt8 :=
  UInt8.ofNat inum :: UInt8.ofNat (inum / 256) :: strncpy name DIRSIZ

namespace State

variable (L : Layout) (s : State) (e : Slot)

/-- The loop of `dirlookup`, up to the entry with the name. -/
def dirlookupLoop (name : List UInt8) : ℕ → State → ℕ → Option (State × Option (ℕ × ℕ))
  | 0, s, _ => some (s, none)
  | fuel + 1, s, off =>
      if off < (s.entry e).din.size then
        (s.readi L e (.ofNat off) 16 (fun _ => true) 0).bind fun x =>
          if x.2.1 ≠ 16 then none
          else if direntInum x.2.2 = 0 then dirlookupLoop name fuel x.1 (off + 16)
          else if namecmp name (direntName x.2.2) = 0 then some (x.1, some (direntInum x.2.2, off))
          else dirlookupLoop name fuel x.1 (off + 16)
      else some (s, none)

/-- Look for an entry in a directory: its inode, and its offset. -/
def dirlookup (name : List UInt8) : Option (State × Option (Slot × ℕ)) :=
  if (s.entry e).din.type ≠ .dir then none
  else
    (dirlookupLoop L e name (s.entry e).din.size s 0).bind fun x =>
      match x.2 with
      | none => some (x.1, none)
      | some (inum, off) => (x.1.iget inum).map fun y => (y.1, some (y.2, off))

/-- The second loop of `dirlink`, up to the offset of an entry that is not in use. -/
def emptyLoop : ℕ → State → ℕ → Option (State × ℕ)
  | 0, s, off => some (s, off)
  | fuel + 1, s, off =>
      if off < (s.entry e).din.size then
        (s.readi L e (.ofNat off) 16 (fun _ => true) 0).bind fun x =>
          if x.2.1 ≠ 16 then none
          else if direntInum x.2.2 = 0 then some (x.1, off)
          else emptyLoop fuel x.1 (off + 16)
      else some (s, off)

/-- Write an entry of a directory, as `dirlink` does and, with zeros, `sys_unlink`. -/
def writeDirent (de : List UInt8) (off : ℕ) : Option State :=
  (s.writei L e (fun i => de.getD i 0) (.ofNat off) 16 (fun _ => true) 0).bind fun x =>
    if x.2 ≠ 16 then none else some x.1

/-- Add a name to a directory, which the caller has locked. -/
def dirlink (name : List UInt8) (inum : ℕ) : Option (State × ℤ) :=
  (s.dirlookup L e name).bind fun x =>
    match x.2 with
    | some (e', _) =>
        -- `iput` waits for the lock of the inode, and the caller holds that of the directory
        if e' = e then none else (x.1.iput e').map (·, -1)
    | none =>
        (emptyLoop L e (x.1.entry e).din.size x.1 0).bind fun y =>
          (y.1.writeDirent L e (direntBytes inum name) y.2).map (·, 0)

/-- What `sys_unlink` does to the directory: the entry at the offset that `dirlookup` has found is
set to zeros. The reference to the inode is left to the caller. -/
def direntClear (name : List UInt8) : Option (State × Option Slot) :=
  (s.dirlookup L e name).bind fun x =>
    match x.2 with
    | none => some (x.1, none)
    | some (e', off) => (x.1.writeDirent L e (List.replicate 16 0) off).map (·, some e')

/-- The loop of `namex`. An inode is locked, its directory is searched, and it is put. -/
def namexLoop (parent : Bool) :
    ℕ → State → Slot → List UInt8 → List UInt8 → Option (State × Option (Slot × List UInt8))
  | 0, _, _, _, _ => none
  | fuel + 1, s, e, path, name =>
      match skipelem path with
      | none => if parent then (s.iput e).map (·, none) else some (s, some (e, name))
      | some (name, path) =>
          (s.ilock e).bind fun s =>
            if (s.entry e).din.type ≠ .dir then (s.iput e).map (·, none)
            else if parent ∧ path = [] then some (s, some (e, name))
            else
              (s.dirlookup L e name).bind fun x =>
                (x.1.iput e).bind fun s =>
                  match x.2 with
                  | none => some (s, none)
                  | some y => namexLoop parent fuel s y.1 path name

/-- Look up a path, from the root or from the current directory; `parent` stops one level early. -/
def namex (cwd : Slot) (path : List UInt8) (parent : Bool) :
    Option (State × Option (Slot × List UInt8)) :=
  if path.head? = some 47 then
    (s.iget ROOTINO).bind fun x => namexLoop L parent (path.length + 1) x.1 x.2 path []
  else namexLoop L parent (path.length + 1) (s.idup cwd) cwd path []

def namei (cwd : Slot) (path : List UInt8) : Option (State × Option Slot) :=
  (s.namex L cwd path false).map fun x => (x.1, x.2.map Prod.fst)

/-- The directory of the last element, and that element. -/
def nameiparent (cwd : Slot) (path : List UInt8) : Option (State × Option (Slot × List UInt8)) :=
  s.namex L cwd path true

end State

/-- A string in a field of a fixed size: behind the first zero there are only zeros. -/
def ZeroPadded (p : List UInt8) : Prop := ∀ i j, i ≤ j → p.getD i 0 = 0 → p.getD j 0 = 0

theorem ZeroPadded.tail {p : List UInt8} (h : ZeroPadded p) : ZeroPadded p.tail := by
  cases p with
  | nil => exact h
  | cons b p => exact fun i j hij => h (i + 1) (j + 1) (Nat.succ_le_succ hij)

theorem zeroPadded_of_ne {p : List UInt8} (h : ∀ b ∈ p, b ≠ 0) : ZeroPadded p := by
  intro i j hij hi
  have hlen : p.length ≤ i := by
    by_contra hlt
    rw [List.getD_eq_getElem _ _ (Nat.not_le.mp hlt)] at hi
    exact h _ (List.getElem_mem _) hi
  exact List.getD_eq_default _ _ (hlen.trans hij)

theorem getD_tail (p : List UInt8) (i : ℕ) : p.tail.getD i 0 = p.getD (i + 1) 0 := by
  cases p <;> rfl

theorem headD_eq_getD (p : List UInt8) : p.headD 0 = p.getD 0 0 := by
  cases p <;> rfl

theorem strncmp_eq_zero {p q : List UInt8} {n : ℕ} (hp : ZeroPadded p) (hq : ZeroPadded q) :
    strncmp p q n = 0 ↔ ∀ i < n, p.getD i 0 = q.getD i 0 := by
  induction n generalizing p q with
  | zero => exact ⟨fun _ => nofun, fun _ => rfl⟩
  | succ n ih =>
    rw [strncmp, headD_eq_getD, headD_eq_getD]
    split
    · next hsame =>
      rw [ih hp.tail hq.tail]
      constructor
      · intro hall i hi
        cases i with
        | zero => exact hsame.2
        | succ i =>
          have htail := hall i (Nat.lt_of_succ_lt_succ hi)
          rwa [getD_tail, getD_tail] at htail
      · intro hall i hi
        rw [getD_tail, getD_tail]
        exact hall (i + 1) (Nat.succ_lt_succ hi)
    · next hdiffer =>
      constructor
      · intro hzero i _
        have hfirst : p.getD 0 0 = q.getD 0 0 := UInt8.toNat_inj.mp (by omega)
        have hend : p.getD 0 0 = 0 := by
          by_contra hne
          exact hdiffer ⟨hne, hfirst⟩
        rw [hp 0 i (Nat.zero_le _) hend, hq 0 i (Nat.zero_le _) (hfirst ▸ hend)]
      · intro hall
        rw [hall 0 (Nat.succ_pos _), Int.sub_self]

section

variable {L : Layout} {s : State} {v : ℕ → Dinode} {e : Slot} {name : List UInt8} {fuel k : ℕ}

/-- The bytes of the entry `k` of a directory. -/
def direntBytesAt (L : Layout) (s : State) (v : ℕ → Dinode) (e : Slot) (k : ℕ) : List UInt8 :=
  (List.range 16).map fun x => fileByte L (s.view v e) s.block (s.entry e).inum (16 * k + x)

theorem dirlookupLoop_first (hdir : (s.entry e).din.type = .dir)
    (hsize : (s.entry e).din.size ≤ MAXFILE * BSIZE) (hin : 16 * (k + 1) ≤ (s.entry e).din.size)
    (hfilled : ∀ x, x < 16 * (k + 1) → s.ref L v e (slotOf (x / BSIZE)) ≠ none)
    (hinum : direntInum (direntBytesAt L s v e k) ≠ 0)
    (hname : namecmp name (direntName (direntBytesAt L s v e k)) = 0)
    (hbefore : ∀ j < k, direntInum (direntBytesAt L s v e j) = 0 ∨
      namecmp name (direntName (direntBytesAt L s v e j)) ≠ 0)
    {j : ℕ} (hj : j ≤ k) (hfuel : k - j < fuel) :
    State.dirlookupLoop L e name fuel s (16 * j) =
      some (s, some (direntInum (direntBytesAt L s v e k), 16 * k)) := by
  have hmax : MAXFILE * BSIZE < 2 ^ 32 := by decide
  -- The entry at any place up to `k` is read.
  have hread : ∀ j ≤ k, s.readi L e (.ofNat (16 * j)) 16 (fun _ => true) 0 =
      some (s, 16, direntBytesAt L s v e j) := by
    intro j hj
    have hoff : (UInt32.ofNat (16 * j)).toNat = 16 * j := UInt32.toNat_ofNat_of_lt' (by
      show _ < 2 ^ 32
      omega)
    have hlen : (16 : UInt32).toNat = 16 := rfl
    obtain ⟨r, bytes, hread, hresult⟩ := State.readi_filled (.ofNat (16 * j)) 16 hsize
      (fun x _ hx _ => hfilled x (by rw [hoff, hlen] at hx; omega)) (fun _ => true) 0
    obtain ⟨hr, hbytes⟩ := hresult (by rw [hdir]; nofun) (by omega) (by omega) fun _ => rfl
    have hmin : min (16 : UInt32).toNat ((s.entry e).din.size - (UInt32.ofNat (16 * j)).toNat) = 16 := by
      omega
    rw [hmin] at hr hbytes
    rw [hread, hr, hbytes, hoff]
    rfl
  induction fuel generalizing j with
  | zero => omega
  | succ fuel ih =>
    rw [State.dirlookupLoop, if_pos (by omega), hread j hj, Option.bind_some]
    dsimp only
    rw [if_neg (by decide)]
    rcases hj.lt_or_eq with hlt | rfl
    · have hnext := ih (j := j + 1) hlt (by omega)
      rcases hbefore j hlt with hzero | hother
      · rw [if_pos hzero]
        exact hnext
      · rw [if_neg hother, ite_self]
        exact hnext
    · rw [if_neg hinum, if_pos hname]

end

end KThreads.Inode
