import KThreads.Holes
import KThreads.Inode.Names

/-!
# The files of an image

The kernel looks a name up with `namei` and reads with `readi`. It finds the files of the host in
the image, with their bytes, unless a name is empty or that of the directory or its parent: the
kernel then finds the root directory. A read of the root directory comes to the hole that `mkfs`
makes when the entries fill their blocks, and panics.
-/

namespace KThreads.Mkfs

open Inode (BSIZE NDIRECT MAXFILE FileType Dinode Layout State Slot slotOf refAt fileByte ZeroPadded
  namecmp skipelem direntInum direntName direntBytesAt)

variable {img : Img} {s t : State} {e : Slot} {L : Layout} {files : List HostFile}
  {b name name' : List UInt8} {i k : ℕ}

/-- What `readi` finds. Outside of a transaction no block can be taken: `log_write` panics. -/
def within (transaction : Bool) : Layout :=
  { layout with
    size := if transaction then layout.size else 0
    size_le := by cases transaction <;> decide }

/-- An inode in the cache has some contents: every part can be read. -/
def Contains (s : State) (e : Slot) (b : List UInt8) : Prop :=
  (s.entry e).din.size = b.length ∧
    ∀ transaction off n, off.toNat ≤ b.length → off.toNat + n.toNat < 2 ^ 32 →
      ∃ s', s.readi (within transaction) e off n (fun _ => true) 0 =
        some (s', ((((b.drop off.toNat).take n.toNat).length : ℕ) : ℤ), (b.drop off.toNat).take n.toNat)

/-- A path leads to an inode with some contents. -/
def Reads (s : State) (path : List UInt8) (inum : ℕ) (type : FileType) (b : List UInt8) : Prop :=
  ∀ cwd, ∃ s₁ e s₂, s.namei layout cwd path = some (s₁, some e) ∧ s₁.ilock e = some s₂ ∧
    (s₂.entry e).inum = inum ∧ (s₂.entry e).din.type = type ∧ Contains s₂ e b

/-- The first file with the name of a file, as far as names are compared. -/
def firstOf (files : List HostFile) (f : HostFile) : ℕ :=
  files.findIdx fun g => padded g.stripped = padded f.stripped

/-- The kernel finds the files and the entries of the root directory. -/
structure Readable (files : List HostFile) (img : Img) : Prop where
  file : ∀ f ∈ files, ∃ g, files[firstOf files f]? = some g ∧
    Reads (mount layout.inodes img) (47 :: f.stripped) (firstOf files f + 2) .file g.bytes
  root : Reads (mount layout.inodes img) [47] ROOTINO .dir (rootBytes files ++
    List.replicate (rounded (rootBytes files).length - (rootBytes files).length) 0)

theorem getD_padded : (padded name).getD i 0 = if i < DIRSIZ then name.getD i 0 else 0 := by
  rw [padded]
  split
  · next hi => simp [hi]
  · next hi => exact List.getD_eq_default _ _ (by simpa using hi)

theorem padded_eq_iff : padded name = padded name' ↔
    ∀ i < DIRSIZ, name.getD i 0 = name'.getD i 0 := by
  constructor
  · intro h i hi
    have hget : (padded name).getD i 0 = (padded name').getD i 0 := by rw [h]
    rwa [getD_padded, getD_padded, if_pos hi, if_pos hi] at hget
  · exact fun h => List.map_congr_left fun i hi => h i (List.mem_range.mp hi)

theorem eq_of_padded (hname : ∀ b ∈ name, b ≠ 0) (hname' : ∀ b ∈ name', b ≠ 0)
    (hshort : name'.length < DIRSIZ) (h : padded name = padded name') : name = name' := by
  rw [padded_eq_iff] at h
  have hle : name.length ≤ name'.length := by
    by_contra hlt
    have hend := h name'.length hshort
    rw [List.getD_eq_default _ _ le_rfl, List.getD_eq_getElem _ _ (Nat.not_le.mp hlt)] at hend
    exact hname _ (List.getElem_mem _) hend
  have hge : name'.length ≤ name.length := by
    by_contra hlt
    have hend := h name.length (by omega)
    rw [List.getD_eq_default _ _ le_rfl, List.getD_eq_getElem _ _ (Nat.not_le.mp hlt)] at hend
    exact hname' _ (List.getElem_mem _) hend.symm
  refine List.ext_getElem (le_antisymm hle hge) fun i hi hi' => ?_
  have hget := h i (by omega)
  rwa [List.getD_eq_getElem _ _ hi, List.getD_eq_getElem _ _ hi'] at hget

theorem namecmp_padded (hname : ∀ b ∈ name, b ≠ 0) (hname' : ∀ b ∈ name', b ≠ 0) :
    namecmp (name.take DIRSIZ) (padded name') = 0 ↔ padded name = padded name' := by
  have hleft : ZeroPadded (name.take DIRSIZ) :=
    Inode.zeroPadded_of_ne fun b hb => hname b (List.mem_of_mem_take hb)
  have hright : ZeroPadded (padded name') := by
    intro i j hij hi
    rw [getD_padded] at hi ⊢
    split at hi
    · rw [Inode.zeroPadded_of_ne hname' i j hij hi, ite_self]
    · next hge => rw [if_neg (by omega)]
  rw [namecmp, Inode.strncmp_eq_zero hleft hright, padded_eq_iff]
  refine forall₂_congr fun i (hi : i < DIRSIZ) => ?_
  have htake : (name.take DIRSIZ).getD i 0 = name.getD i 0 := by
    rw [List.getD_eq_getElem?_getD, List.getElem?_take_of_lt hi, ← List.getD_eq_getElem?_getD]
  rw [htake, getD_padded, if_pos hi]

theorem skipelem_root (hne : name ≠ []) (hslash : 47 ∉ name) :
    skipelem (47 :: name) = some (name.take DIRSIZ, []) := by
  have hdrop : (47 :: name).dropWhile (· = 47) = name := by
    cases name with
    | nil => rfl
    | cons c name =>
      have hc : c ≠ 47 := fun h => hslash (h ▸ List.mem_cons_self)
      rw [List.dropWhile_cons_of_pos (by decide), List.dropWhile_cons_of_neg (by simpa using hc)]
  have hall : ∀ c ∈ name, decide (c ≠ 47) = true := fun c hc =>
    decide_eq_true fun h => hslash (h ▸ hc)
  rw [skipelem, hdrop, if_neg hne, List.takeWhile_eq_self_iff.mpr hall,
    List.dropWhile_eq_nil_iff.mpr hall]
  rfl

theorem HostFile.stripped_subset (f : HostFile) : f.stripped ⊆ f.name := by
  rw [HostFile.stripped]
  split
  · next name hname =>
    rw [hname]
    exact List.subset_cons_self _ _
  · exact List.Subset.refl _

theorem getElem_numbered {n : ℕ} (hk : k < files.length) (hk' : k < (numbered n files).length) :
    (numbered n files)[k] = (n + k, files[k].stripped) := by
  induction files generalizing n k with
  | nil => cases hk
  | cons f files ih =>
    cases k with
    | zero => rfl
    | succ k =>
      have hlt : k < files.length := Nat.lt_of_succ_lt_succ hk
      have hlt' : k < (numbered (n + 1) files).length := length_numbered.symm ▸ hlt
      simp only [numbered, List.getElem_cons_succ, ih hlt hlt', Nat.add_assoc, Nat.add_comm 1 k]

theorem rootEntries_ne {x : ℕ × List UInt8} (hx : x ∈ rootEntries files) : ∀ b ∈ x.2, b ≠ 0 := by
  rcases List.mem_cons.mp hx with rfl | hx
  · decide
  rcases List.mem_cons.mp hx with rfl | hx
  · decide
  obtain ⟨j, hj', rfl⟩ := List.getElem_of_mem hx
  have hj : j < files.length := length_numbered ▸ hj'
  rw [getElem_numbered hj]
  exact fun b hb => files[j].name_ne b (files[j].stripped_subset hb)

section

/-- An entry of the cache has an inode of a file system in which nothing has changed. -/
structure Finds (s t : State) (e : Slot) (i : ℕ) : Prop where
  inum : (t.entry e).inum = i
  din : (t.entry e).valid = true → (t.entry e).din = s.dinode i
  dinode : t.dinode = s.dinode
  block : t.block = s.block

theorem findEntry_eq_some {p : Inode.Entry → Bool} (h : p (s.entry e) = true)
    (hbefore : ∀ e' < e, p (s.entry e') = false) : s.findEntry p = some e := by
  rw [State.findEntry, List.find?_eq_some_iff_getElem]
  refine ⟨h, e.val, by rw [List.length_finRange]; exact e.isLt, List.getElem_finRange _, ?_⟩
  intro j hj
  rw [List.getElem_finRange, hbefore _ (Fin.lt_def.mpr hj)]
  rfl

theorem findEntry_eq_none {p : Inode.Entry → Bool} (h : ∀ e, p (s.entry e) = false) :
    s.findEntry p = none := by
  rw [State.findEntry, List.find?_eq_none]
  exact fun e _ => by rw [h e]; decide

section

variable (hfree : ∀ e, s.entry e = ⟨0, 0, false, noInode⟩)
include hfree

theorem iget_of_free : s.iget i = some (s.setEntry 0 ⟨i, 1, false, noInode⟩, 0) := by
  rw [State.iget, findEntry_eq_none fun e => by rw [hfree]; rfl,
    findEntry_eq_some (e := 0) (by rw [hfree]; rfl) fun e' he' => absurd he' (Fin.not_lt_zero e'),
    Option.map_some, hfree]

omit hfree in
theorem ilock_of_free (halloc : (s.dinode i).type ≠ .free) :
    (s.setEntry 0 ⟨i, 1, false, noInode⟩).ilock 0 = some (opened s i) := by
  have htype : ((s.setEntry 0 ⟨i, 1, false, noInode⟩).dinode i).type ≠ .free := halloc
  rw [State.ilock, State.setEntry_self]
  dsimp only
  rw [if_neg (by decide), if_neg htype, opened]
  simp only [State.setEntry, Function.update_idem]

theorem opened_entry_of_ne (he : e ≠ 0) : (opened s i).entry e = ⟨0, 0, false, noInode⟩ := by
  rw [opened, State.setEntry_of_ne he, hfree]

theorem iget_iput_opened (hlink : (s.dinode i).nlink ≠ 0) (j : ℕ) :
    ∃ t t' e, (opened s i).iget j = some (t, e) ∧ t.iput 0 = some t' ∧ Finds s t' e j := by
  have hput : ∀ (t : State) (r : ℕ), t.entry 0 = ⟨i, r, true, s.dinode i⟩ →
      t.iput 0 = some (t.setEntry 0 ⟨i, r - 1, true, s.dinode i⟩) := by
    intro t r ht
    rw [State.iput, ht]
    dsimp only
    rw [if_neg fun hall => hlink hall.2.1, Option.map_some, ht]
  by_cases hj : j = i
  · subst hj
    have hget : (opened s j).iget j =
        some ((opened s j).setEntry 0 ⟨j, 2, true, s.dinode j⟩, 0) := by
      rw [State.iget, findEntry_eq_some (e := 0) (by rw [opened_entry]; simp)
        fun e' he' => absurd he' (Fin.not_lt_zero e')]
      dsimp only
      rw [opened_entry]
    refine ⟨_, _, 0, hget, hput _ 2 (State.setEntry_self ..), ?_, ?_, rfl, rfl⟩
    · rw [State.setEntry_self]
    · rw [State.setEntry_self]
      exact fun _ => rfl
  · have hnone : (opened s i).findEntry (fun q => decide (0 < q.ref ∧ q.inum = j)) = none := by
      refine findEntry_eq_none fun e => ?_
      by_cases he : e = 0
      · subst he
        rw [opened_entry]
        simp [Ne.symm hj]
      · rw [opened_entry_of_ne hfree he]
        rfl
    have hfind : (opened s i).findEntry (fun q => decide (q.ref = 0)) = some 1 := by
      refine findEntry_eq_some (by rw [opened_entry_of_ne hfree (by decide)]; rfl) fun e he => ?_
      obtain rfl : e = 0 := by
        rw [Fin.lt_def] at he
        exact Fin.ext (Nat.lt_one_iff.mp he)
      rw [opened_entry]
      rfl
    have hget : (opened s i).iget j =
        some ((opened s i).setEntry 1 ⟨j, 1, false, noInode⟩, 1) := by
      rw [State.iget, hnone, hfind, Option.map_some, opened_entry_of_ne hfree (by decide)]
    have hzero : ((opened s i).setEntry 1 ⟨j, 1, false, noInode⟩).entry 0 =
        ⟨i, 1, true, s.dinode i⟩ := by
      rw [State.setEntry_of_ne (by decide), opened_entry]
    have hone : (((opened s i).setEntry 1 ⟨j, 1, false, noInode⟩).setEntry 0
        ⟨i, 1 - 1, true, s.dinode i⟩).entry 1 = ⟨j, 1, false, noInode⟩ := by
      rw [State.setEntry_of_ne (by decide), State.setEntry_self]
    refine ⟨_, _, 1, hget, hput _ 1 hzero, ?_, ?_, rfl, rfl⟩
    · rw [hone]
    · rw [hone]
      simp

end

end

theorem Finds.ilock (h : Finds s t e i) (halloc : (s.dinode i).type ≠ .free) :
    ∃ t', t.ilock e = some t' ∧ Finds s t' e i ∧ (t'.entry e).valid = true := by
  rw [State.ilock]
  split
  · next hvalid => exact ⟨t, rfl, h, hvalid⟩
  · rw [h.inum, h.dinode, if_neg halloc]
    refine ⟨_, rfl, ⟨?_, fun _ => ?_, h.dinode, h.block⟩, ?_⟩ <;> rw [State.setEntry_self]

theorem map_getD_range (b : List UInt8) (off n : ℕ) :
    (List.range (min n (b.length - off))).map (fun x => b.getD (off + x) 0) = (b.drop off).take n := by
  refine List.ext_getElem (by simp) fun i hi hi' => ?_
  have hlt : off + i < b.length := by
    rw [List.length_map, List.length_range] at hi
    omega
  rw [List.getElem_map, List.getElem_range, List.getD_eq_getElem _ _ hlt, List.getElem_take,
    List.getElem_drop]

theorem Finds.contains (h : Finds s t e i) (hvalid : (t.entry e).valid = true)
    (htype : (s.dinode i).type ≠ .dev) (hsize : (s.dinode i).size = b.length)
    (hle : b.length ≤ MAXFILE * BSIZE)
    (hfilled : ∀ x < b.length, refAt layout s.dinode s.block (i, slotOf (x / BSIZE)) ≠ none)
    (hbytes : ∀ x, fileByte layout s.dinode s.block i x = b.getD x 0) : Contains t e b := by
  have hdin := h.din hvalid
  have hview : t.view s.dinode e = s.dinode := by
    rw [State.view, hdin, h.inum, Function.update_eq_self]
  rw [Contains, hdin]
  refine ⟨hsize, fun transaction off n hoff hover => ?_⟩
  obtain ⟨r, bytes, hread, hresult⟩ := State.readi_filled (L := within transaction) (v := s.dinode)
    (s := t) (e := e) off n (by rw [hdin, hsize]; exact hle)
    (fun x _ _ hx => by
      rw [hdin, hsize] at hx
      rw [State.ref, hview, h.inum, h.block]
      exact hfilled x hx) (fun _ => true) 0
  rw [hdin, hsize, hview, h.block, h.inum] at hresult
  obtain ⟨hr, hcopied⟩ := hresult htype hoff hover fun _ => rfl
  refine ⟨t, ?_⟩
  have hpart : bytes = (b.drop off.toNat).take n.toNat := by
    rw [hcopied, ← map_getD_range]
    exact List.map_congr_left fun x _ => hbytes _
  rw [hread, hr, hpart, List.length_take, List.length_drop]

section

variable (h : mkfs files = some img) (hroom : files.length + 1 < layout.inodes)
include h hroom

theorem direntBytesAt_root (hk : k < (rootEntries files).length) :
    direntInum (direntBytesAt layout (opened (mount layout.inodes img) ROOTINO)
        (mount layout.inodes img).dinode 0 k) = (rootEntries files)[k].1 ∧
      direntName (direntBytesAt layout (opened (mount layout.inodes img) ROOTINO)
        (mount layout.inodes img).dinode 0 k) = padded (rootEntries files)[k].2 := by
  have hbytes : direntBytesAt layout (opened (mount layout.inodes img) ROOTINO)
      (mount layout.inodes img).dinode 0 k =
        (List.range 16).map fun x => (rootBytes files).getD (16 * k + x) 0 := by
    have hroot := fileByte_root h hroom
    rw [direntBytesAt, opened_view, opened_entry]
    exact List.map_congr_left fun x _ => congrFun hroot (16 * k + x)
  have hat := direntAt_direntBytes (rootEntries files) k
  rw [dif_pos hk, Nat.mod_eq_of_lt (rootEntries_bounds hroom (List.getElem_mem hk)).2] at hat
  rw [hbytes]
  exact ⟨congrArg Prod.fst hat, congrArg Prod.snd hat⟩

theorem refAt_root {x : ℕ} (hx : x / BSIZE * BSIZE < 16 * (files.length + 2)) :
    refAt layout (mount layout.inodes img).dinode (mount layout.inodes img).block
      (ROOTINO, slotOf (x / BSIZE)) ≠ none := by
  have hin : ROOTINO < layout.inodes := by decide
  have hat := (root_at h hroom (x / BSIZE)).mpr hx
  intro hnone
  rw [refAt, if_pos ⟨hin, by rw [root_type h hroom]; simp, hat⟩] at hnone
  cases hnone

theorem dirlookup_root (hname : ∀ b ∈ name, b ≠ 0) (hk : k < (rootEntries files).length)
    (hsame : padded name = padded (rootEntries files)[k].2)
    (hbefore : ∀ j (hj : j < k), padded name ≠ padded (rootEntries files)[j].2) :
    (opened (mount layout.inodes img) ROOTINO).dirlookup layout 0 (name.take DIRSIZ) =
      ((opened (mount layout.inodes img) ROOTINO).iget (rootEntries files)[k].1).map fun y =>
        (y.1, some (y.2, 16 * k)) := by
  have hlen : (rootEntries files).length = files.length + 2 := by
    rw [rootEntries, List.length_cons, List.length_cons, length_numbered]
  have hdir := root_type h hroom
  have hsize := root_size h hroom
  have hinodes : layout.inodes = 208 := rfl
  have hentry := opened_entry (s := mount layout.inodes img) (i := ROOTINO)
  have hloop : State.dirlookupLoop layout 0 (name.take DIRSIZ) (rounded (16 * (files.length + 2)))
      (opened (mount layout.inodes img) ROOTINO) (16 * 0) =
        some (opened (mount layout.inodes img) ROOTINO, some ((rootEntries files)[k].1, 16 * k)) := by
    rw [← (direntBytesAt_root h hroom hk).1]
    refine Inode.dirlookupLoop_first (v := (mount layout.inodes img).dinode) (k := k) ?_ ?_ ?_
      (fun x hx => ?_) ?_ ?_ (fun j hj => .inr ?_) (Nat.zero_le _) ?_
    · rw [hentry]
      exact hdir
    · rw [hentry]
      dsimp only
      rw [hsize]
      simp only [rounded, MAXFILE, BSIZE, NDIRECT, Inode.NINDIRECT]
      omega
    · rw [hentry]
      dsimp only
      rw [hsize]
      simp only [rounded, BSIZE]
      omega
    · rw [opened_ref]
      exact refAt_root h hroom ((Nat.div_mul_le_self x BSIZE).trans_lt (by omega))
    · rw [(direntBytesAt_root h hroom hk).1]
      exact (rootEntries_bounds hroom (List.getElem_mem hk)).1.ne'
    · rw [(direntBytesAt_root h hroom hk).2, namecmp_padded hname (rootEntries_ne (List.getElem_mem hk))]
      exact hsame
    · have hlt := hj.trans hk
      rw [(direntBytesAt_root h hroom hlt).2, ne_eq,
        namecmp_padded hname (rootEntries_ne (List.getElem_mem hlt))]
      exact hbefore j hj
    · simp only [rounded, BSIZE]
      omega
  rw [State.dirlookup, hentry, if_neg (by rw [hdir]; exact fun hne => hne rfl)]
  dsimp only
  rw [hsize, hloop, Option.bind_some]

theorem root_nlink : ((mount layout.inodes img).dinode ROOTINO).nlink = 1 := by
  obtain ⟨img₀, s, hbuilt, hmount⟩ := mount_mkfs h hroom
  rw [hmount]
  dsimp only
  rw [Function.update_self]
  exact hbuilt.root.nlink

theorem namei_entry (cwd : Slot) (name : List UInt8) (hne : name ≠ []) (hslash : 47 ∉ name)
    (hname : ∀ b ∈ name, b ≠ 0) (hk : k < (rootEntries files).length)
    (hsame : padded name = padded (rootEntries files)[k].2)
    (hbefore : ∀ j (hj : j < k), padded name ≠ padded (rootEntries files)[j].2) :
    ∃ s₁ e, (mount layout.inodes img).namei layout cwd (47 :: name) = some (s₁, some e) ∧
      Finds (mount layout.inodes img) s₁ e (rootEntries files)[k].1 := by
  have hfree : ∀ e, (mount layout.inodes img).entry e = ⟨0, 0, false, noInode⟩ := fun _ => rfl
  have hdir := root_type h hroom
  obtain ⟨t, t', e, hget, hput, hfinds⟩ := iget_iput_opened (i := ROOTINO) hfree
    (by rw [root_nlink h hroom]; decide) (rootEntries files)[k].1
  have hentry := opened_entry (s := mount layout.inodes img) (i := ROOTINO)
  have hlookup := dirlookup_root h hroom hname hk hsame hbefore
  rw [hget, Option.map_some] at hlookup
  refine ⟨t', e, ?_, hfinds⟩
  rw [State.namei, State.namex, if_pos (show (47 :: name).head? = some 47 from rfl),
    show Inode.ROOTINO = ROOTINO from rfl, iget_of_free hfree, Option.bind_some, List.length_cons, State.namexLoop,
    skipelem_root hne hslash]
  dsimp only
  rw [ilock_of_free (by rw [hdir]; nofun), Option.bind_some, hentry, if_neg (by
    dsimp only
    rw [hdir]
    exact fun hno => hno rfl), if_neg (by simp), hlookup, Option.bind_some, hput, Option.bind_some]
  dsimp only
  rw [State.namexLoop]
  rfl

omit h hroom in
theorem namei_slash (cwd : Slot) :
    ∃ s₁, (mount layout.inodes img).namei layout cwd [47] = some (s₁, some 0) ∧
      Finds (mount layout.inodes img) s₁ 0 ROOTINO := by
  have hfree : ∀ e, (mount layout.inodes img).entry e = ⟨0, 0, false, noInode⟩ := fun _ => rfl
  refine ⟨(mount layout.inodes img).setEntry 0 ⟨ROOTINO, 1, false, noInode⟩, ?_, ?_, ?_, rfl, rfl⟩
  · rw [State.namei, State.namex, if_pos (show ([47] : List UInt8).head? = some 47 from rfl),
      show Inode.ROOTINO = ROOTINO from rfl, iget_of_free hfree, Option.bind_some, State.namexLoop]
    rfl
  · rw [State.setEntry_self]
  · rw [State.setEntry_self]
    nofun

theorem holds_mount (hk : k < files.length) :
    Holds (mount layout.inodes img) (k + 2) .file files[k].bytes := by
  obtain ⟨img₀, s, hbuilt, hmount, hrefs⟩ := refAt_mount h hroom
  have hfile := hbuilt.host hk
  have hsame : (mount layout.inodes img).dinode (k + 2) = s.dinode (k + 2) := by
    rw [hmount]
    dsimp only
    rw [Function.update_of_ne (show k + 2 ≠ ROOTINO by rw [ROOTINO]; omega)]
  refine ⟨hsame ▸ hfile.type_eq, hsame ▸ hfile.nlink, hsame ▸ hfile.size, fun x => ?_, ?_, ?_⟩
  · refine Eq.trans ?_ (hfile.bytes x)
    rw [fileByte, hrefs, fileByte, hmount]
  · rw [hrefs]
    exact hfile.blocks
  · rw [hrefs]
    exact hfile.indirect

theorem reads_file {f : HostFile} (hf : f ∈ files) (hnamed : f.Named)
    (hproper : f.stripped ≠ [] ∧ f.stripped ≠ [46] ∧ f.stripped ≠ [46, 46]) :
    ∃ g, files[firstOf files f]? = some g ∧
      Reads (mount layout.inodes img) (47 :: f.stripped) (firstOf files f + 2) .file g.bytes := by
  have hlt : firstOf files f < files.length :=
    List.findIdx_lt_length_of_exists ⟨f, hf, by simp⟩
  have hname : ∀ b ∈ f.stripped, b ≠ 0 := fun b hb => f.name_ne b (f.stripped_subset hb)
  have hk : firstOf files f + 2 < (rootEntries files).length := by
    rw [rootEntries, List.length_cons, List.length_cons, length_numbered]
    omega
  have hentry : (rootEntries files)[firstOf files f + 2] =
      (firstOf files f + 2, files[firstOf files f].stripped) := by
    simp only [rootEntries, List.getElem_cons_succ]
    rw [getElem_numbered hlt, Nat.add_comm]
  have hsame : padded f.stripped = padded files[firstOf files f].stripped := by
    have hfirst := List.findIdx_getElem (w := hlt)
    exact (of_decide_eq_true hfirst).symm
  refine ⟨files[firstOf files f], List.getElem?_eq_getElem hlt, fun cwd => ?_⟩
  obtain ⟨s₁, e, hnamei, hfinds⟩ := namei_entry h hroom cwd _ hproper.1
    (fun hmem => hnamed.1 (f.stripped_subset hmem)) hname hk (by rw [hentry]; exact hsame) (by
      intro j hj heq
      rcases j with _ | _ | j
      · exact hproper.2.1 (eq_of_padded hname (by decide) (by decide) heq)
      · exact hproper.2.2 (eq_of_padded hname (by decide) (by decide) heq)
      · have hjlt : j < firstOf files f := Nat.lt_of_add_lt_add_right hj
        have hother := List.not_of_lt_findIdx hjlt
        simp only [rootEntries, List.getElem_cons_succ] at heq
        rw [getElem_numbered (hjlt.trans hlt)] at heq
        simp [heq] at hother)
  rw [hentry] at hfinds
  have hholds := holds_mount h hroom hlt
  obtain ⟨s₂, hlock, hlocked, hvalid⟩ := hfinds.ilock (by rw [hholds.type_eq]; simp)
  obtain ⟨img₀, s, hbuilt, -⟩ := mount_mkfs h hroom
  refine ⟨s₁, e, s₂, hnamei, hlock, hlocked.inum, by rw [hlocked.din hvalid, hholds.type_eq], ?_⟩
  refine hlocked.contains hvalid (by rw [hholds.type_eq]; simp) hholds.size ?_ (fun x hx => ?_)
    hholds.bytes
  · exact hbuilt.fits.size_le _ (List.mem_cons_of_mem _ (List.mem_map_of_mem (List.getElem_mem hlt)))
  · exact (hholds.blocks _).mpr ((Nat.div_mul_le_self x BSIZE).trans_lt hx)

theorem reads_root (hfull : (files.length + 2) % 32 ≠ 0) :
    Reads (mount layout.inodes img) [47] ROOTINO .dir (rootBytes files ++
      List.replicate (rounded (rootBytes files).length - (rootBytes files).length) 0) := by
  intro cwd
  have hdir := root_type h hroom
  have hinodes : layout.inodes = 208 := rfl
  have hlength : (rootBytes files ++ List.replicate (rounded (rootBytes files).length -
      (rootBytes files).length) 0).length = rounded (16 * (files.length + 2)) := by
    rw [List.length_append, List.length_replicate, length_rootBytes]
    simp only [rounded, BSIZE]
    omega
  obtain ⟨s₁, hnamei, hfinds⟩ := namei_slash cwd
  obtain ⟨s₂, hlock, hlocked, hvalid⟩ := hfinds.ilock (by rw [hdir]; simp)
  refine ⟨s₁, 0, s₂, hnamei, hlock, hlocked.inum, by rw [hlocked.din hvalid, hdir], ?_⟩
  refine hlocked.contains hvalid (by rw [hdir]; simp) ?_ ?_ (fun x hx => ?_) fun x => ?_
  · rw [hlength, root_size h hroom]
  · rw [hlength]
    simp only [rounded, MAXFILE, BSIZE, NDIRECT, Inode.NINDIRECT]
    omega
  · rw [hlength] at hx
    refine refAt_root h hroom ?_
    simp only [rounded, BSIZE] at *
    omega
  · rw [fileByte_root h hroom]
    dsimp only
    rcases Nat.lt_or_ge x (rootBytes files).length with hlt | hge
    · rw [List.getD_append _ _ _ _ hlt]
    · rw [List.getD_append_right _ _ _ _ hge, List.getD_eq_default _ _ hge,
        List.getD_eq_getElem?_getD, List.getElem?_getD_replicate_default_eq]

theorem readi_hole (hfull : (files.length + 2) % 32 = 0) {off : UInt32}
    (hoff : off.toNat = 16 * (files.length + 2))
    (hfinds : Finds (mount layout.inodes img) t e ROOTINO) (hvalid : (t.entry e).valid = true) :
    t.readi (within false) e off 512 (fun _ => true) 0 = none := by
  have hinodes : layout.inodes = 208 := rfl
  have hdin := hfinds.din hvalid
  have hdir := root_type h hroom
  have hlen : (512 : UInt32).toNat = 512 := rfl
  have hsize : ((mount layout.inodes img).dinode ROOTINO).size = off.toNat + 512 := by
    rw [root_size h hroom, hoff]
    simp only [rounded, BSIZE]
    omega
  have hdirect : off.toNat / BSIZE < NDIRECT := by
    simp only [BSIZE, NDIRECT]
    omega
  have hzero : ((mount layout.inodes img).dinode ROOTINO).addrs (off.toNat / BSIZE) = 0 := by
    by_contra hne
    have hlt := (root_at h hroom (off.toNat / BSIZE)).mp (by
      rw [slotOf, if_pos hdirect, Dinode.at, if_pos hdirect.le]
      exact hne)
    simp only [BSIZE] at hlt
    omega
  have hmap : t.bmap (within false) e (off.toNat / BSIZE) = none := by
    rw [State.bmap, hdin, if_pos hdirect, State.grab, if_pos hzero]
    rfl
  rw [State.readi, hdin, hlen, hsize]
  dsimp only
  rw [if_neg (by rw [hdir]; simp), if_neg (by rw [Inode.add_lt_self_iff, hlen]; omega),
    if_neg (Nat.lt_irrefl _), State.copyLoop, if_neg (by decide), hmap]
  rfl

end

theorem named_of_mkfs (h : mkfs files = some img) : ∀ f ∈ files, f.Named := by
  obtain ⟨img₀, hbuild, -⟩ := of_mkfs h
  obtain ⟨_, _, _, -, -, -, hfold⟩ := of_build hbuild
  exact named_of_addFiles hfold

theorem Reads.inum_eq {path : List UInt8} {type : FileType} {inum : ℕ} {cwd : Slot}
    (h : Reads s path inum type b) (hnamei : s.namei layout cwd path = some (t, some e))
    (hfinds : Finds s t e i) (halloc : (s.dinode i).type ≠ .free) : inum = i := by
  obtain ⟨t', hlock, hfinds', -⟩ := hfinds.ilock halloc
  obtain ⟨t₁, e₁, t₂, hnamei₁, hlock₁, hinum, -⟩ := h cwd
  rw [hnamei] at hnamei₁
  cases hnamei₁
  rw [hlock] at hlock₁
  cases hlock₁
  rw [← hinum, hfinds'.inum]

/-- **The files of an image.** The kernel finds every file of the host under its name, and reads its
bytes, and reads the entries of the root directory: if and only if no name is empty, `.` or `..`
without its underscore, and the entries of the root directory do not fill its blocks. -/
theorem mkfs_readable (h : mkfs files = some img) (hroom : files.length ≤ 206) :
    Readable files img ↔
      (∀ f ∈ files, f.stripped ≠ [] ∧ f.stripped ≠ [46] ∧ f.stripped ≠ [46, 46]) ∧
        (files.length + 2) % 32 ≠ 0 := by
  have hlt : files.length + 1 < layout.inodes := by
    rw [show layout.inodes = 208 from rfl]
    omega
  have halloc : ((mount layout.inodes img).dinode ROOTINO).type ≠ .free := by
    rw [root_type h hlt]
    simp
  constructor
  · intro hread
    refine ⟨fun f hf => ?_, fun hfull => ?_⟩
    · obtain ⟨g, -, hreads⟩ := hread.file f hf
      have htwo : firstOf files f + 2 ≠ ROOTINO := fun heq => absurd heq (by rw [ROOTINO]; omega)
      have hlen : 2 ≤ (rootEntries files).length := by
        rw [rootEntries, List.length_cons, List.length_cons]
        omega
      refine ⟨fun hname => ?_, fun hname => ?_, fun hname => ?_⟩ <;> rw [hname] at hreads
      · obtain ⟨t, hnamei, hfinds⟩ := namei_slash 0
        exact htwo (hreads.inum_eq hnamei hfinds halloc)
      · obtain ⟨t, e, hnamei, hfinds⟩ := namei_entry h hlt 0 [46] (k := 0) (by decide)
          (by decide) (by decide) (by omega) rfl (by simp)
        exact htwo (hreads.inum_eq hnamei hfinds halloc)
      · obtain ⟨t, e, hnamei, hfinds⟩ := namei_entry h hlt 0 [46, 46] (k := 1) (by decide)
          (by decide) (by decide) (by omega) rfl (by
            intro j hj
            obtain rfl := Nat.lt_one_iff.mp hj
            exact (by decide : padded [46, 46] ≠ padded [46]))
        exact htwo (hreads.inum_eq hnamei hfinds halloc)
    · obtain ⟨s₁, hnamei, hfinds⟩ := namei_slash 0
      obtain ⟨s₂, hlock, hfinds', hvalid⟩ := hfinds.ilock halloc
      obtain ⟨t₁, e₁, t₂, hnamei₁, hlock₁, -, -, hcontains⟩ := hread.root 0
      rw [hnamei] at hnamei₁
      cases hnamei₁
      rw [hlock] at hlock₁
      cases hlock₁
      have hoff : (UInt32.ofNat (16 * (files.length + 2))).toNat = 16 * (files.length + 2) :=
        UInt32.toNat_ofNat_of_lt' (by
          show _ < 2 ^ 32
          omega)
      obtain ⟨s', hsome⟩ := hcontains.2 false (.ofNat (16 * (files.length + 2))) 512
        (by rw [hoff, List.length_append, length_rootBytes]; omega)
        (by rw [hoff, show (512 : UInt32).toNat = 512 from rfl]; omega)
      rw [readi_hole h hlt hfull hoff hfinds' hvalid] at hsome
      cases hsome
  · rintro ⟨hproper, hfull⟩
    exact ⟨fun f hf => reads_file h hlt hf (named_of_mkfs h f hf) (hproper f hf), reads_root h hlt hfull⟩

/-- An image with one file. -/
theorem mkfs_readable_one : ∃ img, mkfs [emptyFile [95, 99, 97, 116] (by decide)] = some img ∧
    Readable [emptyFile [95, 99, 97, 116] (by decide)] img := by
  obtain ⟨img, h⟩ : ∃ img, mkfs [emptyFile [95, 99, 97, 116] (by decide)] = some img := by
    refine mkfs_accepts (fun f hf => ?_) (by decide) ⟨by decide, by decide⟩
    rw [List.mem_singleton.mp hf]
    exact ⟨by decide, by decide⟩
  refine ⟨img, h, (mkfs_readable h (by decide)).mpr ⟨fun f hf => ?_, by decide⟩⟩
  rw [List.mem_singleton.mp hf]
  decide

/-- A file with the name `_`: `mkfs` stores it under the empty name, and the kernel finds the root
directory. -/
theorem mkfs_hides_file : ∃ img, mkfs [emptyFile [95] (by decide)] = some img ∧
    ¬Readable [emptyFile [95] (by decide)] img := by
  obtain ⟨img, h⟩ : ∃ img, mkfs [emptyFile [95] (by decide)] = some img := by
    refine mkfs_accepts (fun f hf => ?_) (by decide) ⟨by decide, by decide⟩
    rw [List.mem_singleton.mp hf]
    exact ⟨by decide, by decide⟩
  refine ⟨img, h, fun hread => ?_⟩
  have hroot : ((mount layout.inodes img).dinode ROOTINO).type ≠ .free := by
    rw [root_type h (by decide)]
    nofun
  obtain ⟨g, -, hreads⟩ := hread.file _ List.mem_cons_self
  obtain ⟨t, hnamei, hfinds⟩ := namei_slash 0
  exact absurd (hreads.inum_eq hnamei hfinds hroot) (by decide)

end KThreads.Mkfs
