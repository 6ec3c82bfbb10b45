import KThreads.Mkfs.Append

/-!
# The files of the host in the image

The inodes that the files of the host get, their contents, and what the kernel finds in the image
that `mkfs` has written.
-/

namespace KThreads.Mkfs

open Function (update update_eq_self update_idem update_of_ne update_self)
open Inode (BSIZE NDIRECT MAXFILE FileType Dinode State Locked Inv WellFormed slotOf refAt fileByte
  writePut)

variable {img img' : Img} {s s' : State} {t c' : List (List UInt8)} {b p : List UInt8} {i k n : ℕ}

/-- The blocks in use when the inodes have some contents. -/
def used (t : List (List UInt8)) : ℕ := nmeta + (t.map fun b => blocks b.length).sum

/-- There is room for some contents. -/
structure Fits (t : List (List UInt8)) : Prop where
  size_le : ∀ b ∈ t, b.length ≤ MAXFILE * BSIZE
  used_le : used t ≤ FSSIZE

theorem used_set (hk : k < t.length) (b : List UInt8) :
    used (t.set k b) + blocks t[k].length = used t + blocks b.length := by
  simp only [used]
  induction t generalizing k with
  | nil => cases hk
  | cons a t ih =>
    cases k with
    | zero =>
      simp only [List.set_cons_zero, List.map_cons, List.sum_cons, List.getElem_cons_zero]
      omega
    | succ k =>
      have hlt : k < t.length := Nat.lt_of_succ_lt_succ hk
      have hrest := ih hlt
      simp only [List.set_cons_succ, List.map_cons, List.sum_cons, List.getElem_cons_succ]
      omega

theorem Fits.of_set (hk : k < t.length) (h : Fits (t.set k (b ++ p))) : Fits (t.set k b) := by
  constructor
  · intro a ha
    obtain ⟨j, hj, rfl⟩ := List.getElem_of_mem ha
    rw [List.length_set] at hj
    by_cases hjk : k = j
    · subst hjk
      have hle := h.size_le (b ++ p) (List.mem_set hk _)
      rw [List.length_append] at hle
      rw [List.getElem_set_self]
      omega
    · refine h.size_le _ (List.mem_iff_getElem.mpr ⟨j, by simpa using hj, ?_⟩)
      rw [List.getElem_set_ne hjk, List.getElem_set_ne hjk]
  · have hmore := used_set hk (b ++ p)
    have hless := used_set hk b
    have hle := h.used_le
    have hmono : blocks b.length ≤ blocks (b ++ p).length := blocks_mono (by simp)
    omega

theorem used_append_nil : used (t ++ [[]]) = used t := by
  have hzero : blocks ([] : List UInt8).length = 0 := rfl
  rw [used, used, List.map_append, List.sum_append, List.map_singleton, List.sum_singleton, hzero,
    Nat.add_zero]

theorem fits_append_nil : Fits (t ++ [[]]) ↔ Fits t := by
  constructor
  · intro h
    exact ⟨fun b hb => h.size_le b (List.mem_append_left _ hb), used_append_nil ▸ h.used_le⟩
  · intro h
    refine ⟨fun b hb => ?_, used_append_nil.symm ▸ h.used_le⟩
    rcases List.mem_append.mp hb with hb | hb
    · exact h.size_le b hb
    · rw [List.mem_singleton.mp hb]
      exact Nat.zero_le _

/-- An inode of the file system with its contents. -/
structure Holds (s : State) (i : ℕ) (type : FileType) (b : List UInt8) : Prop where
  type_eq : (s.dinode i).type = type
  nlink : (s.dinode i).nlink = 1
  size : (s.dinode i).size = b.length
  bytes : ∀ x, fileByte layout s.dinode s.block i x = b.getD x 0
  blocks : ∀ bn, refAt layout s.dinode s.block (i, slotOf bn) ≠ none ↔ bn * BSIZE < b.length
  indirect : refAt layout s.dinode s.block (i, NDIRECT) ≠ none ↔ NDIRECT * BSIZE < b.length

/-- The root directory is the first inode; the others are files. -/
def typeOf (i : ℕ) : FileType := if i = ROOTINO then .dir else .file

theorem typeOf_ne : typeOf i ≠ .free ∧ typeOf i ≠ .dev := by
  rw [typeOf]
  split <;> exact ⟨nofun, nofun⟩

/-- The image has these contents, and the kernel would find the file system `s`. -/
structure Built (img : Img) (t : List (List UInt8)) (s : State) : Prop where
  sim : Sim img s
  wf : WellFormed layout s
  freeinode : img.freeinode = t.length + 1
  room : t.length < layout.inodes
  unused : ∀ i, i = 0 ∨ t.length < i → (s.dinode i).type = .free
  file : ∀ k (hk : k < t.length), Holds s (k + 1) (typeOf (k + 1)) t[k]
  freeblock : img.freeblock = used t

theorem Sim.congr (h : Sim img s) (hbit : s'.bit = s.bit) (hblock : s'.block = s.block)
    (hdinode : s'.dinode = s.dinode) : Sim img s' :=
  ⟨h.length, h.nmeta_le, h.le_size, h.fresh, hbit.trans h.bit, hblock.trans h.block,
    hdinode.trans h.dinode⟩

/-- An inode is read into the cache. -/
def opened (s : State) (i : ℕ) : State := s.setEntry 0 ⟨i, 1, true, s.dinode i⟩

@[simp] theorem opened_entry : (opened s i).entry 0 = ⟨i, 1, true, s.dinode i⟩ :=
  State.setEntry_self ..

theorem opened_view : (opened s i).view s.dinode 0 = s.dinode := by
  rw [State.view, opened_entry, update_eq_self]

theorem opened_ref : (opened s i).ref layout s.dinode 0 k = refAt layout s.dinode s.block (i, k) := by
  rw [State.ref, opened_view, opened_entry]
  rfl

theorem opened_inv (hwf : WellFormed layout s) (hi : i < layout.inodes)
    (halloc : (s.dinode i).type ≠ .free) :
    Inv layout (opened s i) s.dinode ∧ Locked layout s.dinode 0 (opened s i) := by
  have hget := hwf.toMounted.inv.recycle (hwf.free 0) hi fun e href => absurd (hwf.free e) href.ne'
  have hself := State.setEntry_self s 0 { s.entry 0 with inum := i, ref := 1, valid := false }
  have hlock : State.ilock (s.setEntry 0 { s.entry 0 with inum := i, ref := 1, valid := false }) 0 =
      some (opened s i) := by
    rw [State.ilock, hself]
    dsimp only
    rw [if_neg Bool.false_ne_true]
    refine (if_neg halloc).trans ?_
    simp only [opened, State.setEntry, update_idem]
  obtain ⟨hinv, hl, -⟩ := hget.ilock (by rw [hself]; exact Nat.one_pos) hlock
  exact ⟨hinv, hl⟩

/-- A call of `mkfs` that leads to some contents succeeds if they fit into the image, and only
then. -/
def Outcome (r : Option Img) (t : List (List UInt8)) : Prop :=
  (∃ img s, r = some img ∧ Built img t s) ∨ r = none ∧ ¬Fits t

theorem Outcome.bind {r : Option Img} {f : Img → Option Img} (h : Outcome r t)
    (hfits : Fits c' → Fits t) (hf : ∀ img s, Built img t s → Outcome (f img) c') :
    Outcome (r.bind f) c' := by
  rcases h with ⟨img, s, rfl, hbuilt⟩ | ⟨rfl, hnot⟩
  · exact hf img s hbuilt
  · exact .inr ⟨rfl, fun hc => hnot (hfits hc)⟩

namespace Built

variable (h : Built img t s)
include h

theorem fits : Fits t := by
  refine ⟨fun b hb => ?_, h.freeblock ▸ h.sim.le_size⟩
  obtain ⟨k, hk, rfl⟩ := List.getElem_of_mem hb
  have hfile := h.file k hk
  rw [← hfile.size]
  have hroom := h.room
  exact h.wf.sound.size_le (k + 1) (by omega) (hfile.type_eq ▸ typeOf_ne.1)

theorem loop (hk : k < t.length) :
    Loop img (img.dinode (k + 1)) (opened s (k + 1)) s.dinode t[k].length := by
  have hroom := h.room
  have hfile := h.file k hk
  obtain ⟨-, hdin⟩ := h.sim.rinode (i := k + 1) (by omega)
  refine ⟨h.sim.congr rfl rfl rfl,
    (opened_inv h.wf (by omega) (hfile.type_eq ▸ typeOf_ne.1)).2, ?_, fun bn => ?_, ?_⟩
  · rw [opened_entry]
    exact hdin
  · rw [opened_ref]
    exact hfile.blocks bn
  · rw [opened_ref]
    exact hfile.indirect

theorem append_built {din' : DinodeWords} (hk : k < t.length) (hp : p ≠ [])
    (hmax : t[k].length + p.length ≤ MAXFILE * BSIZE)
    (hcopy : State.copyLoop layout 0 (writePut (fun i => p.getD i 0) t[k].length) (fun _ => true)
      p.length (opened s (k + 1)) () t[k].length p.length 0 =
        some (s', (), t[k].length + p.length, true))
    (hloop : Loop img' din' s' s.dinode (t[k].length + p.length))
    (hfree : img'.freeblock + blocks t[k].length =
      img.freeblock + blocks (t[k].length + p.length)) (hinode : img'.freeinode = img.freeinode) :
    ∃ img'' s'', img'.winode (k + 1) (din'.setSize (t[k].length + p.length)) = some img'' ∧
      Built img'' (t.set k (t[k] ++ p)) s'' := by
  have hroom := h.room
  have hfile := h.file k hk
  have htype : (s.dinode (k + 1)).type = typeOf (k + 1) := hfile.type_eq
  have hpos : 0 < p.length := List.length_pos_iff.mpr hp
  have hsmall : MAXFILE * BSIZE < 2 ^ 32 := by decide
  have hoff : (UInt32.ofNat t[k].length).toNat = t[k].length := by
    rw [UInt32.toNat_ofNat']
    exact Nat.mod_eq_of_lt (by omega)
  have hn : (UInt32.ofNat p.length).toNat = p.length := by
    rw [UInt32.toNat_ofNat']
    exact Nat.mod_eq_of_lt (by omega)
  obtain ⟨hinv, hl⟩ := opened_inv h.wf (i := k + 1) (by omega) (htype ▸ typeOf_ne.1)
  obtain ⟨hgrows, -, -⟩ := hl.copyLoop (Inode.writePut_block _) le_rfl hcopy
  have hinum : (s'.entry 0).inum = k + 1 := by rw [hgrows.inum, opened_entry]
  -- What `writei` leaves.
  set d : Dinode := { (s'.entry 0).din with size := t[k].length + p.length } with hd
  set s₃ := (s'.setDin 0 d).iupdate 0 with hs₃
  have hself : s₃.entry 0 = { s'.entry 0 with din := d } := State.setDin_self s' 0 d
  have hdinode : s₃.dinode = update s.dinode (k + 1) d := by
    rw [hs₃, State.iupdate, State.setDin_self, ← hinum]
    exact congrArg (fun f => update f _ _) hgrows.dinode
  have hwrite : (opened s (k + 1)).writei layout 0 (fun i => p.getD i 0) (.ofNat t[k].length)
      (.ofNat p.length) (fun _ => true) 0 = some (s₃, (p.length : ℤ)) := by
    have hover : ¬UInt32.ofNat t[k].length + UInt32.ofNat p.length < UInt32.ofNat t[k].length := by
      rw [Inode.add_lt_self_iff, hoff, hn]
      omega
    unfold State.writei
    rw [opened_entry]
    dsimp only
    rw [if_neg (htype ▸ typeOf_ne.2), hfile.size, if_neg (not_or.mpr ⟨by omega, hover⟩), hoff, hn,
      if_neg (by omega)]
    refine (congrArg (Option.map _) hcopy).trans ?_
    rw [Option.map_some]
    dsimp only
    rw [if_neg (by decide), if_pos ⟨hpos, by omega⟩]
  obtain ⟨-, -, -, -, hbytes⟩ := hl.writei (by rw [opened_entry]; exact htype ▸ typeOf_ne.2)
    (by rw [hoff, opened_entry, hfile.size]) (by rw [hoff, hn]; exact hmax) (fun _ _ => rfl) hwrite
  obtain ⟨v', hv', hexact⟩ := hinv.writei hl (by rw [opened_entry]; exact ⟨Nat.one_pos, rfl⟩)
    opened_view hwrite
  have hx := hexact ⟨rfl, h.wf.covered⟩ fun _ _ _ _ hfail => Bool.noConfusion (hfail : true = false)
  obtain rfl := hx.agree
  have hview : s₃.view s.dinode 0 = s₃.dinode := by
    rw [State.view, hself, hdinode, hinum]
  rw [hview, hoff, hn, opened_view, opened_entry] at hbytes
  dsimp only at hbytes
  -- The references, in terms of the inodes on the disk.
  have hrefs : refAt layout s₃.dinode s₃.block = refAt layout (s'.view s.dinode 0) s'.block := by
    have hupdate : s₃.dinode = update (s'.view s.dinode 0) (s'.entry 0).inum d := by
      rw [State.view, update_idem, hdinode, hinum]
    rw [hupdate]
    exact Inode.refAt_of_addrs (by rw [State.view_self]) (by rw [State.view_self])
  have href : ∀ j, refAt layout s₃.dinode s₃.block (k + 1, j) = s'.ref layout s.dinode 0 j := by
    intro j
    rw [hrefs, State.ref, hinum]
  obtain ⟨img'', hwinode, hblock'', hinode'', hsim⟩ :=
    hloop.sim.winode (i := k + 1) (by omega) (din'.setSize (t[k].length + p.length))
  refine ⟨img'', { s₃ with entry := s.entry }, hwinode, ?_, ⟨⟨hv'.sound, h.wf.free⟩, hx.covered⟩, ?_,
    ?_, fun i hi => ?_, fun j hj => ?_, ?_⟩
  · refine hsim.congr rfl rfl ?_
    dsimp only
    rw [hdinode, DinodeWords.decode_setSize (by omega), ← hloop.din_eq, hgrows.dinode]
    rfl
  · rw [hinode'', hinode, h.freeinode, List.length_set]
  · rw [List.length_set]
    exact hroom
  · rw [List.length_set] at hi
    dsimp only
    rw [hdinode, update_of_ne (by omega)]
    exact h.unused i hi
  · rw [List.length_set] at hj
    by_cases hjk : k = j
    · subst hjk
      rw [List.getElem_set_self]
      have hentry := hgrows.entry
      rw [opened_entry] at hentry
      refine ⟨?_, ?_, ?_, fun x => ?_, fun bn => ?_, ?_⟩
      · dsimp only
        rw [hdinode, update_self, hd, hentry]
        exact htype
      · dsimp only
        rw [hdinode, update_self, hd, hentry]
        exact hfile.nlink
      · dsimp only
        rw [hdinode, update_self, hd, List.length_append]
      · refine (hbytes (k + 1) x).trans ?_
        have hold := hfile.bytes x
        rcases Nat.lt_or_ge x t[k].length with hx | hx
        · rw [if_neg (by omega), List.getD_append _ _ _ _ hx]
          exact hold
        · rw [List.getD_append_right _ _ _ _ hx]
          split
          · rfl
          · next hno =>
            rw [List.getD_eq_default _ _ (by omega)]
            refine hold.trans ?_
            rw [List.getD_eq_default _ _ hx]
      · rw [List.length_append]
        exact (href _).symm ▸ hloop.tight.blocks bn
      · rw [List.length_append]
        exact (href _).symm ▸ hloop.tight.indirect
    · rw [List.getElem_set_ne hjk]
      have hold := h.file j hj
      have hsame : s₃.dinode (j + 1) = s.dinode (j + 1) := by
        rw [hdinode, update_of_ne (by omega)]
      have hother : ∀ m, refAt layout s₃.dinode s₃.block (j + 1, m) =
          refAt layout s.dinode s.block (j + 1, m) := by
        intro m
        rw [hrefs, hgrows.inode _ (by rw [opened_entry]; dsimp only; omega), opened_view]
        rfl
      refine ⟨?_, ?_, ?_, fun x => ?_, fun bn => ?_, ?_⟩
      · exact hsame ▸ hold.type_eq
      · exact hsame ▸ hold.nlink
      · exact hsame ▸ hold.size
      · refine ((hbytes (j + 1) x).trans (if_neg (by omega))).trans ?_
        exact hold.bytes x
      · exact (hother _).symm ▸ hold.blocks bn
      · exact (hother _).symm ▸ hold.indirect
  · have hused := used_set hk (t[k] ++ p)
    rw [List.length_append] at hused
    have hfreeblock := h.freeblock
    omega

theorem iappend (hk : k < t.length) (hp : p ≠ []) :
    Outcome (img.iappend (k + 1) p) (t.set k (t[k] ++ p)) := by
  have hroom := h.room
  have hfile := h.file k hk
  have hloop := h.loop hk
  obtain ⟨hread, hdin⟩ := h.sim.rinode (i := k + 1) (by omega)
  have hsize : (img.dinode (k + 1)).size = t[k].length := by
    rw [← hfile.size, hdin]
    rfl
  have hle := h.fits.size_le t[k] (List.getElem_mem hk)
  have hused := used_set hk (t[k] ++ p)
  rw [List.length_append] at hused
  have hfree := h.freeblock
  rw [Img.iappend, hread, Option.bind_some, hsize]
  by_cases hfits : t[k].length + p.length ≤ MAXFILE * BSIZE ∧
      img.freeblock + blocks (t[k].length + p.length) ≤ FSSIZE + blocks t[k].length
  · left
    obtain ⟨img', din', s', happend, hcopy, hloop', hfree', hinode'⟩ :=
      hloop.append (p := fun i => p.getD i 0) (i := 0) (Nat.add_zero _).symm le_rfl hfits.1 hfits.2
    obtain ⟨img'', s'', hwinode, hbuilt⟩ :=
      h.append_built hk hp hfits.1 hcopy hloop' hfree' hinode'
    refine ⟨img'', s'', ?_, hbuilt⟩
    rw [happend, Option.bind_some]
    exact hwinode
  · right
    constructor
    · rw [Option.bind_eq_none_iff]
      intro r hr
      exact absurd (hloop.of_append le_rfl hle hr) hfits
    · intro hc
      refine hfits ⟨?_, ?_⟩
      · have hmem := hc.size_le (t[k] ++ p) (List.mem_set hk _)
        rwa [List.length_append] at hmem
      · have hle' := hc.used_le
        omega

end Built

end KThreads.Mkfs

namespace KThreads.Mkfs

open Function (update update_of_ne update_self)
open Inode (BSIZE NDIRECT MAXFILE Dinode State refAt fileByte byteAt copyIn)

variable {img img' : Img} {s s' : State} {t c' : List (List UInt8)} {b p r : List UInt8}
  {f : HostFile} {files : List HostFile} {i k n : ℕ}

/-- The names of some files with their inodes, the first of which is `n`. -/
def numbered : ℕ → List HostFile → List (ℕ × List UInt8)
  | _, [] => []
  | n, f :: files => (n, f.stripped) :: numbered (n + 1) files

/-- The entries of the root directory. -/
def rootEntries (files : List HostFile) : List (ℕ × List UInt8) :=
  (ROOTINO, [46]) :: (ROOTINO, [46, 46]) :: numbered 2 files

/-- Entries of a directory as bytes. -/
def direntBytes (l : List (ℕ × List UInt8)) : List UInt8 := l.flatMap fun x => dirent x.1 x.2

/-- The contents of the root directory. -/
def rootBytes (files : List HostFile) : List UInt8 := direntBytes (rootEntries files)

/-- The contents of the inodes. -/
def contents (files : List HostFile) : List (List UInt8) :=
  rootBytes files :: files.map HostFile.bytes

/-- The assertion holds, and the file can be opened. -/
def HostFile.Named (f : HostFile) : Prop := 47 ∉ f.name ∧ f.name ≠ []

@[simp] theorem length_dirent : (dirent n b).length = 16 := by
  simp [dirent, padded, DIRSIZ]

@[simp] theorem direntBytes_cons {x : ℕ × List UInt8} {l : List (ℕ × List UInt8)} :
    direntBytes (x :: l) = dirent x.1 x.2 ++ direntBytes l := rfl

theorem length_direntBytes (l : List (ℕ × List UInt8)) : (direntBytes l).length = 16 * l.length := by
  induction l with
  | nil => rfl
  | cons x l ih =>
    rw [direntBytes_cons, List.length_append, length_dirent, ih, List.length_cons]
    omega

@[simp] theorem length_numbered : (numbered n files).length = files.length := by
  induction files generalizing n with
  | nil => rfl
  | cons f files ih => rw [numbered, List.length_cons, ih, List.length_cons]

@[simp] theorem length_rootBytes : (rootBytes files).length = 16 * (files.length + 2) := by
  rw [rootBytes, length_direntBytes, rootEntries, List.length_cons, List.length_cons, length_numbered]

theorem used_append : used (t ++ c') = used t + (c'.map fun b => blocks b.length).sum := by
  rw [used, used, List.map_append, List.sum_append]
  omega

theorem Fits.of_append (h : Fits (t ++ c')) : Fits t := by
  refine ⟨fun b hb => h.size_le b (List.mem_append_left _ hb), ?_⟩
  have hle := h.used_le
  rw [used_append] at hle
  omega

theorem Fits.of_head (h : Fits ((b ++ p) :: t)) : Fits (b :: t) :=
  Fits.of_set (t := b :: t) (k := 0) (Nat.succ_pos _) h

namespace Built

variable (h : Built img t s)
include h

theorem ialloc {type : UInt32} (hroom : t.length + 1 < layout.inodes)
    (htype : fileType (type.toNat % 65536) = typeOf (t.length + 1)) :
    ∃ img' s', img.ialloc type = some (img', t.length + 1) ∧ Built img' (t ++ [[]]) s' := by
  set w : DinodeWords := fun w => if w.val = 0 then type else if w.val = 1 then 65536 else 0 with hw
  have haddr : ∀ k, w.addr k = 0 := by
    intro k
    rw [DinodeWords.addr]
    split
    · rw [hw]
      dsimp only
      rw [if_neg (by omega), if_neg (by omega)]
      rfl
    · rfl
  have hlink : w.decode.nlink = 1 := by
    have hone : w 1 = 65536 := rfl
    rw [DinodeWords.decode, hone]
    rfl
  have hsim : Sim { img with freeinode := img.freeinode + 1 } s :=
    ⟨h.sim.length, h.sim.nmeta_le, h.sim.le_size, h.sim.fresh, h.sim.bit, h.sim.block, h.sim.dinode⟩
  obtain ⟨img', hwinode, hblock, hinode, hsim'⟩ := hsim.winode (i := t.length + 1) hroom w
  have hfree := h.unused (t.length + 1) (.inr (Nat.lt_succ_self _))
  obtain ⟨hinv, hrefs⟩ := h.wf.toMounted.inv.allocate hfree (d := w.decode) rfl haddr
  have hnone : ∀ j, refAt layout (update s.dinode (t.length + 1) w.decode) s.block
      (t.length + 1, j) = none := by
    intro j
    rw [hrefs, refAt, if_neg]
    exact fun hall => hall.2.1 hfree
  refine ⟨img', _, ?_, hsim', ⟨⟨hinv.sound, h.wf.free⟩, ?_⟩, ?_, ?_, fun i hi => ?_, fun j hj => ?_, ?_⟩
  · rw [Img.ialloc]
    rw [h.freeinode] at hwinode ⊢
    rw [hwinode]
    rfl
  · dsimp only
    rw [hrefs]
    exact h.wf.covered
  · rw [hinode, List.length_append, List.length_singleton]
    dsimp only
    rw [h.freeinode]
  · rw [List.length_append, List.length_singleton]
    exact hroom
  · rw [List.length_append, List.length_singleton] at hi
    dsimp only
    rw [update_of_ne (by omega)]
    exact h.unused i (by omega)
  · rw [List.length_append, List.length_singleton] at hj
    rcases Nat.lt_succ_iff_lt_or_eq.mp hj with hlt | rfl
    · rw [List.getElem_append_left hlt]
      have hold := h.file j hlt
      have hsame : update s.dinode (t.length + 1) w.decode (j + 1) = s.dinode (j + 1) :=
        update_of_ne (by omega) _ _
      refine ⟨(congrArg Dinode.type hsame).trans hold.type_eq,
        (congrArg Dinode.nlink hsame).trans hold.nlink, (congrArg Dinode.size hsame).trans hold.size,
        fun x => ?_, fun bn => ?_, ?_⟩
      · rw [← hold.bytes x]
        exact Inode.fileByte_congr hsame x
      · rw [← hold.blocks bn, hrefs]
      · rw [← hold.indirect, hrefs]
    · have hself : update s.dinode (t.length + 1) w.decode (t.length + 1) = w.decode :=
        update_self ..
      rw [List.getElem_append_right le_rfl]
      simp only [Nat.sub_self, List.getElem_cons_zero]
      refine ⟨?_, ?_, ?_, fun x => ?_, fun bn => ?_, ?_⟩
      · dsimp only
        rw [hself]
        exact htype
      · dsimp only
        rw [hself]
        exact hlink
      · dsimp only
        rw [hself]
        rfl
      · rw [fileByte, hnone]
        rfl
      · rw [hnone]
        simp
      · rw [hnone]
        simp
  · rw [hblock, used_append_nil]
    exact h.freeblock

theorem pieces {ps : List (List UInt8)} (hk : k < t.length) (hps : ∀ p ∈ ps, p ≠ []) :
    Outcome (ps.foldlM (fun img p => img.iappend (k + 1) p) img) (t.set k (t[k] ++ ps.flatten)) := by
  induction ps generalizing img t s with
  | nil =>
    left
    refine ⟨img, s, rfl, ?_⟩
    rw [List.flatten_nil, List.append_nil, List.set_getElem_self]
    exact h
  | cons p ps ih =>
    rw [List.foldlM_cons, List.flatten_cons, ← List.append_assoc]
    refine (h.iappend hk (hps p List.mem_cons_self)).bind (Fits.of_set hk) fun img' s' h' => ?_
    have hk' : k < (t.set k (t[k] ++ p)).length := by
      rw [List.length_set]
      exact hk
    have hrest := ih h' hk' fun q hq => hps q (List.mem_cons_of_mem _ hq)
    rwa [List.getElem_set_self, List.set_set] at hrest

end Built

/-- The image with its first files. -/
def volume (r : List UInt8) (n : ℕ) (fs : List (List UInt8)) (files : List HostFile) :
    List (List UInt8) :=
  (r ++ direntBytes (numbered n files)) :: (fs ++ files.map HostFile.bytes)

theorem fits_volume {fs : List (List UInt8)} (h : Fits (volume r n fs files)) : Fits (r :: fs) :=
  Fits.of_append (t := r :: fs) h.of_head

theorem Built.addFile {fs : List (List UInt8)} (h : Built img (r :: fs) s) (hnamed : f.Named)
    (hroom : fs.length + 2 < layout.inodes) :
    Outcome (img.addFile ROOTINO f)
      ((r ++ dirent (fs.length + 2) f.stripped) :: (fs ++ [f.bytes])) := by
  obtain ⟨img₁, s₁, halloc, h₁⟩ : ∃ img' s', img.ialloc 2 = some (img', fs.length + 2) ∧
      Built img' (r :: fs ++ [[]]) s' := by
    refine h.ialloc (by rw [List.length_cons]; exact hroom) ?_
    rw [List.length_cons, typeOf, if_neg (by rw [ROOTINO]; omega)]
    rfl
  rw [Img.addFile, if_neg (not_or.mpr hnamed), halloc, Option.bind_some]
  dsimp only
  have hne : dirent (fs.length + 2) f.stripped ≠ [] := by
    intro hnil
    have hlen := congrArg List.length hnil
    rw [length_dirent] at hlen
    cases hlen
  refine (h₁.iappend (k := 0) (by simp) hne).bind (fun hc => ?_) fun img₂ s₂ h₂ => ?_
  · exact fits_append_nil.mpr
      (Fits.of_append (t := (r ++ dirent (fs.length + 2) f.stripped) :: fs) hc)
  · have hpieces := h₂.pieces (k := fs.length + 1) (by simp) fun p hp =>
      List.length_pos_iff.mp (f.pieces_pos p hp).1
    simpa [List.set_append_right, HostFile.bytes] using hpieces

theorem Built.addFiles {fs : List (List UInt8)} (h : Built img (r :: fs) s)
    (hnamed : ∀ f ∈ files, f.Named) (hroom : fs.length + files.length + 1 < layout.inodes) :
    Outcome (files.foldlM (fun img f => img.addFile ROOTINO f) img)
      (volume r (fs.length + 2) fs files) := by
  induction files generalizing img r fs s with
  | nil =>
    left
    refine ⟨img, s, rfl, ?_⟩
    simpa [volume, numbered, direntBytes] using h
  | cons f files ih =>
    rw [List.foldlM_cons]
    rw [List.length_cons] at hroom
    have hvolume : volume r (fs.length + 2) fs (f :: files) =
        volume (r ++ dirent (fs.length + 2) f.stripped) (fs.length + 3) (fs ++ [f.bytes]) files := by
      simp [volume, numbered]
    rw [hvolume]
    refine (h.addFile (hnamed f List.mem_cons_self) (by omega)).bind fits_volume
      fun img' s' h' => ?_
    have hrest := ih h' (fun g hg => hnamed g (List.mem_cons_of_mem _ hg))
      (by rw [List.length_append, List.length_singleton]; omega)
    rwa [List.length_append, List.length_singleton] at hrest

theorem built_blank : ∃ s, Built (Img.blank.wsect 1 Img.superblock) [] s := by
  set img := Img.blank.wsect 1 Img.superblock with himg
  have hsector : ∀ b, b ≠ 1 → img.sector b = fun _ => 0 := fun b hb => update_of_ne hb _ _
  let s : State := ⟨fun b => decide (b < img.freeblock),
    fun i => if i < layout.inodes then (img.dinode i).decode else noInode,
    fun b => if b < nmeta then fun _ => 0 else img.sector b, fun _ => ⟨0, 0, false, noInode⟩⟩
  have hfree : ∀ i, (s.dinode i).type = .free := by
    intro i
    dsimp only [s]
    split
    · have hzero : img.dinode i = fun _ => 0 := by
        have hne : i / IPB + inodestart ≠ 1 := by
          have hlt : 1 < inodestart := by decide
          exact (hlt.trans_le (Nat.le_add_left _ _)).ne'
        rw [Img.dinode, hsector _ hne]
        rfl
      rw [hzero]
      rfl
    · rfl
  have hnone : ∀ p, refAt layout s.dinode s.block p = none := by
    intro p
    rw [refAt, if_neg]
    exact fun hall => hall.2.1 (hfree _)
  refine ⟨s, ⟨rfl, le_rfl, by decide, fun b hb => hsector b ?_, rfl, rfl, rfl⟩,
    ⟨⟨⟨⟨fun p _ _ hp => ?_, fun p _ hp => ?_, fun p _ hp => ?_⟩, fun b hb => decide_eq_true hb,
      fun i _ hno => absurd (hfree i) hno, fun i _ hno => absurd (hfree i) hno⟩, fun _ => rfl⟩,
      fun b hb hbit => absurd (of_decide_eq_true hbit) (Nat.not_lt.mpr hb.1)⟩,
    rfl, by decide, fun i _ => hfree i, fun k hk => absurd hk (Nat.not_lt_zero k), rfl⟩
  · rintro rfl
    exact absurd hb (by decide)
  all_goals
    rw [hnone] at hp
    cases hp

theorem outcome_build (hnamed : ∀ f ∈ files, f.Named) (hroom : files.length + 1 < layout.inodes) :
    Outcome (build files) (contents files) := by
  obtain ⟨s, h⟩ := built_blank
  obtain ⟨img₁, s₁, halloc, h₁⟩ : ∃ img' s',
      (Img.blank.wsect 1 Img.superblock).ialloc 1 = some (img', ROOTINO) ∧ Built img' [[]] s' :=
    h.ialloc (by decide) rfl
  rw [build, halloc, Option.bind_some]
  dsimp only
  rw [if_pos rfl]
  have hcontents : contents files = volume (dirent ROOTINO [46] ++ dirent ROOTINO [46, 46]) 2 [] files := by
    simp [contents, volume, rootBytes, rootEntries]
  rw [hcontents]
  refine (h₁.iappend (k := 0) (p := dirent ROOTINO [46]) (by simp) (by decide)).bind (fun hc => ?_)
    fun img₂ s₂ h₂ => ?_
  · exact (fits_volume hc).of_head
  · refine (h₂.iappend (k := 0) (p := dirent ROOTINO [46, 46]) (by simp) (by decide)).bind fits_volume
      fun img₃ s₃ h₃ => ?_
    have hroot : Built img₃ [dirent ROOTINO [46] ++ dirent ROOTINO [46, 46]] s₃ := h₃
    exact hroot.addFiles hnamed (by simpa using hroom)

theorem named_of_addFiles (h : files.foldlM (fun img f => img.addFile i f) img = some img') :
    ∀ f ∈ files, f.Named := by
  induction files generalizing img with
  | nil => exact nofun
  | cons f files ih =>
    rw [List.foldlM_cons] at h
    obtain ⟨img₁, hfirst, hrest⟩ := Option.bind_eq_some_iff.mp h
    intro g hg
    rcases List.mem_cons.mp hg with rfl | hg
    · by_contra hno
      rw [Img.addFile, if_pos (by rw [HostFile.Named] at hno; tauto)] at hfirst
      cases hfirst
    · exact ih hrest g hg

theorem of_build (h : build files = some img) : ∃ img₁ img₂ img₃,
    (Img.blank.wsect 1 Img.superblock).ialloc 1 = some (img₁, ROOTINO) ∧
      img₁.iappend ROOTINO (dirent ROOTINO [46]) = some img₂ ∧
      img₂.iappend ROOTINO (dirent ROOTINO [46, 46]) = some img₃ ∧
      files.foldlM (fun img f => img.addFile ROOTINO f) img₃ = some img := by
  obtain ⟨⟨img₁, root⟩, halloc, h⟩ := Option.bind_eq_some_iff.mp h
  dsimp only at h
  split at h
  · next hroot =>
    subst hroot
    obtain ⟨img₂, hfirst, h⟩ := Option.bind_eq_some_iff.mp h
    obtain ⟨img₃, hsecond, h⟩ := Option.bind_eq_some_iff.mp h
    exact ⟨img₁, img₂, img₃, halloc, hfirst, hsecond, h⟩
  · cases h

theorem built_of_build (h : build files = some img) (hroom : files.length + 1 < layout.inodes) :
    ∃ s, Built img (contents files) s := by
  obtain ⟨_, _, _, -, -, -, hfold⟩ := of_build h
  rcases outcome_build (named_of_addFiles hfold) hroom with ⟨img', s, hbuild, hbuilt⟩ | ⟨hnone, -⟩
  · rw [h] at hbuild
    cases hbuild
    exact ⟨s, hbuilt⟩
  · rw [h] at hnone
    cases hnone

theorem Built.root (h : Built img (contents files) s) : Holds s ROOTINO .dir (rootBytes files) :=
  h.file 0 (Nat.succ_pos _)

theorem Built.host (h : Built img (contents files) s) (hk : k < files.length) :
    Holds s (k + 2) .file files[k].bytes := by
  have hlt : k + 1 < (contents files).length := by
    rw [contents, List.length_cons, List.length_map]
    omega
  have hfile := h.file (k + 1) hlt
  simp only [contents, List.getElem_cons_succ, List.getElem_map] at hfile
  rwa [typeOf, if_neg (by rw [ROOTINO]; omega)] at hfile

theorem testBit_bitmap {used b : ℕ} (hused : used ≤ BSIZE * 8) (hb : b < BSIZE * 8) :
    (byteAt (Img.bitmap used) (b / 8)).toNat.testBit (b % 8) = decide (b < used) := by
  have hdiv : b / 8 < BSIZE := Nat.div_lt_of_lt_mul (by rw [Nat.mul_comm]; exact hb)
  induction used with
  | zero => simp [Img.bitmap, Inode.byteAt_zero]
  | succ used ih =>
    have hrest := ih (Nat.le_of_succ_le hused)
    have hstep : Img.bitmap (used + 1) = copyIn (Img.bitmap used) (used / 8) 1 fun _ =>
        byteAt (Img.bitmap used) (used / 8) ||| 1 <<< (used % 8).toUInt8 := by
      rw [Img.bitmap, List.range_succ, List.foldl_append]
      rfl
    have hshift : ∀ k < 8, ((1 : UInt8) <<< k.toUInt8).toNat = 2 ^ k := by decide
    rw [hstep, Inode.byteAt_copyIn _ _ _ _ hdiv]
    split
    · next hsame =>
      have heq : used / 8 = b / 8 := by omega
      rw [UInt8.toNat_or, Nat.testBit_or, hshift _ (Nat.mod_lt _ (by decide)), Nat.testBit_two_pow,
        heq, hrest, ← Bool.decide_or, decide_eq_decide]
      omega
    · next hother =>
      rw [hrest, decide_eq_decide]
      omega

/-- The size of the root directory in the end. -/
def rounded (n : ℕ) : ℕ := (n / BSIZE + 1) * BSIZE

theorem Built.finish {fs : List (List UInt8)} (h : Built img (r :: fs) s) :
    ∃ img', (img.fixSize ROOTINO).bind Img.balloc = some img' ∧
      mount layout.inodes img' = { s with
        dinode := update s.dinode ROOTINO { s.dinode ROOTINO with size := rounded r.length }
        entry := fun _ => ⟨0, 0, false, noInode⟩ } := by
  have hfile := h.file 0 (Nat.succ_pos _)
  have hle := h.fits.size_le r List.mem_cons_self
  obtain ⟨hread, hdin⟩ := h.sim.rinode (i := ROOTINO) (by decide)
  have hsize : (img.dinode ROOTINO).size = r.length := by
    have hroot := hfile.size
    rw [show 0 + 1 = ROOTINO from rfl, hdin] at hroot
    exact hroot
  have hsmall : rounded r.length < 2 ^ 32 := by
    simp only [rounded, MAXFILE, BSIZE, NDIRECT, Inode.NINDIRECT] at *
    omega
  obtain ⟨img₁, hwinode, hblock, -, hsim⟩ :=
    h.sim.winode (i := ROOTINO) (by decide) ((img.dinode ROOTINO).setSize (rounded r.length))
  have hfree : img₁.freeblock < BSIZE * 8 := hsim.le_size.trans_lt (by decide)
  have hbitmap : bmapstart < FSSIZE := by decide
  refine ⟨{ img₁ with sector := update img₁.sector bmapstart (Img.bitmap img₁.freeblock) }, ?_, ?_⟩
  · rw [Img.fixSize, hread, Option.bind_some, hsize]
    change (img.winode _ (DinodeWords.setSize _ (rounded r.length))).bind _ = _
    rw [hwinode, Option.bind_some, Img.balloc, if_pos hfree, Img.wsect_of_lt hsim.length hbitmap]
  · rw [DinodeWords.decode_setSize hsmall, ← hdin] at hsim
    have hbit : s.bit = fun b => decide (b < img₁.freeblock) := hsim.bit
    have hblocks : s.block = fun b => if b < nmeta then fun _ => 0 else img₁.sector b := hsim.block
    have hdinode := hsim.dinode
    dsimp only at hdinode
    rw [mount, hdinode, hbit, hblocks]
    congr 1
    · funext b
      dsimp only
      rw [update_self]
      by_cases hb : b < FSSIZE
      · have hlt : b < BSIZE * 8 := hb.trans (by decide)
        rw [testBit_bitmap hfree.le hlt, decide_eq_true hb, Bool.true_and]
      · have hge : ¬b < img₁.freeblock := fun hlt => hb (hlt.trans_le hsim.le_size)
        rw [decide_eq_false hb, decide_eq_false hge, Bool.false_and]
    · funext i
      split
      · next hi =>
        have hne : i / IPB + inodestart ≠ bmapstart := by
          simp only [layout, ninodeblocks, NINODES, IPB, BSIZE, inodestart, bmapstart] at *
          omega
        simp only [Img.dinode, update_of_ne hne]
      · rfl
    · funext b
      split
      · rfl
      · next hb =>
        have hne : b ≠ bmapstart := by
          rintro rfl
          exact hb (by decide)
        exact update_of_ne hne _ _

end KThreads.Mkfs
