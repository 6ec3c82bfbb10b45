import KThreads.Mkfs.Volume

/-!
# The images that `mkfs` accepts

The counters of `mkfs` are checked late or not at all: the end of the image stops the counter of
the blocks, and nothing stops that of the inodes. Names are shortened and not compared. So an image
is well formed if its inodes are below `ninodes` and its names differ.
-/

namespace KThreads.Mkfs

open Function (update update_self)
open Inode (BSIZE NDIRECT State refAt fileByte)

variable {img img' : Img} {s s' : State} {files : List HostFile} {i k n : ℕ}

/-- The entry `k` of a directory with some bytes. -/
def direntAt (bytes : ℕ → UInt8) (k : ℕ) : ℕ × List UInt8 :=
  ((bytes (16 * k)).toNat + 256 * (bytes (16 * k + 1)).toNat,
    (List.range DIRSIZ).map fun i => bytes (16 * k + 2 + i))

theorem getD_dirent_name {name : List UInt8} (hi : i < DIRSIZ) :
    (dirent n name).getD (2 + i) 0 = name.getD i 0 := by
  rw [dirent, List.getD_append_right _ _ _ _ (by simp)]
  simp [padded, List.getD_eq_getElem?_getD, hi]

theorem direntAt_direntBytes (l : List (ℕ × List UInt8)) (k : ℕ) :
    direntAt (fun x => (direntBytes l).getD x 0) k =
      if h : k < l.length then (l[k].1 % 65536, padded l[k].2) else (0, padded []) := by
  induction l generalizing k with
  | nil => simp [direntAt, direntBytes, padded]
  | cons x l ih =>
    cases k with
    | zero =>
      have hlow : ∀ j, j < 16 → (direntBytes (x :: l)).getD j 0 = (dirent x.1 x.2).getD j 0 :=
        fun j hj => by rw [direntBytes_cons, List.getD_append _ _ _ _ (by rw [length_dirent]; exact hj)]
      have hinum : ((direntBytes (x :: l)).getD (16 * 0) 0).toNat +
          256 * ((direntBytes (x :: l)).getD (16 * 0 + 1) 0).toNat = x.1 % 65536 := by
        rw [Nat.mul_zero, hlow 0 (by decide), hlow (0 + 1) (by decide)]
        simp [dirent]
        omega
      have hname : (List.range DIRSIZ).map (fun i => (direntBytes (x :: l)).getD (16 * 0 + 2 + i) 0) =
          padded x.2 := by
        refine List.map_congr_left fun i hi => ?_
        have hlt := List.mem_range.mp hi
        rw [Nat.mul_zero, Nat.zero_add, hlow _ (by simp only [DIRSIZ] at hlt; omega),
          getD_dirent_name hlt]
      rw [dif_pos (by rw [List.length_cons]; exact Nat.succ_pos _), List.getElem_cons_zero, direntAt,
        hinum, hname]
    | succ k =>
      have hhigh : ∀ j, (direntBytes (x :: l)).getD (16 * (k + 1) + j) 0 =
          (direntBytes l).getD (16 * k + j) 0 := by
        intro j
        rw [direntBytes_cons, List.getD_append_right _ _ _ _ (by rw [length_dirent]; omega),
          length_dirent]
        congr 1
        omega
      have hsame : direntAt (fun x' => (direntBytes (x :: l)).getD x' 0) (k + 1) =
          direntAt (fun x' => (direntBytes l).getD x' 0) k := by
        simp only [direntAt, Nat.add_assoc, hhigh]
        rw [← Nat.add_zero (16 * (k + 1)), hhigh, Nat.add_zero]
      rw [hsame, ih]
      simp only [List.length_cons, Nat.add_lt_add_iff_right, List.getElem_cons_succ]

/-- The entries in use. -/
def direntsOf (bytes : ℕ → UInt8) (size : ℕ) : List (ℕ × List UInt8) :=
  ((List.range (size / 16)).map (direntAt bytes)).filter fun x => x.1 ≠ 0

theorem direntsOf_direntBytes {l : List (ℕ × List UInt8)} {size : ℕ}
    (hl : ∀ x ∈ l, 0 < x.1 ∧ x.1 < 65536) (hsize : 16 * l.length ≤ size) :
    direntsOf (fun x => (direntBytes l).getD x 0) size = l.map fun x => (x.1, padded x.2) := by
  have hsplit : List.range (size / 16) =
      List.range l.length ++ (List.range (size / 16 - l.length)).map (l.length + ·) := by
    rw [← List.range_add]
    congr 1
    omega
  have hfirst : (List.range l.length).map (direntAt fun x => (direntBytes l).getD x 0) =
      l.map fun x => (x.1, padded x.2) := by
    refine List.ext_getElem (by simp) fun k h₁ h₂ => ?_
    have hk : k < l.length := by simpa using h₁
    have hlt := (hl _ (List.getElem_mem hk)).2
    rw [List.getElem_map, List.getElem_map, List.getElem_range, direntAt_direntBytes, dif_pos hk,
      Nat.mod_eq_of_lt hlt]
  rw [direntsOf, hsplit, List.map_append, List.filter_append, hfirst,
    List.filter_eq_self.mpr, List.filter_eq_nil_iff.mpr, List.append_nil]
  · intro x hx
    obtain ⟨k, hk, rfl⟩ := List.mem_map.mp hx
    obtain ⟨j, -, rfl⟩ := List.mem_map.mp hk
    rw [direntAt_direntBytes, dif_neg (by omega)]
    simp
  · intro x hx
    obtain ⟨y, hy, rfl⟩ := List.mem_map.mp hx
    simpa using (hl y hy).1.ne'

theorem numbered_bounds {x : ℕ × List UInt8} (hx : x ∈ numbered n files) :
    n ≤ x.1 ∧ x.1 < n + files.length := by
  induction files generalizing n with
  | nil => cases hx
  | cons f files ih =>
    rw [List.length_cons]
    rcases List.mem_cons.mp hx with rfl | hx
    · dsimp only
      omega
    · have hbounds := ih hx
      omega

theorem rootEntries_bounds (hroom : files.length + 1 < layout.inodes) {x : ℕ × List UInt8}
    (hx : x ∈ rootEntries files) : 0 < x.1 ∧ x.1 < 65536 := by
  have hsmall : layout.inodes < 65536 := by decide
  rcases List.mem_cons.mp hx with rfl | hx
  · decide
  rcases List.mem_cons.mp hx with rfl | hx
  · decide
  have hbounds := numbered_bounds hx
  omega

/-- Blocks may have been allocated. -/
def Img.Takes (img img' : Img) : Prop :=
  img'.freeinode = img.freeinode ∧ img.freeblock ≤ img'.freeblock

theorem Img.Takes.trans {img₁ img₂ img₃ : Img} (h : img₁.Takes img₂) (h' : img₂.Takes img₃) :
    img₁.Takes img₃ :=
  ⟨h'.1.trans h.1, h.2.trans h'.2⟩

theorem Img.takes_winode {d : DinodeWords} (h : img.winode i d = some img') : img.Takes img' := by
  obtain ⟨buf, -, rfl⟩ := Option.map_eq_some_iff.mp h
  exact ⟨rfl, le_rfl⟩

theorem Img.takes_blockOf {din : DinodeWords} {y : Img × DinodeWords × ℕ}
    (h : img.blockOf din n = some y) : img.Takes y.1 := by
  have henter : ∀ k, img.Takes (img.enter din k).1 := by
    intro k
    rw [Img.enter]
    split
    · exact ⟨rfl, Nat.le_succ _⟩
    · exact ⟨rfl, le_rfl⟩
  rw [Img.blockOf] at h
  split at h
  · cases h
    exact henter n
  · obtain ⟨z, hz, rfl⟩ := Option.map_eq_some_iff.mp h
    obtain ⟨buf, -, rfl⟩ := Option.map_eq_some_iff.mp hz
    refine (henter NDIRECT).trans ?_
    dsimp only
    split
    · exact ⟨rfl, Nat.le_succ _⟩
    · exact ⟨rfl, le_rfl⟩

theorem Img.takes_appendLoop {p : ℕ → UInt8} {fuel off left done : ℕ} {din : DinodeWords}
    {y : Img × DinodeWords × ℕ} (h : Img.appendLoop p fuel img din off left done = some y) :
    img.Takes y.1 := by
  induction fuel generalizing img din off left done with
  | zero =>
    cases h
    exact ⟨rfl, le_rfl⟩
  | succ fuel ih =>
    rw [Img.appendLoop] at h
    split at h
    · cases h
      exact ⟨rfl, le_rfl⟩
    · split at h
      · obtain ⟨x, hx, h⟩ := Option.bind_eq_some_iff.mp h
        obtain ⟨buf, -, h⟩ := Option.bind_eq_some_iff.mp h
        have hwrite : ∀ sec buf, x.1.Takes (x.1.wsect sec buf) := fun _ _ => ⟨rfl, le_rfl⟩
        exact ((Img.takes_blockOf hx).trans (hwrite _ _)).trans (ih h)
      · cases h

theorem Img.takes_iappend {p : List UInt8} (h : img.iappend i p = some img') : img.Takes img' := by
  obtain ⟨din, -, h⟩ := Option.bind_eq_some_iff.mp h
  obtain ⟨x, hx, h⟩ := Option.bind_eq_some_iff.mp h
  exact (Img.takes_appendLoop hx).trans (Img.takes_winode h)

theorem Img.takes_pieces {ps : List (List UInt8)}
    (h : ps.foldlM (fun img p => img.iappend i p) img = some img') : img.Takes img' := by
  induction ps generalizing img with
  | nil =>
    cases h
    exact ⟨rfl, le_rfl⟩
  | cons p ps ih =>
    rw [List.foldlM_cons] at h
    obtain ⟨img₁, h₁, h⟩ := Option.bind_eq_some_iff.mp h
    exact (Img.takes_iappend h₁).trans (ih h)

theorem Img.takes_ialloc {type : UInt32} {y : Img × ℕ} (h : img.ialloc type = some y) :
    Img.Takes { img with freeinode := img.freeinode + 1 } y.1 := by
  obtain ⟨img', hw, rfl⟩ := Option.map_eq_some_iff.mp h
  exact Img.takes_winode hw

theorem Img.takes_addFile {f : HostFile} (h : img.addFile i f = some img') :
    Img.Takes { img with freeinode := img.freeinode + 1 } img' := by
  rw [Img.addFile] at h
  split at h
  · cases h
  · obtain ⟨x, hx, h⟩ := Option.bind_eq_some_iff.mp h
    obtain ⟨img₁, h₁, h⟩ := Option.bind_eq_some_iff.mp h
    exact ((Img.takes_ialloc hx).trans (Img.takes_iappend h₁)).trans (Img.takes_pieces h)

theorem Img.takes_addFiles (h : files.foldlM (fun img f => img.addFile i f) img = some img') :
    Img.Takes { img with freeinode := img.freeinode + files.length } img' := by
  induction files generalizing img with
  | nil =>
    cases h
    exact ⟨rfl, le_rfl⟩
  | cons f files ih =>
    rw [List.foldlM_cons] at h
    obtain ⟨img₁, h₁, h⟩ := Option.bind_eq_some_iff.mp h
    obtain ⟨hinode₁, hblock₁⟩ := Img.takes_addFile h₁
    obtain ⟨hinode, hblock⟩ := ih h
    dsimp only at *
    refine ⟨?_, hblock₁.trans hblock⟩
    rw [hinode, hinode₁, List.length_cons]
    dsimp only
    omega

theorem of_mkfs (h : mkfs files = some img) : ∃ img₀, build files = some img₀ ∧ img₀.Takes img ∧
    img.freeblock = img₀.freeblock ∧ img.freeblock < BSIZE * 8 ∧
    img.sector bmapstart = Img.bitmap img.freeblock := by
  obtain ⟨img₀, hbuild, h⟩ := Option.bind_eq_some_iff.mp h
  obtain ⟨img₁, hfix, hballoc⟩ := Option.bind_eq_some_iff.mp h
  obtain ⟨din, -, hfix⟩ := Option.bind_eq_some_iff.mp hfix
  have hblock : img₁.freeblock = img₀.freeblock := by
    obtain ⟨buf, -, rfl⟩ := Option.map_eq_some_iff.mp hfix
    rfl
  rw [Img.balloc] at hballoc
  split at hballoc
  · next hlt =>
    cases hballoc
    refine ⟨img₀, hbuild, (Img.takes_winode hfix).trans ⟨rfl, le_rfl⟩, hblock, hlt, ?_⟩
    have hsector : sectorOf bmapstart = bmapstart := sectorOf_of_le (by decide)
    simp only [Img.wsect, hsector, update_self]
  · cases hballoc

theorem freeinode_mkfs (h : mkfs files = some img) : img.freeinode = files.length + 2 := by
  obtain ⟨img₀, hbuild, hend, -⟩ := of_mkfs h
  obtain ⟨img₁, img₂, img₃, halloc, hfirst, hsecond, hfold⟩ := of_build hbuild
  rw [hend.1, (Img.takes_addFiles hfold).1]
  dsimp only
  rw [(Img.takes_iappend hsecond).1, (Img.takes_iappend hfirst).1, (Img.takes_ialloc halloc).1]
  change 2 + files.length = _
  omega

section

/-- What the kernel assumes of an image. -/
structure Proper (img : Img) : Prop where
  /-- The inodes that were used are below `sb.ninodes`. -/
  inodes : ∀ i, 0 < i → i < img.freeinode → i < NINODES
  /-- The blocks of the inodes are data blocks. -/
  data : ∀ p b, refAt layout (mount layout.inodes img).dinode (mount layout.inodes img).block p =
    some b → nmeta ≤ b ∧ b < FSSIZE
  once : ∀ p q b,
    refAt layout (mount layout.inodes img).dinode (mount layout.inodes img).block p = some b →
    refAt layout (mount layout.inodes img).dinode (mount layout.inodes img).block q = some b → p = q
  /-- The bits of the data blocks are those of the blocks that an inode refers to. -/
  bitmap : ∀ b, nmeta ≤ b → b < FSSIZE → ((mount layout.inodes img).bit b = true ↔
    ∃ p, refAt layout (mount layout.inodes img).dinode (mount layout.inodes img).block p = some b)
  names : ((direntsOf (fileByte layout (mount layout.inodes img).dinode
    (mount layout.inodes img).block ROOTINO)
    ((mount layout.inodes img).dinode ROOTINO).size).map Prod.snd).Nodup

theorem mount_mkfs (h : mkfs files = some img) (hroom : files.length + 1 < layout.inodes) :
    ∃ img₀ s, Built img₀ (contents files) s ∧ mount layout.inodes img = { s with
      dinode := update s.dinode ROOTINO { s.dinode ROOTINO with
        size := rounded (16 * (files.length + 2)) }
      entry := fun _ => ⟨0, 0, false, noInode⟩ } := by
  obtain ⟨img₀, hbuild, hend⟩ := Option.bind_eq_some_iff.mp h
  obtain ⟨s, hbuilt⟩ := built_of_build hbuild hroom
  obtain ⟨img', hfinish, hmount⟩ := Built.finish hbuilt
  rw [hend] at hfinish
  cases hfinish
  rw [length_rootBytes] at hmount
  exact ⟨img₀, s, hbuilt, hmount⟩

variable (h : mkfs files = some img) (hroom : files.length + 1 < layout.inodes)
include h hroom

theorem refAt_mount : ∃ img₀ s, Built img₀ (contents files) s ∧
    mount layout.inodes img = { s with
      dinode := update s.dinode ROOTINO { s.dinode ROOTINO with
        size := rounded (16 * (files.length + 2)) }
      entry := fun _ => ⟨0, 0, false, noInode⟩ } ∧
    refAt layout (mount layout.inodes img).dinode (mount layout.inodes img).block =
      refAt layout s.dinode s.block := by
  obtain ⟨img₀, s, hbuilt, hmount⟩ := mount_mkfs h hroom
  refine ⟨img₀, s, hbuilt, hmount, ?_⟩
  rw [hmount]
  exact Inode.refAt_of_addrs Iff.rfl rfl

theorem root_size : ((mount layout.inodes img).dinode ROOTINO).size =
    rounded (16 * (files.length + 2)) := by
  obtain ⟨img₀, s, -, hmount⟩ := mount_mkfs h hroom
  rw [hmount]
  dsimp only
  rw [update_self]

theorem root_type : ((mount layout.inodes img).dinode ROOTINO).type = .dir := by
  obtain ⟨img₀, s, hbuilt, hmount⟩ := mount_mkfs h hroom
  rw [hmount]
  dsimp only
  rw [update_self]
  exact hbuilt.root.type_eq

theorem fileByte_root : fileByte layout (mount layout.inodes img).dinode
    (mount layout.inodes img).block ROOTINO = fun x => (rootBytes files).getD x 0 := by
  obtain ⟨img₀, s, hbuilt, hmount, hrefs⟩ := refAt_mount h hroom
  funext x
  refine Eq.trans ?_ (hbuilt.root.bytes x)
  rw [fileByte, hrefs, fileByte, hmount]

theorem direntsOf_mount : direntsOf (fileByte layout (mount layout.inodes img).dinode
    (mount layout.inodes img).block ROOTINO) ((mount layout.inodes img).dinode ROOTINO).size =
      (rootEntries files).map fun x => (x.1, padded x.2) := by
  have hle : 16 * (rootEntries files).length ≤ rounded (16 * (files.length + 2)) := by
    rw [rootEntries, List.length_cons, List.length_cons, length_numbered]
    simp only [rounded, BSIZE]
    omega
  rw [fileByte_root h hroom, root_size h hroom]
  exact direntsOf_direntBytes (fun x hx => rootEntries_bounds hroom hx) hle

end

/-- The names in the root directory, as far as they are compared. -/
def rootNames (files : List HostFile) : List (List UInt8) :=
  padded [46] :: padded [46, 46] :: files.map fun f => padded f.stripped

theorem map_numbered (n : ℕ) : (numbered n files).map (fun x => padded x.2) =
    files.map fun f => padded f.stripped := by
  induction files generalizing n with
  | nil => rfl
  | cons f files ih => rw [numbered, List.map_cons, List.map_cons, ih]

theorem names_mount (h : mkfs files = some img) (hroom : files.length + 1 < layout.inodes) :
    (direntsOf (fileByte layout (mount layout.inodes img).dinode (mount layout.inodes img).block
      ROOTINO) ((mount layout.inodes img).dinode ROOTINO).size).map Prod.snd = rootNames files := by
  rw [direntsOf_mount h hroom, List.map_map]
  exact congrArg (_ :: _ :: ·) (map_numbered 2)

theorem mkfs_accepts (hnamed : ∀ f ∈ files, f.Named) (hroom : files.length + 1 < layout.inodes)
    (hfits : Fits (contents files)) : ∃ img, mkfs files = some img := by
  rcases outcome_build hnamed hroom with ⟨img, s, hbuild, hbuilt⟩ | ⟨-, hnot⟩
  · obtain ⟨img', hfinish, -⟩ := Built.finish hbuilt
    exact ⟨img', by rw [mkfs, hbuild, Option.bind_some, hfinish]⟩
  · exact absurd hfits hnot

/-- **Well-formed images.** An image that `mkfs` has written is well formed if and only if there are
at most 198 files and no two names agree in their first 14 bytes, the leading underscore removed. -/
theorem mkfs_proper (h : mkfs files = some img) :
    Proper img ↔ files.length ≤ 198 ∧ (rootNames files).Nodup := by
  have hfree := freeinode_mkfs h
  have hsmall : 200 < layout.inodes := by decide
  constructor
  · intro hproper
    have hlast := hproper.inodes (files.length + 1) (Nat.succ_pos _) (by omega)
    rw [NINODES] at hlast
    exact ⟨by omega, names_mount h (by omega) ▸ hproper.names⟩
  · rintro ⟨hle, hnodup⟩
    obtain ⟨img₀, s, hbuilt, hmount, hrefs⟩ := refAt_mount h (by omega)
    have hbit : (mount layout.inodes img).bit = s.bit := by rw [hmount]
    have howned := hbuilt.wf.sound.owned
    refine ⟨fun i _ hi => ?_, fun p b hp => ?_, fun p q b hp hq => ?_, fun b hlo hhi => ?_, ?_⟩
    · rw [NINODES]
      omega
    · rw [hrefs] at hp
      exact howned.data p b hp
    · rw [hrefs] at hp hq
      exact howned.inj p q b hp hq
    · rw [hrefs, hbit]
      refine ⟨hbuilt.wf.covered b ⟨hlo, hhi⟩, ?_⟩
      rintro ⟨p, hp⟩
      exact howned.used p b hp
    · rw [names_mount h (by omega)]
      exact hnodup

instance decidableNonzero (name : List UInt8) : Decidable (∀ b ∈ name, b ≠ 0) :=
  List.decidableBAll _ name

/-- An empty file. -/
def emptyFile (name : List UInt8) (hname : ∀ b ∈ name, b ≠ 0) : HostFile := ⟨name, [], hname, nofun⟩

theorem fits_replicate {f : HostFile} (hf : f.bytes = []) (hn : n ≤ 206) :
    Fits (contents (List.replicate n f)) := by
  have hroot : (rootBytes (List.replicate n f)).length ≤ 3328 := by
    rw [length_rootBytes, List.length_replicate]
    omega
  have hblocks : blocks (rootBytes (List.replicate n f)).length ≤ 7 := blocks_mono hroot
  constructor
  · intro b hb
    rcases List.mem_cons.mp hb with rfl | hb
    · exact hroot.trans (by decide)
    · rw [List.map_replicate, hf] at hb
      rw [List.eq_of_mem_replicate hb]
      exact Nat.zero_le _
  · have hzero : blocks ([] : List UInt8).length = 0 := rfl
    have hmeta : nmeta = 59 := rfl
    have hsize : FSSIZE = 1000 := rfl
    rw [used, contents, List.map_cons, List.sum_cons, List.map_replicate, hf, List.map_replicate, hzero,
      List.sum_replicate_nat, Nat.mul_zero]
    omega

/-- An image without files. -/
theorem mkfs_proper_none : ∃ img, mkfs [] = some img ∧ Proper img := by
  obtain ⟨img, h⟩ : ∃ img, mkfs [] = some img := mkfs_accepts nofun (by decide)
    (fits_replicate (n := 0) (f := emptyFile [97] (by decide)) rfl (Nat.zero_le _))
  exact ⟨img, h, (mkfs_proper h).mpr ⟨by decide, by decide⟩⟩

/-- Two files whose names differ in the underscore only, and 199 files: `mkfs` accepts them, and the
image is not well formed. -/
theorem mkfs_accepts_clash :
    (∃ img, mkfs [emptyFile [95, 99, 97, 116] (by decide), emptyFile [99, 97, 116] (by decide)] =
      some img ∧ ¬Proper img) ∧
    ∃ img, mkfs (List.replicate 199 (emptyFile [99, 97, 116] (by decide))) = some img ∧
      ¬Proper img := by
  constructor
  · obtain ⟨img, h⟩ : ∃ img, mkfs [emptyFile [95, 99, 97, 116] (by decide),
        emptyFile [99, 97, 116] (by decide)] = some img := by
      refine mkfs_accepts (fun f hf => ?_) (by decide) ⟨by decide, by decide⟩
      rcases List.mem_cons.mp hf with rfl | hf
      · exact ⟨by decide, by decide⟩
      · rw [List.mem_singleton.mp hf]
        exact ⟨by decide, by decide⟩
    refine ⟨img, h, fun hproper => ?_⟩
    have hnames := hproper.names
    rw [names_mount h (by decide)] at hnames
    exact absurd hnames (by decide)
  · obtain ⟨img, h⟩ : ∃ img,
        mkfs (List.replicate 199 (emptyFile [99, 97, 116] (by decide))) = some img := by
      refine mkfs_accepts (fun f hf => ?_) (by rw [List.length_replicate]; decide)
        (fits_replicate rfl (by decide))
      rw [List.eq_of_mem_replicate hf]
      exact ⟨by decide, by decide⟩
    refine ⟨img, h, fun hproper => ?_⟩
    have hlast := hproper.inodes 200 (by decide) (by
      rw [freeinode_mkfs h, List.length_replicate]
      decide)
    exact absurd hlast (by decide)

end KThreads.Mkfs
