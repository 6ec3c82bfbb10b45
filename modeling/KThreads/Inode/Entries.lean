import KThreads.Inode.Directory
import KThreads.Inode.Room
import KThreads.Lib.SlotMap

/-!
# Changes of a directory

The entries of a locked directory are slots, each free or with a name and an inode number. To write
one entry changes one slot, or adds one at the end. `dirlink` uses the first free slot; a directory
without one must grow.
-/

namespace KThreads.Inode

/-- The entries of a directory in the cache. -/
def State.dirents (L : Layout) (s : State) (e : Slot) : List (ℕ × List UInt8) :=
  Inode.dirents L (fun _ => (s.entry e).din) s.block (s.entry e).inum

/-- An entry as a slot. -/
def slotOfDirent (d : ℕ × List UInt8) : Option (List UInt8 × ℕ) :=
  if d.1 = 0 then none else some (d.2, d.1)

theorem isNone_slotOfDirent (d : ℕ × List UInt8) :
    (slotOfDirent d).isNone = decide (d.1 = 0) := by
  rw [slotOfDirent]
  by_cases hd : d.1 = 0 <;> simp [hd]

/-- The slots of a directory in the cache. -/
def State.slots (L : Layout) (s : State) (e : Slot) : List (Option (List UInt8 × ℕ)) :=
  (s.dirents L e).map slotOfDirent

variable {L : Layout} {s s' : State} {v : ℕ → Dinode} {e : Slot} {name : List UInt8} {k inum : ℕ}

theorem dirents_view : dirents L (s.view v e) s.block (s.entry e).inum = s.dirents L e := by
  unfold State.dirents dirents direntAt
  rw [State.view_self]
  refine List.map_congr_left fun k _ => ?_
  congr 1
  exact List.map_congr_left fun x _ => fileByte_congr (by rw [State.view_self]) _

theorem length_slots : (s.slots L e).length = (s.entry e).din.size / 16 := by
  rw [State.slots, List.length_map, State.dirents, length_dirents]

theorem length_strncpy (t : List UInt8) (n : ℕ) : (strncpy t n).length = n := by
  induction n generalizing t with
  | zero => rfl
  | succ n ih =>
    rw [strncpy]
    split
    · exact List.length_replicate
    · rw [List.length_cons, ih]

theorem takeWhile_strncpy (t : List UInt8) (n : ℕ) :
    (strncpy t n).takeWhile (· ≠ 0) = (t.take n).takeWhile (· ≠ 0) := by
  induction n generalizing t with
  | zero => simp [strncpy]
  | succ n ih =>
    rw [strncpy]
    cases t with
    | nil => simp [List.replicate_succ]
    | cons b t =>
      by_cases hb : b = 0
      · simp [hb, List.replicate_succ]
      · simpa [hb] using ih t

theorem length_direntBytes (inum : ℕ) (name : List UInt8) : (direntBytes inum name).length = 16 := by
  rw [direntBytes, List.length_cons, List.length_cons, length_strncpy]
  rfl

theorem direntOf_direntBytes (hinum : inum < 65536) :
    direntOf (direntBytes inum name) = (inum, canon name) := by
  have hlen : (strncpy name DIRSIZ).take DIRSIZ = strncpy name DIRSIZ :=
    List.take_of_length_le (length_strncpy _ _).le
  have hname : canon (direntName (direntBytes inum name)) = canon name := by
    rw [direntName, direntBytes, canon, canon]
    change ((strncpy name DIRSIZ).take DIRSIZ).takeWhile (· ≠ 0) = _
    rw [hlen, takeWhile_strncpy]
  have hnum : direntInum (direntBytes inum name) = inum := by
    rw [direntInum, direntBytes]
    simp only [List.getD_cons_zero, List.getD_cons_succ, UInt8.toNat_ofNat']
    omega
  rw [direntOf, hname, hnum]

theorem direntOf_zeros : direntOf (List.replicate 16 0) = (0, []) := by decide

namespace Locked

theorem lacks_of_lt (h : Locked L v e s) {x : ℕ} (hx : x < (s.entry e).din.size) :
    s.lacks e (positions (x / BSIZE)) = ∅ := by
  obtain ⟨a, ha⟩ := Option.ne_none_iff_exists'.mp (h.filled hx)
  exact lacks_of_ref ha

theorem touched_dirent (k : ℕ) : touched (16 * k) 16 = positions (16 * k / BSIZE) := by
  have hblock : ∀ x < 16, (16 * k + x) / BSIZE = 16 * k / BSIZE := by
    intro x hx
    simp only [BSIZE]
    omega
  ext p
  rw [touched, Finset.mem_biUnion]
  constructor
  · rintro ⟨x, hx, hp⟩
    rwa [hblock x (Finset.mem_range.mp hx)] at hp
  · exact fun hp => ⟨0, by simp, by rwa [Nat.add_zero]⟩

variable {de : List UInt8}

theorem writeDirent (h : Locked L v e s) (hdir : (s.entry e).din.type = .dir)
    (hwhole : (s.entry e).din.size % 16 = 0) (hk : k ≤ (s.entry e).din.size / 16)
    (hlen : de.length = 16) (hw : s.writeDirent L e de (16 * k) = some s') :
    Locked L v e s' ∧ (s'.entry e).inum = (s.entry e).inum ∧
      (∀ e', e' ≠ e → s'.entry e' = s.entry e') ∧
      (∀ j, j ≠ (s.entry e).inum → s'.dinode j = s.dinode j) ∧
      s'.entry e = { s.entry e with din := (s'.entry e).din } ∧
      (s'.entry e).din.type = .dir ∧
      (s'.entry e).din.size = max (s.entry e).din.size (16 * (k + 1)) ∧
      ∀ j, (s'.slots L e)[j]? =
        if j = k then some (slotOfDirent (direntOf de)) else (s.slots L e)[j]? := by
  have hsize := h.size_le
  have hmaxlt : MAXFILE * BSIZE < 2 ^ 32 := by decide
  obtain ⟨⟨s₁, r⟩, hwrite, hret⟩ := Option.bind_eq_some_iff.mp hw
  split at hret
  · cases hret
  next hr =>
  obtain rfl := Option.some.inj hret
  rw [not_not] at hr
  have hoff : (UInt32.ofNat (16 * k)).toNat = 16 * k := UInt32.toNat_ofNat_of_lt' (by
    show _ < 2 ^ 32
    omega)
  have hsixteen : (16 : UInt32).toNat = 16 := rfl
  have hdev : (s.entry e).din.type ≠ .dev := by rw [hdir]; nofun
  have hmax : 16 * k + 16 ≤ MAXFILE * BSIZE := by
    by_contra hno
    rw [State.writei_refuses hdev (by rw [hoff, hsixteen]; omega)] at hwrite
    obtain ⟨-, rfl⟩ := Prod.mk.inj (Option.some.inj hwrite)
    exact absurd hr (show (-1 : ℤ) ≠ 16 by decide)
  obtain ⟨hl', hinum, hentries, hdisk⟩ := h.writei_frame hwrite
  obtain ⟨-, hentry, htype, hsize', hbytes⟩ := h.writei hdev (by rw [hoff]; omega)
    (by rw [hoff, hsixteen]; exact hmax) (fun _ _ => rfl) hwrite
  rw [hoff, hsixteen] at hsize' hbytes
  refine ⟨hl', hinum, hentries, hdisk, hentry, htype.trans hdir, by rw [hsize', Nat.mul_add], ?_⟩
  intro j
  -- the bytes of one entry are those written, and the others are as before
  have hat : ∀ j, direntAt L (s₁.view v e) s₁.block (s₁.entry e).inum j =
      if j = k then de else direntAt L (s.view v e) s.block (s.entry e).inum j := by
    intro j
    split
    · next hj =>
      subst hj
      refine List.ext_getElem (by rw [hlen]; simp [direntAt]) fun x hx hx' => ?_
      simp only [direntAt, List.getElem_map, List.getElem_range]
      rw [hbytes, if_pos ⟨hinum, by omega, by omega⟩, Nat.add_sub_cancel_left,
        List.getD_eq_getElem _ _ hx']
    · next hj =>
      refine List.map_congr_left fun x hx => ?_
      have hx' := List.mem_range.mp hx
      rw [hbytes, if_neg (by omega), hinum]
  have hslot : ∀ (t : State) (j : ℕ), (t.slots L e)[j]? =
      if j < (t.entry e).din.size / 16 then
        some (slotOfDirent (direntOf (direntAt L (t.view v e) t.block (t.entry e).inum j)))
      else none := by
    intro t j
    rw [State.slots, ← dirents_view (v := v), List.getElem?_map]
    split
    · next hj => rw [dirents_getElem? (by rwa [State.view_self])]; rfl
    · next hj =>
      rw [List.getElem?_eq_none (by rw [length_dirents, State.view_self]; omega)]
      rfl
  rw [hslot, hslot, hat, hsize']
  by_cases hj : j = k
  · rw [if_pos hj, if_pos hj, if_pos (by omega)]
  · rw [if_neg hj, if_neg hj]
    by_cases hlt : j < (s.entry e).din.size / 16
    · rw [if_pos hlt, if_pos (by omega)]
    · rw [if_neg hlt, if_neg (by omega)]

theorem writeDirent_isSome (h : Locked L v e s) (hdir : (s.entry e).din.type = .dir)
    (hwhole : (s.entry e).din.size % 16 = 0) (hk : k ≤ (s.entry e).din.size / 16) :
    (∃ s', s.writeDirent L e de (16 * k) = some s') ↔
      16 * (k + 1) ≤ MAXFILE * BSIZE ∧
        (s.lacks e (positions (16 * k / BSIZE))).card ≤ (s.free L).card := by
  have hsize := h.size_le
  have hmaxlt : MAXFILE * BSIZE < 2 ^ 32 := by decide
  have hoff : (UInt32.ofNat (16 * k)).toNat = 16 * k := UInt32.toNat_ofNat_of_lt' (by
    show _ < 2 ^ 32
    omega)
  have hsixteen : (16 : UInt32).toNat = 16 := rfl
  have hdev : (s.entry e).din.type ≠ .dev := by rw [hdir]; nofun
  constructor
  · rintro ⟨s', hw⟩
    obtain ⟨⟨s₁, r⟩, hwrite, hret⟩ := Option.bind_eq_some_iff.mp hw
    have hr : r = 16 := by
      by_contra hne
      rw [if_pos hne] at hret
      cases hret
    have hmax : 16 * k + 16 ≤ MAXFILE * BSIZE := by
      by_contra hno
      rw [State.writei_refuses hdev (by rw [hoff, hsixteen]; omega)] at hwrite
      obtain ⟨-, rfl⟩ := Prod.mk.inj (Option.some.inj hwrite)
      exact absurd hr (by decide)
    refine ⟨by omega, ?_⟩
    rw [State.writei, if_neg hdev, if_neg (by rw [add_lt_self_iff, hoff, hsixteen]; omega),
      if_neg (by rw [hoff, hsixteen]; omega), hoff, hsixteen] at hwrite
    obtain ⟨x, hloop, -⟩ := Option.map_eq_some_iff.mp hwrite
    rw [State.copyLoop, if_neg (by decide)] at hloop
    obtain ⟨y, hmap, -⟩ := Option.bind_eq_some_iff.mp hloop
    have hfree := State.free_bmap hmap
    omega
  · rintro ⟨hmax, hroom⟩
    obtain ⟨s', r, hwrite⟩ : ∃ s' r, s.writei L e (fun i => de.getD i 0) (.ofNat (16 * k)) 16
        (fun _ => true) 0 = some (s', r) :=
      h.writei_room (by rw [hoff, hsixteen]; omega)
        (by rw [hoff, hsixteen, touched_dirent]; exact hroom)
    obtain ⟨rfl, -⟩ := h.writei hdev (by rw [hoff]; omega) (by rw [hoff, hsixteen]; omega)
      (fun _ _ => rfl) hwrite
    exact ⟨s', by rw [State.writeDirent, hwrite]; rfl⟩

theorem emptyLoop (h : Locked L v e s) (hdir : (s.entry e).din.type = .dir)
    (hwhole : (s.entry e).din.size % 16 = 0) {fuel j : ℕ}
    (hfuel : (s.entry e).din.size / 16 - j ≤ fuel) (hj : j ≤ (s.entry e).din.size / 16) :
    State.emptyLoop L e fuel s (16 * j) =
      some (s, 16 * (j + ((s.slots L e).drop j).findIdx Option.isNone)) := by
  have hlen : (s.slots L e).length = (s.entry e).din.size / 16 := length_slots
  induction fuel generalizing j with
  | zero =>
    rw [List.drop_of_length_le (by omega)]
    rfl
  | succ fuel ih =>
    rw [State.emptyLoop]
    by_cases hlt : j < (s.entry e).din.size / 16
    · set de := direntAt L (s.view v e) s.block (s.entry e).inum j with hde
      have hslot : (s.slots L e)[j]? = some (slotOfDirent (direntOf de)) := by
        rw [State.slots, ← dirents_view (v := v), List.getElem?_map,
          dirents_getElem? (by rwa [State.view_self])]
        rfl
      obtain ⟨hjlt, hget⟩ := List.getElem?_eq_some_iff.mp hslot
      rw [if_pos (by omega), h.readi_dirent hdir (by omega), Option.bind_some, ← hde]
      dsimp only
      rw [if_neg (by decide), List.drop_eq_getElem_cons hjlt, List.findIdx_cons, hget]
      by_cases hfree : direntInum de = 0
      · have hnone : (slotOfDirent (direntOf de)).isNone = true := by
          rw [isNone_slotOfDirent]
          exact decide_eq_true hfree
        rw [if_pos hfree, hnone, cond_true, Nat.add_zero]
      · have hsome : (slotOfDirent (direntOf de)).isNone = false := by
          rw [isNone_slotOfDirent]
          exact decide_eq_false hfree
        have hnext := ih (by omega) hlt
        rw [if_neg hfree, hsome, cond_false, show 16 * j + 16 = 16 * (j + 1) by omega, hnext,
          Nat.succ_add_eq_add_succ]
    · rw [if_neg (by omega), List.drop_of_length_le (by omega)]
      rfl

end Locked

theorem dirFind_eq (c : List UInt8) : dirFind (s.dirents L e) c =
    (SlotMap.index (s.slots L e) c).map fun k => (((s.dirents L e).getD k (0, [])).1, 16 * k) := by
  have hnamed : SlotMap.holds c ∘ slotOfDirent = named c := by
    funext d
    rw [Function.comp_apply, slotOfDirent, named]
    by_cases hd : d.1 = 0
    · simp [hd, SlotMap.holds]
    · simp [hd, SlotMap.holds]
  rw [dirFind, SlotMap.index, State.slots, List.findIdx?_map, hnamed]

theorem get_of_index {c : List UInt8} (h : SlotMap.index (s.slots L e) c = some k) :
    ((s.dirents L e).getD k (0, [])).1 ≠ 0 ∧
      (s.slots L e)[k]? = some (some (c, ((s.dirents L e).getD k (0, [])).1)) ∧
      SlotMap.get (s.slots L e) c = some ((s.dirents L e).getD k (0, [])).1 := by
  obtain ⟨i, hslot, hget⟩ := SlotMap.getElem?_of_index h
  rw [State.slots, List.getElem?_map] at hslot
  obtain ⟨d, hd, hdi⟩ := Option.map_eq_some_iff.mp hslot
  have hgetD : (s.dirents L e).getD k (0, []) = d := by
    rw [List.getD_eq_getElem?_getD, hd]
    rfl
  rw [slotOfDirent] at hdi
  split at hdi
  · cases hdi
  · next hne =>
    obtain ⟨rfl, rfl⟩ := Prod.mk.inj (Option.some.inj hdi)
    rw [hgetD]
    refine ⟨hne, ?_, hget⟩
    rw [State.slots, List.getElem?_map, hd]
    exact congrArg some (if_neg hne)

theorem State.of_iget {e' : Slot} {j : ℕ} (hget : s.iget j = some (s', e')) :
    (s'.entry e').inum = j ∧ 0 < (s'.entry e').ref ∧ s'.block = s.block ∧
      ∀ e₁, 0 < (s.entry e₁).ref → 0 < (s'.entry e₁).ref ∧ (s'.entry e₁).inum = (s.entry e₁).inum ∧
        (s'.entry e₁).valid = (s.entry e₁).valid ∧ (s'.entry e₁).din = (s.entry e₁).din := by
  rw [State.iget] at hget
  split at hget
  · next e₀ hfound =>
    obtain ⟨rfl, rfl⟩ := Prod.mk.inj (Option.some.inj hget)
    have hp := List.find?_some hfound
    simp only [decide_eq_true_eq] at hp
    refine ⟨by rw [State.setEntry_self]; exact hp.2, by rw [State.setEntry_self]; exact Nat.succ_pos _,
      rfl, fun e₁ hpos => ?_⟩
    by_cases he : e₁ = e₀
    · rw [he, State.setEntry_self]
      exact ⟨Nat.succ_pos _, rfl, rfl, rfl⟩
    · rw [State.setEntry_of_ne he]
      exact ⟨hpos, rfl, rfl, rfl⟩
  · obtain ⟨e₀, hfound, heq⟩ := Option.map_eq_some_iff.mp hget
    obtain ⟨rfl, rfl⟩ := Prod.mk.inj heq
    have hfree : (s.entry e₀).ref = 0 := by simpa using List.find?_some hfound
    refine ⟨by rw [State.setEntry_self], by rw [State.setEntry_self]; exact Nat.one_pos, rfl,
      fun e₁ hpos => ?_⟩
    have he : e₁ ≠ e₀ := by
      rintro rfl
      omega
    rw [State.setEntry_of_ne he]
    exact ⟨hpos, rfl, rfl, rfl⟩

theorem State.of_iput {e' : Slot} (hput : s.iput e' = some s') :
    s'.block = s.block ∧ ∀ e₁, e₁ ≠ e' → s'.entry e₁ = s.entry e₁ := by
  obtain ⟨s₁, hs₁, rfl⟩ := Option.map_eq_some_iff.mp hput
  have hkeep : s₁.block = s.block ∧ ∀ e₁, e₁ ≠ e' → s₁.entry e₁ = s.entry e₁ := by
    split at hs₁
    · obtain ⟨s₂, htrunc, rfl⟩ := Option.map_eq_some_iff.mp hs₁
      obtain ⟨bit, rfl, -⟩ := State.of_itrunc htrunc
      refine ⟨rfl, fun e₁ he => ?_⟩
      simp [State.setEntry, State.setDin, State.iupdate, he]
    · cases hs₁
      exact ⟨rfl, fun _ _ => rfl⟩
  exact ⟨hkeep.1, fun e₁ he => (State.setEntry_of_ne he).trans (hkeep.2 e₁ he)⟩

theorem slots_congr (hinum : (s'.entry e).inum = (s.entry e).inum)
    (hdin : (s'.entry e).din = (s.entry e).din) (hblock : s'.block = s.block) :
    s'.slots L e = s.slots L e := by
  rw [State.slots, State.slots, State.dirents, State.dirents, hinum, hdin, hblock]

end KThreads.Inode
