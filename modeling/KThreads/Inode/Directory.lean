import KThreads.Inode.Names

/-!
# The entries of a directory

A directory is the list of its entries, each an inode number and a name as far as names are
compared. `dirlookup` finds the first entry in use that has the name.
-/

namespace KThreads.Inode

open Log (Data)

/-- A name as far as it is compared: up to its end, and at most `DIRSIZ` bytes. -/
def canon (name : List UInt8) : List UInt8 := (name.take DIRSIZ).takeWhile (· ≠ 0)

theorem strncmp_eq_zero_iff {p q : List UInt8} {n : ℕ} :
    strncmp p q n = 0 ↔ (p.take n).takeWhile (· ≠ 0) = (q.take n).takeWhile (· ≠ 0) := by
  -- the characters that both have in common are taken from both
  have htake : ∀ (p : List UInt8) (n : ℕ), (p.take (n + 1)).takeWhile (· ≠ 0) =
      if p.headD 0 = 0 then [] else p.headD 0 :: (p.tail.take n).takeWhile (· ≠ 0) := by
    intro p n
    cases p with
    | nil => simp
    | cons b p =>
      by_cases hb : b = 0
      · simp [hb]
      · simp [hb]
  induction n generalizing p q with
  | zero => simp [strncmp]
  | succ n ih =>
    rw [strncmp, htake, htake]
    generalize p.headD 0 = a
    generalize q.headD 0 = b
    have hheads : ((a.toNat : ℤ) - b.toNat = 0) ↔ a = b := by
      rw [← UInt8.toNat_inj]
      omega
    by_cases ha : a = 0 <;> by_cases hb : b = 0
    · simp [ha, hb]
    · rw [if_neg fun h => h.1 ha, hheads, if_pos ha, if_neg hb]
      exact ⟨fun h => absurd (h ▸ ha) hb, by simp⟩
    · rw [if_neg fun h => ha (h.2.trans hb), hheads, if_neg ha, if_pos hb]
      exact ⟨fun h => absurd (h.trans hb) ha, by simp⟩
    · by_cases hab : a = b
      · rw [if_pos ⟨ha, hab⟩, if_neg ha, if_neg hb, hab, List.cons.injEq]
        exact ih.trans (and_iff_right rfl).symm
      · rw [if_neg fun h => hab h.2, if_neg ha, if_neg hb, hheads, List.cons.injEq]
        exact ⟨fun h => absurd h hab, fun h => h.1⟩

theorem namecmp_eq_zero_iff {p q : List UInt8} : namecmp p q = 0 ↔ canon p = canon q :=
  strncmp_eq_zero_iff

/-- The bytes of the entry `k` of a directory. -/
def direntAt (L : Layout) (din : ℕ → Dinode) (block : ℕ → Data) (i k : ℕ) : List UInt8 :=
  (List.range 16).map fun x => fileByte L din block i (16 * k + x)

/-- An entry: the inode number, which is 0 if it is free, and the name. -/
def direntOf (de : List UInt8) : ℕ × List UInt8 := (direntInum de, canon (direntName de))

/-- The entries of a directory. -/
def dirents (L : Layout) (din : ℕ → Dinode) (block : ℕ → Data) (i : ℕ) : List (ℕ × List UInt8) :=
  (List.range ((din i).size / 16)).map fun k => direntOf (direntAt L din block i k)

/-- An entry is in use and has the name. -/
def named (c : List UInt8) (d : ℕ × List UInt8) : Bool := decide (d.1 ≠ 0 ∧ d.2 = c)

theorem named_direntOf {name de : List UInt8} :
    named (canon name) (direntOf de) = true ↔
      direntInum de ≠ 0 ∧ namecmp name (direntName de) = 0 := by
  rw [named, decide_eq_true_eq, namecmp_eq_zero_iff]
  exact and_congr_right fun _ => eq_comm

/-- The first entry with a name: the inode number, and the offset. -/
def dirFind (ds : List (ℕ × List UInt8)) (c : List UInt8) : Option (ℕ × ℕ) :=
  (ds.findIdx? (named c)).map fun k => ((ds.getD k (0, [])).1, 16 * k)

variable {L : Layout} {s s' : State} {v : ℕ → Dinode} {e : Slot} {name : List UInt8}

theorem Lags.dirents_eq {d m : ℕ → Dinode} {block : ℕ → Data} {i : ℕ} (h : Lags (d i) (m i)) :
    dirents L d block i = dirents L m block i := by
  rw [dirents, dirents, h.size]
  refine List.map_congr_left fun k hk => ?_
  have hlt := List.mem_range.mp hk
  have hbytes : direntAt L d block i k = direntAt L m block i k := by
    refine List.map_congr_left fun x hx => ?_
    have hx' := List.mem_range.mp hx
    exact h.fileByte_eq (by omega)
  rw [hbytes]

theorem dirents_getElem? {din : ℕ → Dinode} {block : ℕ → Data} {i k : ℕ} (hk : k < (din i).size / 16) :
    (dirents L din block i)[k]? = some (direntOf (direntAt L din block i k)) := by
  rw [dirents, List.getElem?_map, List.getElem?_range hk]
  rfl

theorem length_dirents (L : Layout) (din : ℕ → Dinode) (block : ℕ → Data) (i : ℕ) :
    (dirents L din block i).length = (din i).size / 16 := by
  rw [dirents, List.length_map, List.length_range]

theorem Locked.readi_dirent (h : Locked L v e s) (hdir : (s.entry e).din.type = .dir) {k : ℕ}
    (hk : 16 * (k + 1) ≤ (s.entry e).din.size) :
    s.readi L e (.ofNat (16 * k)) 16 (fun _ => true) 0 =
      some (s, 16, direntAt L (s.view v e) s.block (s.entry e).inum k) := by
  have hsize := h.size_le
  have hoff : (UInt32.ofNat (16 * k)).toNat = 16 * k := UInt32.toNat_ofNat_of_lt' (by
    simp only [MAXFILE, BSIZE, NDIRECT, NINDIRECT] at hsize
    show _ < 2 ^ 32
    omega)
  have hlen : (16 : UInt32).toNat = 16 := rfl
  obtain ⟨r, bytes, hread, hresult⟩ := h.readi (.ofNat (16 * k)) 16 (fun _ => true) 0
  obtain ⟨rfl, rfl⟩ := hresult (by rw [hdir]; simp) (by omega) (by
    simp only [MAXFILE, BSIZE, NDIRECT, NINDIRECT] at hsize
    omega) fun _ => rfl
  have hmin : min 16 ((s.entry e).din.size - 16 * k) = 16 := by omega
  rw [hread, hoff, hlen, hmin]
  rfl

theorem Locked.dirlookupLoop (h : Locked L v e s) (hdir : (s.entry e).din.type = .dir)
    (hwhole : (s.entry e).din.size % 16 = 0) {fuel j : ℕ}
    (hfuel : (s.entry e).din.size / 16 - j ≤ fuel) (hj : j ≤ (s.entry e).din.size / 16) :
    let ds := dirents L (s.view v e) s.block (s.entry e).inum
    State.dirlookupLoop L e name fuel s (16 * j) =
      some (s, ((ds.drop j).findIdx? (named (canon name))).map fun k =>
        ((ds.getD (j + k) (0, [])).1, 16 * (j + k))) := by
  intro ds
  have hlen : ds.length = (s.entry e).din.size / 16 := by
    rw [length_dirents, State.view_self]
  induction fuel generalizing j with
  | zero =>
    rw [List.drop_of_length_le (by omega)]
    rfl
  | succ fuel ih =>
    rw [State.dirlookupLoop]
    by_cases hlt : j < (s.entry e).din.size / 16
    · set de := direntAt L (s.view v e) s.block (s.entry e).inum j with hde
      have hds : ds[j]? = some (direntOf de) := dirents_getElem? (by rwa [State.view_self])
      obtain ⟨hjlt, hget⟩ := List.getElem?_eq_some_iff.mp hds
      rw [if_pos (by omega), h.readi_dirent hdir (by omega), Option.bind_some, ← hde]
      dsimp only
      rw [if_neg (by decide), List.drop_eq_getElem_cons hjlt, List.findIdx?_cons, hget]
      by_cases hnamed : named (canon name) (direntOf de) = true
      · obtain ⟨hused, hname⟩ := named_direntOf.mp hnamed
        rw [if_neg hused, if_pos hname, if_pos hnamed, Option.map_some, Nat.add_zero,
          List.getD_eq_getElem?_getD, hds]
        rfl
      · have hskip : (if direntInum de = 0 then State.dirlookupLoop L e name fuel s (16 * j + 16)
            else if namecmp name (direntName de) = 0 then some (s, some (direntInum de, 16 * j))
            else State.dirlookupLoop L e name fuel s (16 * j + 16)) =
            State.dirlookupLoop L e name fuel s (16 * (j + 1)) := by
          rw [named_direntOf, not_and] at hnamed
          by_cases hfree : direntInum de = 0
          · rw [if_pos hfree, Nat.mul_add]
          · rw [if_neg hfree, if_neg (hnamed hfree), Nat.mul_add]
        rw [hskip, if_neg hnamed, ih (by omega) hlt, Option.map_map]
        refine congrArg (fun f => some (s, Option.map f _)) (funext fun k => ?_)
        rw [Function.comp_apply, Nat.succ_add_eq_add_succ]
    · rw [if_neg (by omega), List.drop_of_length_le (by omega)]
      rfl

theorem Locked.dirlookup (h : Locked L v e s) (hdir : (s.entry e).din.type = .dir)
    (hwhole : (s.entry e).din.size % 16 = 0) (name : List UInt8) :
    s.dirlookup L e name =
      match dirFind (dirents L (s.view v e) s.block (s.entry e).inum) (canon name) with
      | none => some (s, none)
      | some (inum, off) => (s.iget inum).map fun y => (y.1, some (y.2, off)) := by
  have hloop : State.dirlookupLoop L e name (s.entry e).din.size s (16 * 0) =
      some (s, dirFind (dirents L (s.view v e) s.block (s.entry e).inum) (canon name)) := by
    rw [h.dirlookupLoop hdir hwhole (by omega) (Nat.zero_le _), List.drop_zero, dirFind]
    simp only [Nat.zero_add]
  rw [State.dirlookup, if_neg (by rw [hdir]; exact fun hno => hno rfl)]
  exact congrArg (Option.bind · _) hloop

end KThreads.Inode
