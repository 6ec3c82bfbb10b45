import KThreads.Inode.Entries
import KThreads.PathLookup

/-!
# A directory is a map

The calls on one directory, which its caller has locked: `dirlookup`, `dirlink`, and the removal of
an entry by `sys_unlink`. The directory holds a finite map from names to inode numbers, where names
are the same if they are as far as they are compared. No name has two entries, and a free entry is
used before the directory grows. A name that is new is added exactly when there is a free entry, or
room for the directory to grow; otherwise the kernel panics.
-/

namespace KThreads.Inode

open Transition
open Function (update)

/-- The calls on a directory. -/
inductive DirOp
  | lookup (name : List UInt8)
  | link (name : List UInt8) (inum : ℕ)
  | remove (name : List UInt8)
  /-- The caller drops a reference to an inode that it has found. -/
  | put (e : Slot)

/-- What a call returns. -/
inductive Answer
  | found (inum : Option ℕ)
  | done (ok : Bool)

/-- One call on the directory of an entry. An inode that is linked is one of the file system, and
its number fits into an entry. -/
def State.dirStep (L : Layout) (s : State) (e : Slot) : DirOp → Option (State × Answer)
  | .lookup name =>
      (s.dirlookup L e name).map fun x => (x.1, .found (x.2.map fun y => (x.1.entry y.1).inum))
  | .link name inum =>
      if 0 < inum ∧ inum < L.inodes ∧ inum < 65536 then
        (s.dirlink L e name inum).map fun x => (x.1, .done (x.2 = 0))
      else none
  | .remove name => (s.direntClear L e name).map fun x => (x.1, .done x.2.isSome)
  | .put e' => if e' ≠ e ∧ 0 < (s.entry e').ref then (s.iput e').map (·, .done true) else none

/-- The same calls on a map. -/
def mapStep (m : List UInt8 → Option ℕ) : DirOp → (List UInt8 → Option ℕ) × Answer
  | .lookup name => (m, .found (m (canon name)))
  | .link name inum =>
      if m (canon name) = none then (update m (canon name) (some inum), .done true)
      else (m, .done false)
  | .remove name => (update m (canon name) none, .done (m (canon name)).isSome)
  | .put _ => (m, .done true)

/-- The map that a directory holds. -/
def State.dirMap (L : Layout) (s : State) (e : Slot) : List UInt8 → Option ℕ :=
  SlotMap.get (s.slots L e)

/-- A directory that is locked, with whole entries and without a name that occurs twice. -/
structure OpenDir (L : Layout) (e : Slot) (s : State) : Prop where
  inv : ∃ v, Inv L s v
  ref : 0 < (s.entry e).ref
  valid : (s.entry e).valid = true
  dir : (s.entry e).din.type = .dir
  whole : (s.entry e).din.size % 16 = 0
  distinct : SlotMap.Distinct (s.slots L e)
  inums : ∀ c i, some (c, i) ∈ s.slots L e → i < L.inodes

/-- There is a free entry, or the directory can grow: it has less than the most blocks, and there are
free blocks for what it needs. -/
def State.HasRoom (L : Layout) (s : State) (e : Slot) : Prop :=
  none ∈ s.slots L e ∨ (s.entry e).din.size + 16 ≤ MAXFILE * BSIZE ∧
    (s.lacks e (positions ((s.entry e).din.size / BSIZE))).card ≤ (s.free L).card

/-- The runs of the calls on a directory. -/
def dirMachine (L : Layout) (e : Slot) : System State DirOp where
  init := OpenDir L e
  step s op s' := ∃ a, s.dirStep L e op = some (s', a)

variable {L : Layout} {s s' : State} {e : Slot} {name : List UInt8} {inum k : ℕ} {r : ℤ}

namespace OpenDir

theorem locked (h : OpenDir L e s) : ∃ v, Inv L s v ∧ Locked L v e s ∧ s.view v e = v := by
  obtain ⟨v, hv⟩ := h.inv
  obtain ⟨hl, hview⟩ := hv.locked h.ref h.valid
  exact ⟨v, hv, hl, hview⟩

theorem congr (h : OpenDir L e s) (hinv : ∃ v, Inv L s' v) (hblock : s'.block = s.block)
    (hentry : 0 < (s'.entry e).ref ∧ (s'.entry e).inum = (s.entry e).inum ∧
      (s'.entry e).valid = (s.entry e).valid ∧ (s'.entry e).din = (s.entry e).din) :
    OpenDir L e s' ∧ s'.slots L e = s.slots L e := by
  obtain ⟨href, hinum, hvalid, hdin⟩ := hentry
  have hslots : s'.slots L e = s.slots L e := slots_congr hinum hdin hblock
  exact ⟨⟨hinv, href, hvalid.trans h.valid, by rw [hdin]; exact h.dir, by rw [hdin]; exact h.whole,
    hslots ▸ h.distinct, hslots ▸ h.inums⟩, hslots⟩

theorem dirlookup (h : OpenDir L e s) (name : List UInt8) :
    (s.dirMap L e (canon name) = none ∧ s.dirlookup L e name = some (s, none)) ∨
      ∃ k i, s.dirMap L e (canon name) = some i ∧ (s.slots L e)[k]? = some (some (canon name, i)) ∧
        s.dirlookup L e name = (s.iget i).map fun y => (y.1, some (y.2, 16 * k)) := by
  obtain ⟨v, -, hl, -⟩ := h.locked
  rw [hl.dirlookup h.dir h.whole, dirents_view, dirFind_eq]
  cases hindex : SlotMap.index (s.slots L e) (canon name) with
  | none => exact .inl ⟨SlotMap.index_eq_none_iff.mp hindex, rfl⟩
  | some k =>
    obtain ⟨-, hslot, hget⟩ := get_of_index hindex
    exact .inr ⟨k, _, hget, hslot, rfl⟩

theorem iget (h : OpenDir L e s) {i : ℕ} {e' : Slot} (hi : i < L.inodes)
    (hget : s.iget i = some (s', e')) :
    OpenDir L e s' ∧ s'.slots L e = s.slots L e ∧ (s'.entry e').inum = i ∧
      0 < (s'.entry e').ref ∧ (s'.entry e).din = (s.entry e).din := by
  obtain ⟨v, hv⟩ := h.inv
  obtain ⟨hinum, hpos, hblock, hkept⟩ := State.of_iget hget
  obtain ⟨hopen, hslots⟩ := h.congr ⟨v, (hv.iget hi hget).1⟩ hblock (hkept e h.ref)
  exact ⟨hopen, hslots, hinum, hpos, (hkept e h.ref).2.2.2⟩

theorem iput (h : OpenDir L e s) {e' : Slot} (hne : e' ≠ e) (href : 0 < (s.entry e').ref)
    (hput : s.iput e' = some s') : OpenDir L e s' ∧ s'.slots L e = s.slots L e := by
  obtain ⟨v, hv⟩ := h.inv
  obtain ⟨v', hv', -⟩ := hv.iput href hput
  obtain ⟨hblock, hkept⟩ := State.of_iput hput
  have hentry := hkept e (Ne.symm hne)
  exact h.congr ⟨v', hv'⟩ hblock (by rw [hentry]; exact ⟨h.ref, rfl, rfl, rfl⟩)

theorem writeDirent (h : OpenDir L e s) {de : List UInt8} (hk : k ≤ (s.entry e).din.size / 16)
    (hlen : de.length = 16) (hw : s.writeDirent L e de (16 * k) = some s') :
    ((∃ v, Inv L s' v) ∧ 0 < (s'.entry e).ref ∧ (s'.entry e).valid = true ∧
      (s'.entry e).din.type = .dir ∧ (s'.entry e).din.size % 16 = 0) ∧
      (s'.entry e).din.size = max (s.entry e).din.size (16 * (k + 1)) ∧
      ∀ j, (s'.slots L e)[j]? =
        if j = k then some (slotOfDirent (direntOf de)) else (s.slots L e)[j]? := by
  obtain ⟨v, hv, hl, hview⟩ := h.locked
  obtain ⟨-, -, -, -, hentry, hdir, hsize, hslots⟩ := hl.writeDirent h.dir h.whole hk hlen hw
  obtain ⟨⟨s₁, r⟩, hwrite, hret⟩ := Option.bind_eq_some_iff.mp hw
  split at hret
  · cases hret
  obtain rfl := Option.some.inj hret
  obtain ⟨v', hv', -⟩ := hv.writei hl ⟨h.ref, h.valid⟩ hview hwrite
  have hwhole := h.whole
  refine ⟨⟨⟨v', hv'⟩, ?_, ?_, hdir, ?_⟩, hsize, hslots⟩
  · rw [hentry]
    exact h.ref
  · rw [hentry]
    exact h.valid
  · rw [hsize]
    omega

theorem free_slot (l : List (Option (List UInt8 × ℕ))) (p : List UInt8 × ℕ) :
    l[l.findIdx Option.isNone]? ≠ some (some p) := by
  intro hp
  obtain ⟨hlt, hget⟩ := List.getElem?_eq_some_iff.mp hp
  have hnone : l[l.findIdx Option.isNone].isNone = true := List.findIdx_getElem
  rw [hget] at hnone
  cases hnone

theorem free_slot_cases (l : List (Option (List UInt8 × ℕ))) :
    (none ∈ l ∧ l.findIdx Option.isNone < l.length) ∨
      (none ∉ l ∧ l.findIdx Option.isNone = l.length) := by
  by_cases hmem : none ∈ l
  · exact .inl ⟨hmem, List.findIdx_lt_length_of_exists ⟨none, hmem, rfl⟩⟩
  · refine .inr ⟨hmem, List.findIdx_eq_length_of_false fun o ho => ?_⟩
    cases o with
    | none => exact absurd ho hmem
    | some p => rfl

theorem dirlink_absent (h : OpenDir L e s) (habsent : s.dirMap L e (canon name) = none) :
    s.dirlink L e name inum =
      (s.writeDirent L e (direntBytes inum name) (16 * (s.slots L e).findIdx Option.isNone)).map
        (·, 0) := by
  obtain ⟨-, hlookup⟩ | ⟨k, i, hsome, -⟩ := h.dirlookup name
  · obtain ⟨v, -, hl, -⟩ := h.locked
    have hloop : State.emptyLoop L e (s.entry e).din.size s (16 * 0) =
        some (s, 16 * (0 + ((s.slots L e).drop 0).findIdx Option.isNone)) :=
      hl.emptyLoop h.dir h.whole (by omega) (Nat.zero_le _)
    rw [Nat.mul_zero, Nat.zero_add, List.drop_zero] at hloop
    rw [State.dirlink, hlookup, Option.bind_some]
    dsimp only
    rw [hloop, Option.bind_some]
  · rw [habsent] at hsome
    cases hsome

theorem dirlink_present (h : OpenDir L e s) {i : ℕ} (hsome : s.dirMap L e (canon name) = some i)
    (hlink : s.dirlink L e name inum = some (s', r)) :
    r = -1 ∧ OpenDir L e s' ∧ s'.slots L e = s.slots L e := by
  obtain ⟨hnone, -⟩ | ⟨k, j, -, hslot, hlookup⟩ := h.dirlookup name
  · rw [hsome] at hnone
    cases hnone
  rw [State.dirlink, hlookup] at hlink
  obtain ⟨x, hx, hlink⟩ := Option.bind_eq_some_iff.mp hlink
  obtain ⟨⟨s₁, e'⟩, hget, rfl⟩ := Option.map_eq_some_iff.mp hx
  dsimp only at hlink
  split at hlink
  · cases hlink
  next hne =>
  obtain ⟨s₂, hput, heq⟩ := Option.map_eq_some_iff.mp hlink
  obtain ⟨rfl, rfl⟩ := Prod.mk.inj heq
  obtain ⟨hopen, hslots, -, href, -⟩ := h.iget (h.inums _ _ (List.mem_of_getElem? hslot)) hget
  obtain ⟨hopen', hslots'⟩ := hopen.iput hne href hput
  exact ⟨rfl, hopen', hslots'.trans hslots⟩

theorem linked (h : OpenDir L e s) (habsent : s.dirMap L e (canon name) = none) (hpos : 0 < inum)
    (hinode : inum < L.inodes) (hfits : inum < 65536)
    (hlink : s.dirlink L e name inum = some (s', r)) :
    r = 0 ∧ OpenDir L e s' ∧ s'.dirMap L e = update (s.dirMap L e) (canon name) (some inum) ∧
      (s'.entry e).din.size =
        if none ∈ s.slots L e then (s.entry e).din.size else (s.entry e).din.size + 16 := by
  rw [h.dirlink_absent habsent] at hlink
  obtain ⟨s₁, hw, heq⟩ := Option.map_eq_some_iff.mp hlink
  obtain ⟨rfl, rfl⟩ := Prod.mk.inj heq
  have hcases := free_slot_cases (s.slots L e)
  have hlen : (s.slots L e).length = (s.entry e).din.size / 16 := length_slots
  obtain ⟨⟨hinv, href, hvalid, hdir, hwhole⟩, hsize, hslots⟩ :=
    h.writeDirent (by omega) (length_direntBytes inum name) hw
  have hslot : slotOfDirent (direntOf (direntBytes inum name)) = some (canon name, inum) := by
    rw [direntOf_direntBytes hfits, slotOfDirent, if_neg (by dsimp only; omega)]
  obtain ⟨hdistinct, hmap⟩ := h.distinct.fill hslots hslot (free_slot _) habsent
  refine ⟨rfl, ⟨hinv, href, hvalid, hdir, hwhole, hdistinct, fun c i hmem => ?_⟩, hmap, ?_⟩
  · obtain ⟨j, hj⟩ := List.mem_iff_getElem?.mp hmem
    rcases SlotMap.getElem?_put hslots hj with ⟨-, hnew⟩ | ⟨-, hold⟩
    · rw [hslot] at hnew
      cases hnew
      exact hinode
    · exact h.inums c i (List.mem_of_getElem? hold)
  · have hold := h.whole
    rcases hcases with ⟨hmem, hlt⟩ | ⟨hmem, hend⟩
    · rw [if_pos hmem]
      omega
    · rw [if_neg hmem]
      omega

theorem removed (h : OpenDir L e s) {x : Option Slot}
    (hclear : s.direntClear L e name = some (s', x)) :
    OpenDir L e s' ∧ s'.dirMap L e = update (s.dirMap L e) (canon name) none ∧
      x.isSome = (s.dirMap L e (canon name)).isSome := by
  obtain ⟨hnone, hlookup⟩ | ⟨k, i, hsome, hslot, hlookup⟩ := h.dirlookup name
  · rw [State.direntClear, hlookup] at hclear
    cases hclear
    refine ⟨h, ?_, by rw [hnone]; rfl⟩
    rw [← hnone, Function.update_eq_self]
  · rw [State.direntClear, hlookup] at hclear
    obtain ⟨y, hy, hclear⟩ := Option.bind_eq_some_iff.mp hclear
    obtain ⟨⟨s₁, e'⟩, hget, rfl⟩ := Option.map_eq_some_iff.mp hy
    obtain ⟨s₂, hw, heq⟩ := Option.map_eq_some_iff.mp hclear
    obtain ⟨rfl, rfl⟩ := Prod.mk.inj heq
    obtain ⟨hopen, hslots₁, -, -, hdin⟩ := h.iget (h.inums _ _ (List.mem_of_getElem? hslot)) hget
    obtain ⟨hklt, -⟩ := List.getElem?_eq_some_iff.mp hslot
    rw [length_slots] at hklt
    obtain ⟨⟨hinv, href, hvalid, hdir, hwhole⟩, -, hslots⟩ :=
      hopen.writeDirent (by rw [hdin]; exact hklt.le) (List.length_replicate) hw
    have hfree : slotOfDirent (direntOf (List.replicate 16 0)) = none := by
      rw [direntOf_zeros]
      rfl
    rw [← hslots₁] at hslot
    obtain ⟨hdistinct, hmap⟩ := hopen.distinct.free hslots hfree hslot
    refine ⟨⟨hinv, href, hvalid, hdir, hwhole, hdistinct, fun c i hmem => ?_⟩, ?_, by rw [hsome]; rfl⟩
    · obtain ⟨j, hj⟩ := List.mem_iff_getElem?.mp hmem
      rcases SlotMap.getElem?_put hslots hj with ⟨-, hnew⟩ | ⟨-, hold⟩
      · rw [hfree] at hnew
        cases hnew
      · exact hopen.inums c i (List.mem_of_getElem? hold)
    · rw [State.dirMap, hmap, hslots₁]
      rfl

theorem step (h : OpenDir L e s) {op : DirOp} {a : Answer} (hstep : s.dirStep L e op = some (s', a)) :
    OpenDir L e s' ∧ (s'.dirMap L e, a) = mapStep (s.dirMap L e) op := by
  cases op with
  | lookup name =>
    obtain ⟨x, hx, heq⟩ := Option.map_eq_some_iff.mp hstep
    obtain ⟨rfl, rfl⟩ := Prod.mk.inj heq
    obtain ⟨hnone, hlookup⟩ | ⟨k, i, hsome, hslot, hlookup⟩ := h.dirlookup name
    · rw [hlookup] at hx
      cases hx
      exact ⟨h, by rw [mapStep, hnone]; rfl⟩
    · rw [hlookup] at hx
      obtain ⟨⟨s₁, e'⟩, hget, rfl⟩ := Option.map_eq_some_iff.mp hx
      obtain ⟨hopen, hslots, hinum, -, -⟩ := h.iget (h.inums _ _ (List.mem_of_getElem? hslot)) hget
      refine ⟨hopen, ?_⟩
      rw [mapStep, hsome, ← hinum, State.dirMap, State.dirMap]
      dsimp only
      rw [hslots]
      rfl
  | link name inum =>
    simp only [State.dirStep] at hstep
    split at hstep
    · next hok =>
      obtain ⟨⟨s₁, r⟩, hlink, heq⟩ := Option.map_eq_some_iff.mp hstep
      obtain ⟨rfl, rfl⟩ := Prod.mk.inj heq
      cases hmap : s.dirMap L e (canon name) with
      | none =>
        obtain ⟨rfl, hopen, hmap', -⟩ := h.linked hmap hok.1 hok.2.1 hok.2.2 hlink
        exact ⟨hopen, by rw [mapStep, if_pos hmap, hmap']; rfl⟩
      | some i =>
        obtain ⟨rfl, hopen, hslots⟩ := h.dirlink_present hmap hlink
        refine ⟨hopen, ?_⟩
        rw [mapStep, if_neg (by rw [hmap]; nofun), State.dirMap, State.dirMap]
        dsimp only
        rw [hslots]
        rfl
    · cases hstep
  | remove name =>
    obtain ⟨⟨s₁, x⟩, hclear, heq⟩ := Option.map_eq_some_iff.mp hstep
    obtain ⟨rfl, rfl⟩ := Prod.mk.inj heq
    obtain ⟨hopen, hmap, hx⟩ := h.removed hclear
    exact ⟨hopen, by rw [mapStep, hmap, hx]⟩
  | put e' =>
    simp only [State.dirStep] at hstep
    split at hstep
    · next hok =>
      obtain ⟨s₁, hput, heq⟩ := Option.map_eq_some_iff.mp hstep
      obtain ⟨rfl, rfl⟩ := Prod.mk.inj heq
      obtain ⟨hopen, hslots⟩ := h.iput hok.1 hok.2 hput
      exact ⟨hopen, by rw [mapStep, State.dirMap, State.dirMap, hslots]⟩
    · cases hstep

theorem exists_dirlink (h : OpenDir L e s) (habsent : s.dirMap L e (canon name) = none) :
    (∃ s', s.dirlink L e name inum = some (s', 0)) ↔ s.HasRoom L e := by
  obtain ⟨v, -, hl, -⟩ := h.locked
  have hlen : (s.slots L e).length = (s.entry e).din.size / 16 := length_slots
  have hwhole := h.whole
  have hsize := hl.size_le
  have hwrite : (∃ s', s.writeDirent L e (direntBytes inum name)
      (16 * (s.slots L e).findIdx Option.isNone) = some s') ↔ s.HasRoom L e := by
    rcases free_slot_cases (s.slots L e) with ⟨hmem, hlt⟩ | ⟨hmem, hend⟩
    · have hin : 16 * (s.slots L e).findIdx Option.isNone < (s.entry e).din.size := by omega
      rw [hl.writeDirent_isSome h.dir hwhole (by omega), hl.lacks_of_lt hin]
      exact ⟨fun _ => .inl hmem, fun _ => ⟨by omega, Nat.zero_le _⟩⟩
    · rw [hl.writeDirent_isSome h.dir hwhole (by omega), State.HasRoom, hend, hlen, Nat.mul_add,
        show 16 * ((s.entry e).din.size / 16) = (s.entry e).din.size by omega]
      exact ⟨.inr, fun hroom => hroom.resolve_left hmem⟩
  rw [h.dirlink_absent habsent, ← hwrite]
  constructor
  · rintro ⟨s', hs'⟩
    obtain ⟨s₁, hw, -⟩ := Option.map_eq_some_iff.mp hs'
    exact ⟨s₁, hw⟩
  · rintro ⟨s', hw⟩
    exact ⟨s', by rw [hw]; rfl⟩

end OpenDir

theorem openDir_of_reach (h : Reach (dirMachine L e) anyStep s) : OpenDir L e s := by
  refine h.invariant (fun _ hs => hs) ?_
  rintro s op s' - hopen - ⟨a, hstep⟩
  exact (hopen.step hstep).1

/-- **A directory is a map.** In every run of the calls on a directory: no name occurs twice; each
call does to the directory what it does to the map, and returns the same; `dirlink` succeeds exactly
when the name is absent and there is room; and it lets the directory grow only if no entry is free. -/
theorem directory_refines_map (h : Reach (dirMachine L e) anyStep s) :
    SlotMap.Distinct (s.slots L e) ∧
    (∀ op s' a, s.dirStep L e op = some (s', a) →
      (s'.dirMap L e, a) = mapStep (s.dirMap L e) op) ∧
    ∀ name inum, 0 < inum → inum < L.inodes → inum < 65536 →
      ((∃ s', s.dirlink L e name inum = some (s', 0)) ↔
        s.dirMap L e (canon name) = none ∧ s.HasRoom L e) ∧
      ∀ s', s.dirlink L e name inum = some (s', 0) → (s'.entry e).din.size =
        if none ∈ s.slots L e then (s.entry e).din.size else (s.entry e).din.size + 16 := by
  have hopen := openDir_of_reach h
  refine ⟨hopen.distinct, fun op s' a hstep => (hopen.step hstep).2,
    fun name inum hpos hinode hfits => ?_⟩
  -- a success shows that the name was absent
  have habsent : ∀ s', s.dirlink L e name inum = some (s', 0) →
      s.dirMap L e (canon name) = none := by
    intro s' hlink
    cases hmap : s.dirMap L e (canon name) with
    | none => rfl
    | some i => exact absurd (hopen.dirlink_present hmap hlink).1 (by decide)
  refine ⟨⟨fun ⟨s', hlink⟩ => ?_, fun ⟨hnone, hroom⟩ => (hopen.exists_dirlink hnone).mpr hroom⟩,
    fun s' hlink => ?_⟩
  · exact ⟨habsent s' hlink, (hopen.exists_dirlink (habsent s' hlink)).mp ⟨s', hlink⟩⟩
  · exact (hopen.linked (habsent s' hlink) hpos hinode hfits hlink).2.2.2

theorem exists_openDir {img : State} (himg : Mounted smallDisk img)
    (slots : List (Option (List UInt8 × ℕ))) (hdistinct : SlotMap.Distinct slots)
    (hinums : ∀ o ∈ slots, ∀ p ∈ o, p.2 < smallDisk.inodes) (P : State → Prop) [DecidablePred P]
    (hrun : (exec (State.next smallDisk) img [.iget 1, .readi 0 0 0 (fun _ => true) 0]).any
      (fun s => decide ((0 < (s.entry 0).ref ∧ (s.entry 0).valid = true ∧
        (s.entry 0).din.type = .dir ∧ (s.entry 0).din.size % 16 = 0 ∧
        s.slots smallDisk 0 = slots) ∧ P s)) = true) :
    ∃ s, OpenDir smallDisk 0 s ∧ s.slots smallDisk 0 = slots ∧ P s := by
  obtain ⟨s, -, hs, ⟨href, hvalid, hdir, hwhole, hslots⟩, hP⟩ :=
    Reach.exists_of_exec (machine_step smallDisk (Mounted smallDisk)) himg
      [.iget 1, .readi 0 0 0 (fun _ => true) 0] _ hrun
  refine ⟨s, ⟨inv_of_reach (fun _ h => h) hs, href, hvalid, hdir, hwhole, hslots ▸ hdistinct,
    fun c i hmem => ?_⟩, hslots, hP⟩
  rw [hslots] at hmem
  exact hinums _ hmem (c, i) rfl

/-- The slots of the root directory of the image with one file. -/
def namedSlots : List (Option (List UInt8 × ℕ)) :=
  [some ([46], 1), some ([46, 46], 1), some ([97], 2)]

theorem namedSlots_distinct : SlotMap.Distinct namedSlots := by
  have hkeys : ∀ i < 3, ∀ j < 3, namedSlots[i]?.join.map Prod.fst = namedSlots[j]?.join.map Prod.fst →
      i = j := by decide
  intro i j p q hi hj hpq
  have hlt : ∀ {i : ℕ} {p : List UInt8 × ℕ}, namedSlots[i]? = some (some p) → i < 3 := fun h =>
    (List.getElem?_eq_some_iff.mp h).1
  refine hkeys i (hlt hi) j (hlt hj) ?_
  rw [hi, hj]
  exact congrArg some hpq

/-- A name is added to the root directory of the image with one file, which grows by an entry. -/
theorem directory_refines_map_link : ∃ s s' : State, s.dirlink smallDisk 0 [98] 2 = some (s', 0) ∧
    (s.entry 0).din.size = 48 ∧ (s'.entry 0).din.size = 64 := by
  obtain ⟨s, hopen, hslots, hsize, hroom⟩ := exists_openDir namedImage_mounted namedSlots
    namedSlots_distinct (by decide) (fun s => (s.entry 0).din.size = 48 ∧
      (s.lacks 0 (positions 0)).card ≤ (s.free smallDisk).card) (by decide)
  obtain ⟨-, -, hlink⟩ := directory_refines_map (.init hopen)
  obtain ⟨hiff, hgrows⟩ := hlink [98] 2 (by decide) (by decide) (by decide)
  have habsent : s.dirMap smallDisk 0 (canon [98]) = none := by
    rw [State.dirMap, hslots]
    decide
  obtain ⟨s', hs'⟩ := hiff.mpr ⟨habsent, .inr ⟨by rw [hsize]; decide, by rw [hsize]; exact hroom⟩⟩
  refine ⟨s, s', hs', hsize, ?_⟩
  rw [hgrows s' hs', hslots, hsize]
  decide

/-- An image with an empty root directory and no free block. -/
def fullImage : State where
  bit _ := true
  dinode i := ⟨if i = 1 then .dir else .free, 0, 0, 1, 0, fun _ => 0⟩
  block _ _ := 0
  entry _ := ⟨0, 0, false, ⟨.free, 0, 0, 0, 0, fun _ => 0⟩⟩

theorem fullImage_mounted : Mounted smallDisk fullImage where
  sound := by
    have hnone : ∀ p, refAt smallDisk fullImage.dinode fullImage.block p = none := by
      intro p
      rw [refAt, if_neg]
      rintro ⟨-, -, hat⟩
      exact hat (Dinode.at_eq_zero (fun _ _ => rfl) _)
    refine ⟨⟨fun p q b hp => ?_, fun p b hp => ?_, fun p b hp => ?_⟩, fun _ _ => rfl,
      fun i _ _ => Nat.zero_le _, fun i _ _ bn hbn => absurd hbn (Nat.not_lt_zero _)⟩
    all_goals
      rw [hnone] at hp
      cases hp
  free _ := rfl

/-- A name that is absent is not added: there is no free entry and no free block, and the kernel
panics. -/
theorem dirlink_panics : ∃ s : State, OpenDir smallDisk 0 s ∧
    s.dirMap smallDisk 0 (canon [98]) = none ∧ s.dirlink smallDisk 0 [98] 2 = none := by
  obtain ⟨s, hopen, hslots, hlink⟩ := exists_openDir fullImage_mounted []
    (fun _ _ _ _ h => by cases h) (by decide)
    (fun s => (s.dirlink smallDisk 0 [98] 2).isNone = true) (by decide)
  refine ⟨s, hopen, ?_, Option.isNone_iff_eq_none.mp hlink⟩
  rw [State.dirMap, hslots]
  rfl

end KThreads.Inode
