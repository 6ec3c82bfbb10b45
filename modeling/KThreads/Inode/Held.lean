import KThreads.Inode.Names

/-!
# The references that a call holds

The counters of the inode cache, through the calls on inodes. From whatever state it is made, a call
leaves the counters as they are, but for the references that it takes or gives back.
-/

namespace KThreads.Inode

/-- The counters of the cache are the same. -/
def SameRefs (s s' : State) : Prop := ∀ e, (s'.entry e).ref = (s.entry e).ref

theorem SameRefs.refl (s : State) : SameRefs s s := fun _ => rfl

theorem SameRefs.trans {s s' s'' : State} (h : SameRefs s s') (h' : SameRefs s' s'') : SameRefs s s'' :=
  fun e => (h' e).trans (h e)

section

variable {L : Layout} {s s' : State} {e : Slot}

theorem sameRefs_setEntry {q : Entry} (hq : q.ref = (s.entry e).ref) : SameRefs s (s.setEntry e q) := by
  intro e'
  by_cases he : e' = e
  · rw [he, State.setEntry_self, hq]
  · rw [State.setEntry_of_ne he]

theorem sameRefs_setDin (d : Dinode) : SameRefs s (s.setDin e d) := sameRefs_setEntry rfl

theorem State.sameRefs_bfreeAll {as : List ℕ} (h : s.bfreeAll as = some s') : SameRefs s s' := by
  induction as generalizing s with
  | nil =>
    cases h
    exact .refl _
  | cons a as ih =>
    rw [State.bfreeAll] at h
    obtain ⟨s₁, hfree, h⟩ := Option.bind_eq_some_iff.mp h
    refine SameRefs.trans ?_ (ih h)
    split at hfree
    · cases hfree
      exact .refl s
    · rw [State.bfree] at hfree
      split at hfree
      · cases hfree
        exact .refl s
      · cases hfree

theorem State.sameRefs_itrunc (h : s.itrunc e = some s') : SameRefs s s' := by
  rw [State.itrunc] at h
  obtain ⟨s₁, hdirect, h⟩ := Option.bind_eq_some_iff.mp h
  obtain ⟨s₂, hindirect, rfl⟩ := Option.map_eq_some_iff.mp h
  have hfirst := State.sameRefs_bfreeAll hdirect
  have hsecond : SameRefs s₁ s₂ := by
    split at hindirect
    · cases hindirect
      exact .refl s₁
    · obtain ⟨s₃, hblocks, hfree⟩ := Option.bind_eq_some_iff.mp hindirect
      refine (State.sameRefs_bfreeAll hblocks).trans ?_
      rw [State.bfree] at hfree
      split at hfree
      · cases hfree
        exact .refl s₃
      · cases hfree
  exact (hfirst.trans hsecond).trans (sameRefs_setDin _)

theorem State.sameRefs_grab {a b : ℕ} {put : State → ℕ → State} (hput : ∀ s a, SameRefs s (put s a))
    (h : s.grab L a put = some (s', b)) : SameRefs s s' := by
  rw [State.grab] at h
  split at h
  · obtain ⟨x, halloc, heq⟩ := Option.map_eq_some_iff.mp h
    have hsame : SameRefs s x.1 := by
      rw [State.balloc] at halloc
      obtain ⟨b₁, -, rfl⟩ := Option.map_eq_some_iff.mp halloc
      exact .refl s
    rw [← (Prod.mk.inj heq).1]
    exact hsame.trans (hput x.1 x.2)
  · cases h
    exact .refl s

theorem State.sameRefs_bmap {bn b : ℕ} (h : s.bmap L e bn = some (s', b)) : SameRefs s s' := by
  have hput : ∀ k (s : State) a, SameRefs s (s.setAddr e k a) := fun _ _ _ => sameRefs_setDin _
  rw [State.bmap] at h
  split at h
  · exact State.sameRefs_grab (hput bn) h
  · split at h
    · obtain ⟨⟨s₁, b₁⟩, hfirst, hsecond⟩ := Option.bind_eq_some_iff.mp h
      refine (State.sameRefs_grab (hput NDIRECT) hfirst).trans (State.sameRefs_grab ?_ hsecond)
      exact fun _ _ _ => rfl
    · cases h

theorem State.sameRefs_copyLoop {α : Type} {put : State → α → ℕ → ℕ → ℕ → State × α} {copies : ℕ → Bool}
    (hput : ∀ s acc a o m, SameRefs s (put s acc a o m).1) {fuel off left i : ℕ} {acc : α}
    {r : State × α × ℕ × Bool} (h : State.copyLoop L e put copies fuel s acc off left i = some r) :
    SameRefs s r.1 := by
  induction fuel generalizing s acc off left i with
  | zero =>
    cases h
    exact .refl s
  | succ fuel ih =>
    rw [State.copyLoop] at h
    split at h
    · cases h
      exact .refl s
    · obtain ⟨⟨s₁, b⟩, hmap, h⟩ := Option.bind_eq_some_iff.mp h
      have hsame := State.sameRefs_bmap hmap
      dsimp only at h
      split at h
      · exact (hsame.trans (hput s₁ acc b off _)).trans (ih h)
      · cases h
        exact hsame

theorem State.sameRefs_readi {off n : UInt32} {copies : ℕ → Bool} {r : ℤ} {x : State × ℤ × List UInt8}
    (h : s.readi L e off n copies r = some x) : SameRefs s x.1 := by
  rw [State.readi] at h
  dsimp only at h
  split at h
  · cases h
    exact .refl s
  · split at h
    · cases h
      exact .refl s
    · obtain ⟨y, hloop, rfl⟩ := Option.map_eq_some_iff.mp h
      exact State.sameRefs_copyLoop (fun s _ _ _ _ => .refl s) hloop

theorem State.sameRefs_writei {src : ℕ → UInt8} {off n : UInt32} {copies : ℕ → Bool} {r : ℤ} {x : State × ℤ}
    (h : s.writei L e src off n copies r = some x) : SameRefs s x.1 := by
  rw [State.writei] at h
  dsimp only at h
  split at h
  · cases h
    exact .refl s
  split at h
  · cases h
    exact .refl s
  split at h
  · cases h
    exact .refl s
  obtain ⟨y, hloop, rfl⟩ := Option.map_eq_some_iff.mp h
  have hsame : SameRefs s y.1 := State.sameRefs_copyLoop (fun s _ _ _ _ => .refl s) hloop
  split
  · exact hsame
  · split
    · exact hsame.trans (sameRefs_setDin _)
    · exact hsame

theorem State.sameRefs_ilock (h : s.ilock e = some s') : SameRefs s s' := by
  rw [State.ilock] at h
  split at h
  · cases h
    exact .refl s
  · split at h
    · cases h
    · cases h
      exact sameRefs_setEntry rfl

end

/-- Since the state `s₀`, one reference was taken for each of the entries `es`. -/
def Holds (s₀ s : State) (es : List Slot) : Prop := ∀ e, (s.entry e).ref = (s₀.entry e).ref + es.count e

namespace Holds

variable {L : Layout} {s₀ s s' : State} {e : Slot} {es es' : List Slot} {name : List UInt8}

theorem refl : Holds s s [] := fun _ => rfl

theorem same (h : Holds s₀ s es) (hsame : SameRefs s s') : Holds s₀ s' es := fun e => (hsame e).trans (h e)

theorem perm (h : Holds s₀ s es) (hperm : es.Perm es') : Holds s₀ s es' := fun e => by
  rw [h e, hperm.count_eq]

theorem idup (h : Holds s₀ s es) : Holds s₀ (s.idup e) (e :: es) := by
  intro e'
  by_cases he : e' = e
  · rw [he, State.idup, State.setEntry_self, List.count_cons_self, ← Nat.add_assoc, ← h e]
  · rw [State.idup, State.setEntry_of_ne he, List.count_cons_of_ne (Ne.symm he), h e']

theorem iget {i : ℕ} (h : Holds s₀ s es) (hget : s.iget i = some (s', e)) : Holds s₀ s' (e :: es) := by
  rw [State.iget] at hget
  split at hget
  · cases hget
    exact h.idup
  · obtain ⟨e₁, hfound, heq⟩ := Option.map_eq_some_iff.mp hget
    cases heq
    have hfree : (s.entry e).ref = 0 := by simpa using List.find?_some hfound
    intro e'
    by_cases he : e' = e
    · rw [he, State.setEntry_self, List.count_cons_self, ← Nat.add_assoc, ← h e, hfree]
    · rw [State.setEntry_of_ne he, List.count_cons_of_ne (Ne.symm he), h e']

theorem iput (h : Holds s₀ s (e :: es)) (hput : s.iput e = some s') : Holds s₀ s' es := by
  rw [State.iput] at hput
  obtain ⟨s₁, hfree, rfl⟩ := Option.map_eq_some_iff.mp hput
  -- The inode may be freed before the reference is dropped.
  have hsame : SameRefs s s₁ := by
    split at hfree
    · obtain ⟨s₂, htrunc, rfl⟩ := Option.map_eq_some_iff.mp hfree
      refine (State.sameRefs_itrunc htrunc).trans ?_
      exact (sameRefs_setDin _).trans (sameRefs_setEntry rfl)
    · cases hfree
      exact .refl s
  have hrefs := h.same hsame
  intro e'
  by_cases he : e' = e
  · rw [he, State.setEntry_self]
    dsimp only
    rw [hrefs e, List.count_cons_self]
    omega
  · rw [State.setEntry_of_ne he, hrefs e', List.count_cons_of_ne (Ne.symm he)]

theorem ialloc {type : FileType} (h : Holds s₀ s es) (halloc : s.ialloc L type = some (s', e)) :
    Holds s₀ s' (e :: es) := by
  rw [State.ialloc] at halloc
  obtain ⟨i, -, hget⟩ := Option.bind_eq_some_iff.mp halloc
  have hsame : Holds s₀ { s with dinode := Function.update s.dinode i ⟨type, 0, 0, 0, 0, fun _ => 0⟩ } es :=
    h.same fun _ => rfl
  exact hsame.iget hget

theorem dirlookup {r : State × Option (Slot × ℕ)} (h : Holds s₀ s es) (hlook : s.dirlookup L e name = some r) :
    Holds s₀ r.1 ((r.2.map Prod.fst).toList ++ es) := by
  have hloop : ∀ {fuel s off} {x : State × Option (ℕ × ℕ)},
      State.dirlookupLoop L e name fuel s off = some x → SameRefs s x.1 := by
    intro fuel
    induction fuel with
    | zero =>
      intro s off x hx
      cases hx
      exact .refl s
    | succ fuel ih =>
      intro s off x hx
      rw [State.dirlookupLoop] at hx
      split at hx
      · obtain ⟨y, hread, hx⟩ := Option.bind_eq_some_iff.mp hx
        have hsame := State.sameRefs_readi hread
        split at hx
        · cases hx
        split at hx
        · exact hsame.trans (ih hx)
        split at hx
        · cases hx
          exact hsame
        · exact hsame.trans (ih hx)
      · cases hx
        exact .refl s
  rw [State.dirlookup] at hlook
  split at hlook
  · cases hlook
  obtain ⟨x, hx, hlook⟩ := Option.bind_eq_some_iff.mp hlook
  have hsame := h.same (hloop hx)
  split at hlook
  · cases hlook
    exact hsame
  · obtain ⟨y, hget, rfl⟩ := Option.map_eq_some_iff.mp hlook
    exact hsame.iget hget

theorem dirlink {inum : ℕ} {r : State × ℤ} (h : Holds s₀ s es) (hlink : s.dirlink L e name inum = some r) :
    Holds s₀ r.1 es := by
  have hloop : ∀ {fuel s off} {x : State × ℕ}, State.emptyLoop L e fuel s off = some x → SameRefs s x.1 := by
    intro fuel
    induction fuel with
    | zero =>
      intro s off x hx
      cases hx
      exact .refl s
    | succ fuel ih =>
      intro s off x hx
      rw [State.emptyLoop] at hx
      split at hx
      · obtain ⟨y, hread, hx⟩ := Option.bind_eq_some_iff.mp hx
        have hsame := State.sameRefs_readi hread
        split at hx
        · cases hx
        split at hx
        · cases hx
          exact hsame
        · exact hsame.trans (ih hx)
      · cases hx
        exact .refl s
  rw [State.dirlink] at hlink
  obtain ⟨⟨s₁, found⟩, hlook, hlink⟩ := Option.bind_eq_some_iff.mp hlink
  have hlook := h.dirlookup hlook
  cases found with
  | some y =>
    obtain ⟨e', off⟩ := y
    dsimp only at hlink
    split at hlink
    · cases hlink
    · obtain ⟨s₂, hput, rfl⟩ := Option.map_eq_some_iff.mp hlink
      exact hlook.iput hput
  | none =>
    obtain ⟨y, hempty, hlink⟩ := Option.bind_eq_some_iff.mp hlink
    obtain ⟨s₂, hwrite, rfl⟩ := Option.map_eq_some_iff.mp hlink
    rw [State.writeDirent] at hwrite
    obtain ⟨z, hwritei, hz⟩ := Option.bind_eq_some_iff.mp hwrite
    split at hz
    · cases hz
    · have hsame : SameRefs y.1 z.1 := State.sameRefs_writei hwritei
      cases hz
      exact (hlook.same (hloop hempty)).same hsame

theorem namex {cwd : Slot} {path : List UInt8} {parent : Bool} {r : State × Option (Slot × List UInt8)}
    (h : Holds s₀ s es) (hnamex : s.namex L cwd path parent = some r) :
    Holds s₀ r.1 ((r.2.map Prod.fst).toList ++ es) := by
  have hloop : ∀ {fuel s e path name}, Holds s₀ s (e :: es) →
      State.namexLoop L parent fuel s e path name = some r → Holds s₀ r.1 ((r.2.map Prod.fst).toList ++ es) := by
    intro fuel
    induction fuel with
    | zero =>
      intro s e path name _ hr
      cases hr
    | succ fuel ih =>
      intro s e path name h hr
      rw [State.namexLoop] at hr
      split at hr
      · split at hr
        · obtain ⟨s₁, hput, rfl⟩ := Option.map_eq_some_iff.mp hr
          exact h.iput hput
        · cases hr
          exact h
      · obtain ⟨s₁, hlock, hr⟩ := Option.bind_eq_some_iff.mp hr
        have h₁ := h.same (State.sameRefs_ilock hlock)
        split at hr
        · obtain ⟨s₂, hput, rfl⟩ := Option.map_eq_some_iff.mp hr
          exact h₁.iput hput
        split at hr
        · cases hr
          exact h₁
        · obtain ⟨⟨s₂, found⟩, hlook, hr⟩ := Option.bind_eq_some_iff.mp hr
          obtain ⟨s₃, hput, hr⟩ := Option.bind_eq_some_iff.mp hr
          have h₂ := h₁.dirlookup hlook
          cases found with
          | none =>
            cases hr
            exact h₂.iput hput
          | some y => exact ih ((h₂.perm (.swap _ _ _)).iput hput) hr
  rw [State.namex] at hnamex
  split at hnamex
  · obtain ⟨x, hget, hnamex⟩ := Option.bind_eq_some_iff.mp hnamex
    exact hloop (h.iget hget) hnamex
  · exact hloop h.idup hnamex

end Holds

end KThreads.Inode
