import KThreads.Inodes
import KThreads.Inode.Directory

/-!
# Paths

`namei` folds the lookup of a name over the components of the path, from the root directory or from
the current directory, and `nameiparent` stops before the last component. Whatever the outcome, one
reference is left, to the inode that is returned. The only panic that is left is that of `iget`,
which needs an entry of the cache; two free entries are enough.
-/

namespace KThreads.Inode

/-- The components of a path. -/
def components (path : List UInt8) : List (List UInt8) :=
  ((path.splitOnP (· = 47)).filter (· ≠ [])).map (·.take DIRSIZ)

section

variable {path name rest : List UInt8}

theorem components_nil : components [] = [] := by simp [components, List.splitOnP_nil]

theorem components_slash (path : List UInt8) : components (47 :: path) = components path := by
  rw [components, components, ← List.nil_append (47 :: path),
    List.splitOnP_append_cons [] path (by decide), List.splitOnP_nil]
  rfl

theorem components_dropWhile (path : List UInt8) :
    components (path.dropWhile (· = 47)) = components path := by
  induction path with
  | nil => rfl
  | cons b path ih =>
    by_cases hb : b = 47
    · rw [List.dropWhile_cons_of_pos (by simpa using hb), ih, hb, components_slash]
    · rw [List.dropWhile_cons_of_neg (by simpa using hb)]

theorem components_append (hname : name ≠ []) (hslash : ∀ b ∈ name, b ≠ 47)
    (hrest : rest = [] ∨ rest.head? = some 47) :
    components (name ++ rest) = name.take DIRSIZ :: components rest := by
  have hpart : name.splitOnP (· = 47) = [name] :=
    List.splitOnP_eq_singleton fun b hb => decide_eq_false (hslash b hb)
  rcases hrest with rfl | hhead
  · rw [List.append_nil, components_nil, components, hpart]
    simp [hname]
  · obtain ⟨rest, rfl⟩ : ∃ r, rest = 47 :: r := by
      cases rest with
      | nil => cases hhead
      | cons b r => exact ⟨r, by rw [Option.some.inj hhead]⟩
    rw [components_slash, components, List.splitOnP_append_cons _ _ (by decide), hpart]
    simp [hname, components]

theorem dropWhile_cases (p : UInt8 → Bool) (path : List UInt8) :
    path.dropWhile p = [] ∨ ∃ b q, path.dropWhile p = b :: q ∧ p b = false := by
  cases hd : path.dropWhile p with
  | nil => exact .inl rfl
  | cons b q =>
    have hne : path.dropWhile p ≠ [] := by rw [hd]; exact List.cons_ne_nil _ _
    have hhead := List.head_dropWhile_not p hne
    simp only [hd, List.head_cons] at hhead
    exact .inr ⟨b, q, rfl, hhead⟩

theorem components_first {b : UInt8} (hb : b ≠ 47) (q : List UInt8) :
    components (b :: q) = ((b :: q).takeWhile (· ≠ 47)).take DIRSIZ ::
      components ((b :: q).dropWhile (· ≠ 47)) := by
  have hname : (b :: q).takeWhile (· ≠ 47) ≠ [] := by
    rw [List.takeWhile_cons_of_pos (by simpa using hb)]
    exact List.cons_ne_nil _ _
  have hslash : ∀ c ∈ (b :: q).takeWhile (· ≠ 47), c ≠ 47 := fun c hc => by
    simpa using List.mem_takeWhile_imp hc
  conv_lhs => rw [← List.takeWhile_append_dropWhile (p := (· ≠ 47)) (l := b :: q)]
  refine components_append hname hslash ?_
  rcases dropWhile_cases (· ≠ 47) (b :: q) with hnil | ⟨c, r, hcons, hc⟩
  · exact .inl hnil
  · rw [hcons]
    exact .inr (by simpa using hc)

theorem skipelem_none (h : skipelem path = none) : components path = [] := by
  unfold skipelem at h
  dsimp only at h
  split at h
  · next hempty => rw [← components_dropWhile, hempty, components_nil]
  · cases h

theorem skipelem_some (h : skipelem path = some (name, rest)) :
    components path = name :: components rest ∧ rest.length < path.length ∧
      (rest = [] ↔ components rest = []) := by
  unfold skipelem at h
  dsimp only at h
  split at h
  · cases h
  next hne =>
  obtain ⟨rfl, rfl⟩ := Prod.mk.inj (Option.some.inj h)
  obtain hnil | ⟨b, q, hbq, hb⟩ := dropWhile_cases (· = 47) path
  · exact absurd hnil hne
  have hpath : components path = components (b :: q) := by rw [← components_dropWhile path, hbq]
  rw [hpath, components_dropWhile, hbq, components_first (by simpa using hb)]
  refine ⟨rfl, ?_, ?_⟩
  · have hslashes := List.length_dropWhile_le (fun b : UInt8 => decide (b = 47)) path
    have hrest := List.length_dropWhile_le (fun b : UInt8 => decide (b = 47))
      ((b :: q).dropWhile (· ≠ 47))
    have hfirst := List.length_dropWhile_le (fun b : UInt8 => decide (b ≠ 47)) q
    rw [hbq, List.length_cons] at hslashes
    rw [List.dropWhile_cons_of_pos (by simpa using hb)] at hrest ⊢
    omega
  · rw [← components_dropWhile]
    rcases dropWhile_cases (· = 47) ((b :: q).dropWhile (· ≠ 47)) with hnil | ⟨c, r, hcons, hc⟩
    · rw [hnil, components_nil]
      exact ⟨fun _ => rfl, fun _ => rfl⟩
    · rw [hcons, components_first (by simpa using hc)]
      exact ⟨nofun, nofun⟩

end

section

variable (L : Layout) (s : State)

/-- An inode that a name can lead to: it is allocated, and it has a link or is in use. -/
def Live (j : ℕ) : Prop :=
  j < L.inodes ∧ (s.dinode j).type ≠ .free ∧
    ((s.dinode j).nlink ≠ 0 ∨ ∃ e, 0 < (s.entry e).ref ∧ (s.entry e).inum = j)

/-- The directories on the disk consist of entries, and the entries in use lead to inodes. -/
structure Tree : Prop where
  root : Live L s ROOTINO
  whole : ∀ i, i < L.inodes → (s.dinode i).type = .dir → (s.dinode i).size % 16 = 0
  live : ∀ i, i < L.inodes → (s.dinode i).type = .dir →
    ∀ d ∈ dirents L s.dinode s.block i, d.1 ≠ 0 → Live L s d.1

/-- Look a name up in a directory on the disk. -/
def lookup (i : ℕ) (name : List UInt8) : Option ℕ :=
  if (s.dinode i).type = .dir then
    (dirFind (dirents L s.dinode s.block i) (canon name)).map Prod.fst
  else none

/-- The inode that some names lead to, one after the other. -/
def resolve (start : ℕ) (names : List (List UInt8)) : Option ℕ := names.foldlM (lookup L s) start

/-- The directory that has to be searched for the last name, and that name. -/
def resolveParent (start : ℕ) (names : List (List UInt8)) : Option (ℕ × List UInt8) :=
  names.getLast?.bind fun last =>
    (resolve L s start names.dropLast).bind fun i =>
      if (s.dinode i).type = .dir then some (i, last) else none

variable {L s} {i : ℕ} {c c' : List UInt8} {cs : List (List UInt8)}

theorem resolve_cons : resolve L s i (c :: cs) = (lookup L s i c).bind fun j => resolve L s j cs := by
  rw [resolve, List.foldlM_cons]
  rfl

theorem resolveParent_one :
    resolveParent L s i [c] = if (s.dinode i).type = .dir then some (i, c) else none := rfl

theorem resolveParent_cons : resolveParent L s i (c :: c' :: cs) =
    (lookup L s i c).bind fun j => resolveParent L s j (c' :: cs) := by
  simp only [resolveParent, List.getLast?_cons_cons, List.dropLast_cons_cons, resolve_cons]
  cases lookup L s i c with
  | none => cases (c' :: cs).getLast? <;> rfl
  | some j => rfl

theorem Tree.live_of_find (h : Tree L s) (hi : i < L.inodes) (hdir : (s.dinode i).type = .dir)
    {j off : ℕ} (hfind : dirFind (dirents L s.dinode s.block i) c = some (j, off)) : Live L s j := by
  obtain ⟨k, hk, heq⟩ := Option.map_eq_some_iff.mp hfind
  obtain ⟨hlt, hnamed, -⟩ := List.findIdx?_eq_some_iff_getElem.mp hk
  rw [List.getD_eq_getElem _ _ hlt] at heq
  obtain ⟨rfl, -⟩ := Prod.mk.inj heq
  exact h.live i hi hdir _ (List.getElem_mem hlt) (of_decide_eq_true hnamed).1

end

section

variable {L : Layout} {s₀ s s' : State} {v₀ : ℕ → Dinode} {e : Slot} {es : List Slot} {j : ℕ}

/-- The state of a walk that has taken one reference to each of the entries `es`. -/
structure Walk (L : Layout) (s₀ : State) (v₀ : ℕ → Dinode) (s : State) (es : List Slot) : Prop where
  inv : ∃ v, Inv L s v ∧ ∀ i, v i = v₀ i ∨ v i = s₀.dinode i
  dinode : s.dinode = s₀.dinode
  bit : s.bit = s₀.bit
  block : s.block = s₀.block
  refs : ∀ e, (s.entry e).ref = (s₀.entry e).ref + es.count e
  inums : ∀ e, 0 < (s₀.entry e).ref → (s.entry e).inum = (s₀.entry e).inum

namespace Walk

theorem refl (h : Inv L s₀ v₀) : Walk L s₀ v₀ s₀ [] :=
  ⟨⟨v₀, h, fun _ => .inl rfl⟩, rfl, rfl, rfl, fun _ => rfl, fun _ _ => rfl⟩

theorem perm (h : Walk L s₀ v₀ s es) {es' : List Slot} (hperm : es.Perm es') : Walk L s₀ v₀ s es' :=
  { h with refs := fun e => by rw [h.refs, hperm.count_eq] }

theorem ref_pos (h : Walk L s₀ v₀ s es) (he : e ∈ es) : 0 < (s.entry e).ref := by
  have hcount := List.count_pos_iff.mpr he
  have hrefs := h.refs e
  omega

theorem setEntry (h : Walk L s₀ v₀ s es) {es' : List Slot} {q : Entry} {v : ℕ → Dinode}
    (hinv : Inv L (s.setEntry e q) v) (hv : ∀ i, v i = v₀ i ∨ v i = s₀.dinode i)
    (href : q.ref = (s₀.entry e).ref + es'.count e)
    (hother : ∀ e', e' ≠ e → es'.count e' = es.count e')
    (hinum : 0 < (s₀.entry e).ref → q.inum = (s.entry e).inum) :
    Walk L s₀ v₀ (s.setEntry e q) es' := by
  refine ⟨⟨v, hinv, hv⟩, h.dinode, h.bit, h.block, fun e' => ?_, fun e' he' => ?_⟩
  · by_cases he : e' = e
    · rw [he, State.setEntry_self, href]
    · rw [State.setEntry_of_ne he, h.refs, hother e' he]
  · by_cases he : e' = e
    · rw [he] at he' ⊢
      rw [State.setEntry_self, hinum he', h.inums e he']
    · rw [State.setEntry_of_ne he, h.inums e' he']

theorem idup (h : Walk L s₀ v₀ s es) (href : 0 < (s.entry e).ref) :
    Walk L s₀ v₀ (s.idup e) (e :: es) := by
  obtain ⟨v, hinv, hv⟩ := h.inv
  refine h.setEntry (hinv.idup href) hv ?_ (fun e' he => List.count_cons_of_ne (Ne.symm he)) fun _ => rfl
  dsimp only
  rw [h.refs, List.count_cons_self, Nat.add_assoc]

theorem iget (h : Walk L s₀ v₀ s es) (hj : j < L.inodes) (hget : s.iget j = some (s', e)) :
    Walk L s₀ v₀ s' (e :: es) ∧ (s'.entry e).inum = j ∧
      ∀ e', 0 < (s.entry e').ref → (s'.entry e').inum = (s.entry e').inum ∧
        (s'.entry e').valid = (s.entry e').valid ∧ (s'.entry e').din = (s.entry e').din := by
  obtain ⟨v, hinv, hv⟩ := h.inv
  obtain ⟨hinv', -⟩ := hinv.iget hj hget
  rw [State.iget] at hget
  split at hget
  · next e₁ hfound =>
    obtain ⟨rfl, rfl⟩ := Prod.mk.inj (Option.some.inj hget)
    have hp := List.find?_some hfound
    simp only [decide_eq_true_eq] at hp
    refine ⟨h.idup hp.1, ?_, fun e' _ => ?_⟩
    · rw [State.setEntry_self]
      exact hp.2
    · by_cases he : e' = e₁
      · rw [he, State.setEntry_self]
        exact ⟨rfl, rfl, rfl⟩
      · rw [State.setEntry_of_ne he]
        exact ⟨rfl, rfl, rfl⟩
  · obtain ⟨e₁, hfound, heq⟩ := Option.map_eq_some_iff.mp hget
    obtain ⟨rfl, rfl⟩ := Prod.mk.inj heq
    have hfree : (s.entry e₁).ref = 0 := by simpa using List.find?_some hfound
    have hrefs := h.refs e₁
    refine ⟨h.setEntry hinv' hv ?_ (fun e' he => List.count_cons_of_ne (Ne.symm he))
      fun hpos => by omega, ?_, fun e' he' => ?_⟩
    · rw [List.count_cons_self]
      dsimp only
      omega
    · rw [State.setEntry_self]
    · have he : e' ≠ e₁ := by
        rintro rfl
        omega
      rw [State.setEntry_of_ne he]
      exact ⟨rfl, rfl, rfl⟩

theorem exists_iget (h : Walk L s₀ v₀ s es) {f : Slot} (hfree : (s₀.entry f).ref = 0) (hf : f ∉ es)
    (j : ℕ) : ∃ x, s.iget j = some x := by
  rw [State.iget]
  split
  · exact ⟨_, rfl⟩
  · have hf' : (s.entry f).ref = 0 := by rw [h.refs, hfree, List.count_eq_zero_of_not_mem hf]
    have hsome : (s.findEntry fun q => decide (q.ref = 0)).isSome = true := by
      rw [State.findEntry, List.find?_isSome]
      exact ⟨f, List.mem_finRange f, decide_eq_true hf'⟩
    obtain ⟨x, hx⟩ := Option.isSome_iff_exists.mp hsome
    exact ⟨_, by rw [hx]; rfl⟩

theorem ilock (h : Walk L s₀ v₀ s es) (he : e ∈ es) (htype : (s₀.dinode (s.entry e).inum).type ≠ .free) :
    ∃ s', s.ilock e = some s' ∧ Walk L s₀ v₀ s' es ∧ (s'.entry e).valid = true ∧
      (s'.entry e).inum = (s.entry e).inum := by
  obtain ⟨v, hinv, hv⟩ := h.inv
  rw [State.ilock]
  by_cases hvalid : (s.entry e).valid = true
  · exact ⟨s, if_pos hvalid, h, hvalid, rfl⟩
  · rw [if_neg hvalid, if_neg (by rwa [h.dinode])]
    refine ⟨_, rfl, ?_, by rw [State.setEntry_self], by rw [State.setEntry_self]⟩
    have hlock : s.ilock e = some (s.setEntry e { s.entry e with
        valid := true, din := s.dinode (s.entry e).inum }) := by
      rw [State.ilock, if_neg hvalid, if_neg (by rwa [h.dinode])]
    obtain ⟨hinv', -⟩ := hinv.ilock (h.ref_pos he) hlock
    exact h.setEntry hinv' hv (h.refs e) (fun _ _ => rfl) fun _ => rfl

theorem lags (h : Walk L s₀ v₀ s es) (he : e ∈ es) (hvalid : (s.entry e).valid = true) :
    Lags (s₀.dinode (s.entry e).inum) (s.entry e).din := by
  obtain ⟨v, hinv, -⟩ := h.inv
  have hlags := hinv.lags (s.entry e).inum
  rwa [hinv.cached e (h.ref_pos he) hvalid, h.dinode] at hlags

theorem dirlookup (h : Walk L s₀ v₀ s es) (htree : Tree L s₀) (he : e ∈ es)
    (hvalid : (s.entry e).valid = true) (hdir : (s.entry e).din.type = .dir) (name : List UInt8) :
    (lookup L s₀ (s.entry e).inum name = none ∧ s.dirlookup L e name = some (s, none)) ∨
      ∃ j off, lookup L s₀ (s.entry e).inum name = some j ∧ Live L s₀ j ∧
        s.dirlookup L e name = (s.iget j).map fun y => (y.1, some (y.2, off)) := by
  obtain ⟨v, hinv, -⟩ := h.inv
  obtain ⟨hl, hview⟩ := hinv.locked (h.ref_pos he) hvalid
  have hlags := h.lags he hvalid
  have hdisk : (s₀.dinode (s.entry e).inum).type = .dir := hlags.type.trans hdir
  have hwhole : (s.entry e).din.size % 16 = 0 := by
    rw [← hlags.size]
    exact htree.whole _ hl.inum hdisk
  have hents : dirents L (s.view v e) s.block (s.entry e).inum =
      dirents L s₀.dinode s₀.block (s.entry e).inum := by
    rw [hview, ← h.block, ← h.dinode]
    exact (hinv.lags _).dirents_eq.symm
  rw [hl.dirlookup hdir hwhole, hents, lookup, if_pos hdisk]
  cases hfind : dirFind (dirents L s₀.dinode s₀.block (s.entry e).inum) (canon name) with
  | none => exact .inl ⟨rfl, rfl⟩
  | some x => exact .inr ⟨x.1, x.2, rfl, htree.live_of_find hl.inum hdisk hfind, rfl⟩

theorem iput (h₀ : Inv L s₀ v₀) (h : Walk L s₀ v₀ s (e :: es)) (hlive : Live L s₀ (s.entry e).inum) :
    ∃ s', s.iput e = some s' ∧ Walk L s₀ v₀ s' es ∧ ∀ e', (s'.entry e').inum = (s.entry e').inum := by
  obtain ⟨v, hinv, hv⟩ := h.inv
  have hpos : 0 < (s.entry e).ref := h.ref_pos List.mem_cons_self
  have hrefs := h.refs e
  rw [List.count_cons_self] at hrefs
  -- if no other reference were there, the inode would be the one on the disk, with its links
  have hkeep : ¬((s.entry e).valid = true ∧ (s.entry e).din.nlink = 0 ∧ (s.entry e).ref = 1) := by
    rintro ⟨hvalid, hlink, hone⟩
    have hnone : ∀ e₁, 0 < (s₀.entry e₁).ref → (s₀.entry e₁).inum ≠ (s.entry e).inum := by
      intro e₁ hpos₁ heq
      have hpos' : 0 < (s.entry e₁).ref := by
        have := h.refs e₁
        omega
      obtain rfl := hinv.single e₁ e hpos' hpos (by rw [h.inums e₁ hpos₁, heq])
      omega
    have hdisk : v (s.entry e).inum = s₀.dinode (s.entry e).inum := by
      rcases hv (s.entry e).inum with heq | heq
      · rw [heq]
        exact h₀.disk _ fun e₁ hpos₁ _ => hnone e₁ hpos₁
      · exact heq
    rcases hlive.2.2 with hne | ⟨e₁, hpos₁, heq⟩
    · rw [← hdisk, hinv.cached e hpos hvalid] at hne
      exact hne hlink
    · exact hnone e₁ hpos₁ heq
  have hput : s.iput e = some (s.setEntry e { s.entry e with ref := (s.entry e).ref - 1 }) := by
    rw [State.iput]
    dsimp only
    rw [if_neg hkeep, Option.map_some]
  obtain ⟨v', hinv', -⟩ := hinv.iput hpos hput
  refine ⟨_, hput, h.setEntry hinv' (fun i => ?_) ?_
    (fun e' he => (List.count_cons_of_ne (Ne.symm he)).symm) fun _ => rfl, fun e' => ?_⟩
  · -- an inode is that of an entry in use, which is as before, or that on the disk
    by_cases hin : ∃ e', 0 < ((s.setEntry e { s.entry e with
        ref := (s.entry e).ref - 1 }).entry e').ref ∧ ((s.setEntry e { s.entry e with
        ref := (s.entry e).ref - 1 }).entry e').valid = true ∧ ((s.setEntry e { s.entry e with
        ref := (s.entry e).ref - 1 }).entry e').inum = i
    · obtain ⟨e', hpos', hvalid', rfl⟩ := hin
      rw [hinv'.cached e' hpos' hvalid']
      by_cases he : e' = e
      · subst he
        rw [State.setEntry_self] at hvalid' ⊢
        dsimp only at hvalid' ⊢
        rw [← hinv.cached e' hpos hvalid']
        exact hv _
      · rw [State.setEntry_of_ne he] at hpos' hvalid' ⊢
        rw [← hinv.cached e' hpos' hvalid']
        exact hv _
    · refine .inr ((hinv'.disk i fun e' hpos' hvalid' heq => hin ⟨e', hpos', hvalid', heq⟩).trans ?_)
      exact congrFun h.dinode i
  · dsimp only
    omega
  · by_cases he : e' = e
    · rw [he, State.setEntry_self]
    · rw [State.setEntry_of_ne he]

end Walk

end

open Transition

variable {L : Layout} {s₀ s s' : State} {v₀ : ℕ → Dinode} {e cwd : Slot} {path name : List UInt8}
  {parent : Bool} {fuel : ℕ}

/-- The answer of `namex` is that of the tree on the disk. -/
def Answers (L : Layout) (s₀ : State) (start : ℕ) (names : List (List UInt8)) (s' : State)
    (r : Option (Slot × List UInt8)) : Bool → Prop
  | false => r.map (fun x => (s'.entry x.1).inum) = resolve L s₀ start names
  | true => r.map (fun x => ((s'.entry x.1).inum, x.2)) = resolveParent L s₀ start names

/-- There is room for two inodes in the cache. -/
def Roomy (s : State) : Prop := ∃ f₁ f₂, f₁ ≠ f₂ ∧ (s.entry f₁).ref = 0 ∧ (s.entry f₂).ref = 0

theorem Roomy.exists_ne (h : Roomy s) (e : Slot) : ∃ f, (s.entry f).ref = 0 ∧ f ≠ e := by
  obtain ⟨f₁, f₂, hne, h₁, h₂⟩ := h
  by_cases he : f₁ = e
  · exact ⟨f₂, h₂, fun heq => hne (he.trans heq.symm)⟩
  · exact ⟨f₁, h₁, he⟩

/-- What holds of the outcome of the loop of `namex`: it comes to an end if there is room in the
cache, and if it does then with the right answer and one reference. -/
def Ends (L : Layout) (s₀ : State) (v₀ : ℕ → Dinode) (parent : Bool) (start : ℕ)
    (names : List (List UInt8)) (out : Option (State × Option (Slot × List UInt8))) : Prop :=
  (Roomy s₀ → ∃ x, out = some x) ∧ ∀ s' r, out = some (s', r) →
    Walk L s₀ v₀ s' (r.map Prod.fst).toList ∧ Answers L s₀ start names s' r parent

theorem Ends.of_some {start : ℕ} {names : List (List UInt8)} {r : Option (Slot × List UInt8)}
    (hwalk : Walk L s₀ v₀ s' (r.map Prod.fst).toList) (hans : Answers L s₀ start names s' r parent) :
    Ends L s₀ v₀ parent start names (some (s', r)) := by
  refine ⟨fun _ => ⟨_, rfl⟩, fun s₁ r₁ heq => ?_⟩
  obtain ⟨rfl, rfl⟩ := Prod.mk.inj (Option.some.inj heq)
  exact ⟨hwalk, hans⟩

theorem answers_none {i : ℕ} {c : List UInt8} {cs : List (List UInt8)} (h : lookup L s₀ i c = none)
    (hlast : parent = true → cs = [] → (s₀.dinode i).type ≠ .dir) :
    Answers L s₀ i (c :: cs) s' none parent := by
  cases parent with
  | false =>
    rw [Answers, resolve_cons, h]
    rfl
  | true =>
    rw [Answers]
    cases cs with
    | nil => rw [resolveParent_one, if_neg (hlast rfl rfl)]; rfl
    | cons c' cs => rw [resolveParent_cons, h]; rfl

theorem answers_next {i j : ℕ} {c : List UInt8} {cs : List (List UInt8)}
    {r : Option (Slot × List UInt8)} (h : lookup L s₀ i c = some j)
    (hmore : parent = true → cs ≠ []) (hans : Answers L s₀ j cs s' r parent) :
    Answers L s₀ i (c :: cs) s' r parent := by
  cases parent with
  | false =>
    rw [Answers] at hans ⊢
    rw [resolve_cons, h, hans]
    rfl
  | true =>
    rw [Answers] at hans ⊢
    cases cs with
    | nil => exact absurd rfl (hmore rfl)
    | cons c' cs => rw [resolveParent_cons, h, hans]; rfl

theorem namexLoop_ends (h₀ : Inv L s₀ v₀) (htree : Tree L s₀) (hwalk : Walk L s₀ v₀ s [e])
    (hlive : Live L s₀ (s.entry e).inum) (hfuel : path.length < fuel) :
    Ends L s₀ v₀ parent (s.entry e).inum (components path)
      (State.namexLoop L parent fuel s e path name) := by
  induction fuel generalizing s e path name with
  | zero => omega
  | succ fuel ih =>
    rw [State.namexLoop]
    cases hskip : skipelem path with
    | none =>
      rw [skipelem_none hskip]
      cases parent with
      | false => exact .of_some hwalk rfl
      | true =>
        obtain ⟨s', hput, hwalk', -⟩ := hwalk.iput h₀ hlive
        rw [if_pos rfl, hput]
        exact .of_some hwalk' rfl
    | some x =>
      obtain ⟨c, rest⟩ := x
      obtain ⟨hcomp, hlen, hlast⟩ := skipelem_some hskip
      rw [hcomp]
      obtain ⟨s₁, hlock, hwalk₁, hvalid, hinum⟩ := hwalk.ilock List.mem_cons_self hlive.2.1
      rw [← hinum] at hlive ⊢
      have hlags := hwalk₁.lags List.mem_cons_self hvalid
      dsimp only
      rw [hlock, Option.bind_some]
      by_cases hdir : (s₁.entry e).din.type = .dir
      · rw [if_neg (by rw [hdir]; exact fun hno => hno rfl)]
        by_cases hstop : parent = true ∧ rest = []
        · rw [if_pos hstop]
          refine .of_some hwalk₁ ?_
          obtain ⟨rfl, rfl⟩ := hstop
          rw [hlast.mp rfl, Answers, resolveParent_one, if_pos (hlags.type.trans hdir)]
          rfl
        rw [if_neg hstop]
        obtain ⟨hlookup, hfind⟩ | ⟨j, off, hlookup, hlivej, hfind⟩ :=
          hwalk₁.dirlookup htree List.mem_cons_self hvalid hdir c
        · obtain ⟨s₂, hput, hwalk₂, -⟩ := hwalk₁.iput h₀ hlive
          rw [hfind, Option.bind_some, hput, Option.bind_some]
          exact .of_some hwalk₂
            (answers_none hlookup fun hp hnil => absurd ⟨hp, hlast.mpr hnil⟩ hstop)
        rw [hfind]
        cases hget : s₁.iget j with
        | none =>
          refine ⟨fun hroom => ?_, nofun⟩
          obtain ⟨f, hfree, hf⟩ := hroom.exists_ne e
          obtain ⟨x, hx⟩ := hwalk₁.exists_iget hfree (by simpa using hf) j
          rw [hget] at hx
          cases hx
        | some y =>
          obtain ⟨s₂, e'⟩ := y
          obtain ⟨hwalk₂, hinumj, hkept⟩ := hwalk₁.iget hlivej.1 hget
          obtain ⟨hsame, -, -⟩ := hkept e (hwalk₁.ref_pos List.mem_cons_self)
          obtain ⟨s₃, hput, hwalk₃, hinums⟩ :=
            (hwalk₂.perm (.swap e e' [])).iput h₀ (by rwa [hsame])
          rw [Option.map_some, Option.bind_some]
          dsimp only
          rw [hput, Option.bind_some]
          have hj : (s₃.entry e').inum = j := (hinums e').trans hinumj
          have hrest : Ends L s₀ v₀ parent (s₃.entry e').inum (components rest)
              (State.namexLoop L parent fuel s₃ e' rest c) := ih hwalk₃ (by rwa [hj]) (by omega)
          refine ⟨hrest.1, fun s' r hr => ?_⟩
          obtain ⟨hwalk', hans⟩ := hrest.2 s' r hr
          rw [hj] at hans
          exact ⟨hwalk', answers_next hlookup (fun hp hnil => hstop ⟨hp, hlast.mpr hnil⟩) hans⟩
      · rw [if_pos hdir]
        have hdisk : (s₀.dinode (s₁.entry e).inum).type ≠ .dir := by rwa [hlags.type]
        obtain ⟨s₂, hput, hwalk₂, -⟩ := hwalk₁.iput h₀ hlive
        rw [hput]
        exact .of_some hwalk₂ (answers_none (if_neg hdisk) fun _ _ => hdisk)

/-- The inode at which a path starts. -/
def State.start (s : State) (cwd : Slot) (path : List UInt8) : ℕ :=
  if path.head? = some 47 then ROOTINO else (s.entry cwd).inum

theorem namex_ends (h : Inv L s v₀) (htree : Tree L s) (hcwd : 0 < (s.entry cwd).ref)
    (htype : (s.dinode (s.entry cwd).inum).type ≠ .free) (path : List UInt8) (parent : Bool) :
    Ends L s v₀ parent (s.start cwd path) (components path) (s.namex L cwd path parent) := by
  rw [State.namex, State.start]
  split
  · cases hget : s.iget ROOTINO with
    | none =>
      refine ⟨fun ⟨f, _, _, hfree, _⟩ => ?_, nofun⟩
      obtain ⟨x, hx⟩ := (Walk.refl h).exists_iget hfree List.not_mem_nil ROOTINO
      rw [hget] at hx
      cases hx
    | some x =>
      obtain ⟨hwalk, hinum, -⟩ := (Walk.refl h).iget htree.root.1 hget
      have hends : Ends L s v₀ parent (x.1.entry x.2).inum (components path)
          (State.namexLoop L parent (path.length + 1) x.1 x.2 path []) :=
        namexLoop_ends h htree hwalk (by rw [hinum]; exact htree.root) (Nat.lt_succ_self _)
      rwa [hinum] at hends
  · have hwalk := (Walk.refl h).idup hcwd
    have hinum : ((s.idup cwd).entry cwd).inum = (s.entry cwd).inum := by
      rw [State.idup, State.setEntry_self]
    have hlive : Live L s (s.entry cwd).inum :=
      ⟨h.inums cwd hcwd, htype, .inr ⟨cwd, hcwd, rfl⟩⟩
    have hends : Ends L s v₀ parent ((s.idup cwd).entry cwd).inum (components path)
        (State.namexLoop L parent (path.length + 1) (s.idup cwd) cwd path []) :=
      namexLoop_ends h htree hwalk (by rw [hinum]; exact hlive) (Nat.lt_succ_self _)
    rwa [hinum] at hends

/-- One reference was taken, to the inode that is returned, and nothing else has changed. -/
structure Takes (s s' : State) (r : Option Slot) : Prop where
  refs : ∀ e, (s'.entry e).ref = (s.entry e).ref + if r = some e then 1 else 0
  inums : ∀ e, 0 < (s.entry e).ref → (s'.entry e).inum = (s.entry e).inum
  dinode : s'.dinode = s.dinode
  bit : s'.bit = s.bit
  block : s'.block = s.block

theorem Walk.takes {r : Option Slot} (h : Walk L s v₀ s' r.toList) : Takes s s' r := by
  refine ⟨fun e => ?_, h.inums, h.dinode, h.bit, h.block⟩
  rw [h.refs]
  cases r with
  | none => simp
  | some e' =>
    rw [Option.toList_some, List.count_singleton]
    by_cases he : e' = e <;> simp [he]

/-- **Paths.** For every tree of directories, every current directory and every path: `namei`
resolves the components of the path, `nameiparent` those before the last one, and they leave one
reference, to the inode that they return. They return when there is room in the inode cache. -/
theorem namei_resolves (h : Inv L s v₀) (htree : Tree L s) (hcwd : 0 < (s.entry cwd).ref)
    (htype : (s.dinode (s.entry cwd).inum).type ≠ .free) (path : List UInt8) :
    (Roomy s → (∃ x, s.namei L cwd path = some x) ∧ ∃ x, s.nameiparent L cwd path = some x) ∧
    (∀ s' r, s.namei L cwd path = some (s', r) → Takes s s' r ∧
      r.map (fun e => (s'.entry e).inum) = resolve L s (s.start cwd path) (components path)) ∧
    ∀ s' r, s.nameiparent L cwd path = some (s', r) → Takes s s' (r.map Prod.fst) ∧
      r.map (fun x => ((s'.entry x.1).inum, x.2)) =
        resolveParent L s (s.start cwd path) (components path) := by
  have hname := namex_ends h htree hcwd htype path false
  have hparent := namex_ends h htree hcwd htype path true
  refine ⟨fun hroom => ⟨?_, hparent.1 hroom⟩, fun s' r hr => ?_, fun s' r hr => ?_⟩
  · obtain ⟨x, hx⟩ := hname.1 hroom
    exact ⟨_, by rw [State.namei, hx]; rfl⟩
  · obtain ⟨⟨s₁, r₁⟩, hx, heq⟩ := Option.map_eq_some_iff.mp hr
    obtain ⟨rfl, rfl⟩ := Prod.mk.inj heq
    obtain ⟨hwalk, hans⟩ := hname.2 _ _ hx
    refine ⟨hwalk.takes, ?_⟩
    rw [Option.map_map]
    exact hans
  · obtain ⟨hwalk, hans⟩ := hparent.2 s' r hr
    exact ⟨hwalk.takes, hans⟩

/-- An image with a root directory that has one file, `a`. -/
def namedImage : State where
  bit b := decide (b < 6)
  dinode i :=
    if i = 1 then ⟨.dir, 0, 0, 1, 48, fun k => if k = 0 then 5 else 0⟩
    else ⟨if i = 2 then .file else .free, 0, 0, 1, 0, fun _ => 0⟩
  block b w :=
    if b ≠ 5 then 0 else if w.val = 0 then 0x2e0001 else if w.val = 4 then 0x2e2e0001
    else if w.val = 8 then 0x610002 else 0
  entry _ := ⟨0, 0, false, ⟨.free, 0, 0, 0, 0, fun _ => 0⟩⟩

theorem namedImage_ref {p : ℕ × ℕ} {b : ℕ}
    (h : refAt smallDisk namedImage.dinode namedImage.block p = some b) : p = (1, 0) ∧ b = 5 := by
  obtain ⟨i, k⟩ := p
  obtain ⟨-, -, hat, hb⟩ := refAt_eq_some.mp h
  by_cases hi : i = 1
  · subst hi
    rw [Dinode.at] at hat
    split at hat
    · by_cases hk : k = 0
      · subst hk
        exact ⟨rfl, hat.symm⟩
      · exact absurd (hat.symm.trans (if_neg hk)) hb
    · exact absurd hat.symm hb
  · have hnone : (namedImage.dinode i).at namedImage.block k = 0 :=
      Dinode.at_eq_zero (fun k _ => by simp [namedImage, hi]) k
    exact absurd (hat.symm.trans hnone) hb

theorem namedImage_mounted : Mounted smallDisk namedImage where
  sound := by
    refine ⟨⟨fun p q b hp hq => ?_, fun p b hp => ?_, fun p b hp => ?_⟩, fun b hb => ?_,
      by decide, fun i hi htype bn hbn => ?_⟩
    · rw [(namedImage_ref hp).1, (namedImage_ref hq).1]
    · rw [(namedImage_ref hp).2]
      decide
    · rw [(namedImage_ref hp).2]
      decide
    · exact decide_eq_true (hb.trans (by decide))
    · have hone : i = 1 ∧ bn = 0 := by
        by_cases hi1 : i = 1
        · subst hi1
          refine ⟨rfl, ?_⟩
          have hlt : bn * 512 < 48 := hbn
          omega
        · simp [namedImage, hi1] at hbn
      obtain ⟨rfl, rfl⟩ := hone
      decide
  free _ := rfl

theorem namedImage_tree (hdinode : s.dinode = namedImage.dinode)
    (hblock : s.block = namedImage.block) : Tree smallDisk s := by
  have hlive : ∀ j, j = 1 ∨ j = 2 → Live smallDisk s j := by
    rintro j (rfl | rfl)
    all_goals
      rw [Live, hdinode]
      exact ⟨by decide, by decide, .inl (by decide)⟩
  have hall : ∀ i < 4, (namedImage.dinode i).type = .dir → (namedImage.dinode i).size % 16 = 0 ∧
      ∀ d ∈ dirents smallDisk namedImage.dinode namedImage.block i, d.1 ≠ 0 →
        d.1 = 1 ∨ d.1 = 2 := by decide
  rw [← hdinode, ← hblock] at hall
  exact ⟨hlive 1 (.inl rfl), fun i hi hdir => (hall i hi hdir).1,
    fun i hi hdir d hd hne => hlive d.1 ((hall i hi hdir).2 d hd hne)⟩

/-- The path `/a` leads to the file, and one reference is taken. -/
theorem namei_resolves_file : ∃ (s s' : State) (e : Slot),
    s.namei smallDisk 0 [47, 97] = some (s', some e) ∧ (s'.entry e).inum = 2 ∧
      Takes s s' (some e) := by
  have hany : (namedImage.iget 1).any (fun x => decide (0 < (x.1.entry 0).ref ∧
      (x.1.entry 0).inum = 1 ∧ (x.1.entry 1).ref = 0 ∧ (x.1.entry 2).ref = 0)) = true := by
    decide
  obtain ⟨⟨s, e₀⟩, hget, hx⟩ := (Option.any_eq_true _ _).mp hany
  obtain ⟨hcwd, hinum, h₁, h₂⟩ := of_decide_eq_true hx
  obtain ⟨hinv, hdinode, -, hblock⟩ := namedImage_mounted.inv.iget (by decide) hget
  have hfile : resolve smallDisk s (s.start 0 [47, 97]) (components [47, 97]) = some 2 := by
    have hsame : resolve smallDisk s = resolve smallDisk namedImage := by
      funext i names
      unfold resolve lookup
      rw [hdinode, hblock]
    have hclosed : resolve smallDisk namedImage ROOTINO (components [47, 97]) = some 2 := by
      decide
    rw [hsame]
    exact hclosed
  obtain ⟨hreturns, hname, -⟩ := namei_resolves hinv (namedImage_tree hdinode hblock) hcwd
    (by rw [hinum, hdinode]; decide) [47, 97]
  obtain ⟨⟨⟨s', r⟩, hr⟩, -⟩ := hreturns ⟨1, 2, by decide, h₁, h₂⟩
  obtain ⟨htakes, hans⟩ := hname s' r hr
  rw [hfile] at hans
  obtain ⟨e, rfl, he⟩ := Option.map_eq_some_iff.mp hans
  exact ⟨s, s', e, hr, he, htakes⟩

end KThreads.Inode
