import KThreads.Lib.Blocks
import KThreads.Lib.Circle
import KThreads.Lib.Words

/-!
# The list of free blocks

The free blocks form a circular list through the static header `base`, which lies below all of
them and has the size 0, in the order of their addresses. From `base` on the nodes are a sorted
list; only the last one points back. `free` finds the node behind which a block belongs from
wherever `freep` points to, and joins the block with its neighbours.
-/

namespace KThreads.Malloc

open Words

/-- The bytes of the process and the static variable `freep`, which is 0 before the first call. -/
structure Heap where
  mem : ℕ → UInt8
  freep : ℕ

section

variable (m : ℕ → UInt8) (p v : ℕ)

/-- `p->s.ptr` and `p->s.size`. -/
def ptr : ℕ := wordAt m p
def size : ℕ := wordAt m (p + 4)

def setPtr : ℕ → UInt8 := setWordAt m p v
def setSize : ℕ → UInt8 := setWordAt m (p + 4) v

end

/-- `p + n` for a pointer to a header. -/
def plus (p n : ℕ) : ℕ := (p + 8 * n) % 2 ^ 32

/-- The loop of `free`, with a bound on its rounds. -/
def freeLoop (m : ℕ → UInt8) (bp : ℕ) : ℕ → ℕ → Option ℕ
  | 0, _ => none
  | k + 1, p =>
    if bp > p ∧ bp < ptr m p then some p
    else if p ≥ ptr m p ∧ (bp > p ∨ bp < ptr m p) then some p
    else freeLoop m bp k (ptr m p)

/-- The first `if` of `free`: join the block with the one that follows. -/
def joinNext (m : ℕ → UInt8) (bp p : ℕ) : ℕ → UInt8 :=
  if plus bp (size m bp) = ptr m p then
    let m := setSize m bp ((size m bp + size m (ptr m p)) % 2 ^ 32)
    setPtr m bp (ptr m (ptr m p))
  else setPtr m bp (ptr m p)

/-- The second `if` of `free`: join the block before with this one. -/
def joinPrev (m : ℕ → UInt8) (bp p : ℕ) : ℕ → UInt8 :=
  if plus p (size m p) = bp then
    let m := setSize m p ((size m p + size m bp) % 2 ^ 32)
    setPtr m p (ptr m bp)
  else setPtr m p bp

/-- `free(ap)`. -/
def free (n : ℕ) (h : Heap) (ap : ℕ) : Option Heap := do
  let bp := (ap + 2 ^ 32 - 8) % 2 ^ 32
  let p ← freeLoop h.mem bp n h.freep
  return ⟨joinPrev (joinNext h.mem bp p) bp p, p⟩

section

variable {σ : Type} (sbrk : σ → ℕ → Option ℕ × σ)

/-- `morecore(nu)`, where `sbrk` takes the number of bytes as it is passed and returns an address, or
none for -1: the pointer that is returned. -/
def morecore (n : ℕ) (h : Heap) (e : σ) (nu : ℕ) : Option (ℕ × Heap × σ) :=
  let nu := if nu < 4096 then 4096 else nu
  match sbrk e (nu * 8 % 2 ^ 32) with
  | (none, e) => some (0, h, e)
  | (some p, e) => do
    let h ← free n { h with mem := setSize h.mem p nu } (plus p 1)
    return (h.freep, h, e)

/-- The loop of `malloc`, with a bound on its rounds. -/
def mallocLoop (n nunits : ℕ) : ℕ → Heap → σ → ℕ → ℕ → Option (ℕ × Heap × σ)
  | 0, _, _, _, _ => none
  | k + 1, h, e, prevp, p =>
    if size h.mem p ≥ nunits then
      if size h.mem p = nunits then
        some (plus p 1, ⟨setPtr h.mem prevp (ptr h.mem p), prevp⟩, e)
      else
        let m := setSize h.mem p (size h.mem p - nunits)
        let p := plus p (size m p)
        some (plus p 1, ⟨setSize m p nunits, prevp⟩, e)
    else if p = h.freep then do
      let (p, h, e) ← morecore sbrk n h e nunits
      if p = 0 then return (0, h, e)
      else mallocLoop n nunits k h e p (ptr h.mem p)
    else mallocLoop n nunits k h e p (ptr h.mem p)

/-- `nunits` for a request. -/
def unitsFor (nbytes : ℕ) : ℕ := (nbytes + 8 - 1) % 2 ^ 32 / 8 + 1

/-- The heap after the first `if` of `malloc`, where `base` is the address of the static header. -/
def ready (base : ℕ) (h : Heap) : Heap :=
  if h.freep = 0 then ⟨setSize (setPtr h.mem base base) base 0, base⟩ else h

/-- `malloc(nbytes)`: the pointer that is returned. -/
def malloc (base n : ℕ) (h : Heap) (e : σ) (nbytes : ℕ) : Option (ℕ × Heap × σ) :=
  let h := ready base h
  mallocLoop sbrk n (unitsFor nbytes) n h e h.freep (ptr h.mem h.freep)

end

/-- The result for every bound on the rounds of the loops that is large enough. -/
def Returns {α : Type} (f : ℕ → Option α) (r : α) : Prop := ∃ N, ∀ n, N ≤ n → f n = some r

theorem Returns.unique {α : Type} {f : ℕ → Option α} {r r' : α} (h : Returns f r) (h' : Returns f r') : r = r' := by
  obtain ⟨N, hN⟩ := h
  obtain ⟨N', hN'⟩ := h'
  exact Option.some.inj ((hN _ (Nat.le_max_left N N')).symm.trans (hN' _ (Nat.le_max_right N N')))

open Blocks Circle Words

variable {m m' : ℕ → UInt8} {base p q v n : ℕ}

/-! A store to a field of one header leaves the other field, and other headers. -/

theorem ptr_lt : ptr m p < 2 ^ 32 := wordAt_lt

theorem ptr_setPtr (hv : v < 2 ^ 32) : ptr (setPtr m p v) p = v := wordAt_setWordAt hv

theorem size_setSize (hv : v < 2 ^ 32) : size (setSize m p v) p = v := wordAt_setWordAt hv

theorem ptr_setSize : ptr (setSize m p v) p = ptr m p :=
  wordAt_setWordAt_of_disjoint (.inl le_rfl)

theorem size_setPtr : size (setPtr m p v) p = size m p :=
  wordAt_setWordAt_of_disjoint (.inr le_rfl)

/-- Two headers that do not overlap. -/
def Clear (p q : ℕ) : Prop := p + 8 ≤ q ∨ q + 8 ≤ p

theorem Clear.symm (h : Clear p q) : Clear q p := Or.symm h

theorem ptr_setPtr_of_clear (h : Clear p q) : ptr (setPtr m p v) q = ptr m q :=
  wordAt_setWordAt_of_disjoint (by unfold Clear at h; omega)

theorem ptr_setSize_of_clear (h : Clear p q) : ptr (setSize m p v) q = ptr m q :=
  wordAt_setWordAt_of_disjoint (by unfold Clear at h; omega)

theorem size_setPtr_of_clear (h : Clear p q) : size (setPtr m p v) q = size m q :=
  wordAt_setWordAt_of_disjoint (by unfold Clear at h; omega)

theorem size_setSize_of_clear (h : Clear p q) : size (setSize m p v) q = size m q :=
  wordAt_setWordAt_of_disjoint (by unfold Clear at h; omega)

/-- The two memories agree outside the headers at these addresses. -/
def SameBut (ps : List ℕ) (m m' : ℕ → UInt8) : Prop := ∀ x, (∀ p ∈ ps, x < p ∨ p + 8 ≤ x) → m' x = m x

theorem SameBut.header {ps : List ℕ} (h : SameBut ps m m') (hq : ∀ p ∈ ps, Clear p q) :
    ptr m' q = ptr m q ∧ size m' q = size m q := by
  constructor
  · refine wordAt_congr fun x hx hx' => h x fun p hp => ?_
    rcases hq p hp with hpq | hpq
    · exact .inr (by omega)
    · exact .inl (by omega)
  · refine wordAt_congr fun x hx hx' => h x fun p hp => ?_
    rcases hq p hp with hpq | hpq
    · exact .inr (by omega)
    · exact .inl (by omega)

theorem SameBut.trans {ps qs : List ℕ} {m'' : ℕ → UInt8} (h : SameBut ps m m') (h' : SameBut qs m' m'') :
    SameBut (ps ++ qs) m m'' := by
  intro x hx
  rw [h' x fun p hp => hx p (List.mem_append_right ps hp),
    h x fun p hp => hx p (List.mem_append_left qs hp)]

theorem sameBut_setPtr : SameBut [p] m (setPtr m p v) := by
  intro x hx
  have := hx p List.mem_cons_self
  exact setWordAt_of_not_mem (by omega)

theorem sameBut_setSize : SameBut [p] m (setSize m p v) := by
  intro x hx
  have := hx p List.mem_cons_self
  exact setWordAt_of_not_mem (by omega)

theorem SameBut.weaken {ps qs : List ℕ} (h : SameBut ps m m') (hsub : ps ⊆ qs) : SameBut qs m m' :=
  fun x hx => h x fun p hp => hx p (hsub hp)

section

/-- The first of two nodes ends before the second one begins, and its header does. -/
def Before (b c : ℕ × ℕ) : Prop := b.1 + 8 * b.2 < c.1 ∧ b.1 + 8 ≤ c.1

/-- Nodes with their sizes, in the order of their addresses, as a circular list. -/
structure Ring (m : ℕ → UInt8) (base : ℕ) (ns : List (ℕ × ℕ)) : Prop where
  route : Route (ptr m) base (ns.map Prod.fst) base
  size_eq : ∀ b ∈ ns, size m b.1 = b.2
  sorted : ns.Pairwise Before
  bound : ∀ b ∈ ns, b.1 + 8 * b.2 < 2 ^ 32

variable {P Y H Z : List (ℕ × ℕ)} {x s s' a u f : ℕ}

/-- Where the nodes that follow begin. -/
def nextOf (base : ℕ) (H : List (ℕ × ℕ)) : ℕ := (H.map Prod.fst).headD base

theorem Ring.route_tail (R : Ring m base (P ++ H)) : Route (ptr m) (nextOf base H) (H.map Prod.fst) base := by
  have hroute := R.route
  cases H with
  | nil => exact rfl
  | cons b H =>
    rw [List.map_append, List.map_cons] at hroute
    exact ⟨rfl, hroute.split.2⟩

theorem Ring.ptr_eq (R : Ring m base (P ++ (x, s) :: H)) : ptr m x = nextOf base H := by
  have hroute := R.route
  rw [List.map_append, List.map_cons] at hroute
  have htail := hroute.split.2
  cases H with
  | nil => exact htail
  | cons b H => exact htail.1

theorem Ring.update (R : Ring m base (P ++ (x, s) :: (Y ++ H)))
    (hsame : ∀ b ∈ P ++ H, ptr m' b.1 = ptr m b.1 ∧ size m' b.1 = size m b.1)
    (hroute : Route (ptr m') (ptr m' x) (Z.map Prod.fst) (nextOf base H))
    (hsize : ∀ b ∈ (x, s') :: Z, size m' b.1 = b.2) (hsorted : (P ++ (x, s') :: (Z ++ H)).Pairwise Before)
    (hbound : ∀ b ∈ P ++ (x, s') :: (Z ++ H), b.1 + 8 * b.2 < 2 ^ 32) :
    Ring m' base (P ++ (x, s') :: (Z ++ H)) := by
  have hhead : Route (ptr m') base (P.map Prod.fst) x := by
    have hR := R.route
    rw [List.map_append, List.map_cons] at hR
    refine hR.split.1.congr fun p hp => ?_
    obtain ⟨b, hb, rfl⟩ := List.mem_map.mp hp
    exact (hsame b (List.mem_append_left H hb)).1
  have htail : Route (ptr m') (nextOf base H) (H.map Prod.fst) base := by
    have hR : Ring m base ((P ++ (x, s) :: Y) ++ H) := by
      rwa [List.append_assoc, List.cons_append]
    refine hR.route_tail.congr fun p hp => ?_
    obtain ⟨b, hb, rfl⟩ := List.mem_map.mp hp
    exact (hsame b (List.mem_append_right P hb)).1
  refine ⟨?_, fun b hb => ?_, hsorted, hbound⟩
  · rw [List.map_append, List.map_cons, List.map_append]
    exact hhead.join (route_append.mpr ⟨_, hroute, htail⟩)
  · have hold : ∀ b ∈ P ++ H, size m' b.1 = b.2 := by
      intro b hb
      rw [(hsame b hb).2]
      refine R.size_eq b ?_
      rcases List.mem_append.mp hb with hb | hb <;> simp [hb]
    rcases List.mem_append.mp hb with hb | hb
    · exact hold b (List.mem_append_left H hb)
    · rw [← List.cons_append] at hb
      rcases List.mem_append.mp hb with hb | hb
      · exact hsize b hb
      · exact hold b (List.mem_append_right P hb)

theorem Ring.clear (R : Ring m base (P ++ (x, s) :: H)) : ∀ b ∈ P ++ H, Clear x b.1 := by
  intro b hb
  rcases List.mem_append.mp hb with hb | hb
  · exact .inr ((List.pairwise_append.mp R.sorted).2.2 b hb (x, s) List.mem_cons_self).2
  · exact .inl ((List.pairwise_cons.mp (List.pairwise_append.mp R.sorted).2.1).1 b hb).2

theorem Ring.base_le (R : Ring m base (P ++ (x, s) :: H)) : base ≤ x := by
  have hroute := R.route
  cases P with
  | nil => exact le_of_eq hroute.1
  | cons b P =>
    have hb : base = b.1 := hroute.1
    have := (List.pairwise_cons.mp R.sorted).1 (x, s) (by simp)
    unfold Before at this
    omega

end

section

variable {P H : List (ℕ × ℕ)} {x s a f k : ℕ}

/-- The test of the loop of `free`. -/
def stops (m : ℕ → UInt8) (bp p : ℕ) : Bool :=
  (bp > p ∧ bp < ptr m p) ∨ (p ≥ ptr m p ∧ (bp > p ∨ bp < ptr m p))

theorem freeLoop_eq : freeLoop m a k f = search (ptr m) (stops m a) k f := by
  induction k generalizing f with
  | zero => rfl
  | succ k ih =>
    rw [freeLoop, search, ih]
    simp only [stops, decide_eq_true_eq]
    split_ifs <;> first | rfl | omega

theorem Ring.freeLoop_finds (R : Ring m base (P ++ (x, s) :: H)) (hx : x < a) (hH : ∀ b ∈ H, a < b.1)
    (hf : f ∈ (P ++ (x, s) :: H).map Prod.fst) (hk : (P ++ (x, s) :: H).length ≤ k) :
    freeLoop m a k f = some x := by
  rw [freeLoop_eq]
  refine search_circle R.route hf (List.mem_map.mpr ⟨(x, s), by simp, rfl⟩) (fun z hz => ?_) (by simpa using hk)
  have hbase := R.base_le
  simp only [stops, decide_eq_true_eq]
  constructor
  · intro hstop
    obtain ⟨⟨z, v⟩, hmem, rfl⟩ := List.mem_map.mp hz
    rcases List.mem_append.mp hmem with hmem | hmem
    · -- The next node lies between this one and the block.
      obtain ⟨A, B, rfl⟩ := List.append_of_mem hmem
      have hnext : z < ptr m z ∧ ptr m z ≤ x := by
        have R' : Ring m base (A ++ (z, v) :: (B ++ (x, s) :: H)) := by
          rwa [List.append_assoc, List.cons_append] at R
        have hsorted := (List.pairwise_append.mp R'.sorted).2.1
        rw [R'.ptr_eq]
        cases B with
        | nil =>
          have := (List.pairwise_cons.mp hsorted).1 (x, s) (by simp)
          unfold Before at this
          exact ⟨by simp only [nextOf, List.nil_append, List.map_cons, List.headD_cons]; omega, le_rfl⟩
        | cons b B =>
          have hzb := (List.pairwise_cons.mp hsorted).1 b (by simp)
          have hbx := (List.pairwise_cons.mp (List.pairwise_cons.mp hsorted).2).1 (x, s) (by simp)
          unfold Before at hzb hbx
          simp only [nextOf, List.cons_append, List.map_cons, List.headD_cons]
          omega
      dsimp only at hstop
      omega
    · rcases List.mem_cons.mp hmem with heq | hmem
      · exact congrArg Prod.fst heq
      · -- The node lies behind the block.
        have hz := hH _ hmem
        obtain ⟨A, B, rfl⟩ := List.append_of_mem hmem
        have R' : Ring m base ((P ++ (x, s) :: A) ++ (z, v) :: B) := by
          rwa [List.append_assoc, List.cons_append]
        have hnext : ptr m z = base ∨ z < ptr m z := by
          have hsorted := (List.pairwise_append.mp R'.sorted).2.1
          rw [R'.ptr_eq]
          cases B with
          | nil => exact .inl rfl
          | cons b B =>
            have hzb := (List.pairwise_cons.mp hsorted).1 b (by simp)
            unfold Before at hzb
            exact .inr (by simp only [nextOf, List.map_cons, List.headD_cons]; omega)
        dsimp only at hstop hz
        omega
  · rintro rfl
    rw [R.ptr_eq]
    cases H with
    | nil => exact .inr ⟨hbase, .inl hx⟩
    | cons b H => exact .inl ⟨hx, hH b List.mem_cons_self⟩

end

section

variable {P H : List (ℕ × ℕ)} {x s a u f k : ℕ} {b c : ℕ × ℕ}

/-- The size of a block when it has been joined with the one that follows, and what then follows. -/
def grown (a u : ℕ) : List (ℕ × ℕ) → ℕ × List (ℕ × ℕ)
  | [] => (u, [])
  | (y, v) :: H => if a + 8 * u = y then (u + v, H) else (u, (y, v) :: H)

/-- Put a block behind a node, joined with its neighbours. -/
def insertAfter (b : ℕ × ℕ) (a u : ℕ) (H : List (ℕ × ℕ)) : List (ℕ × ℕ) :=
  if b.1 + 8 * b.2 = a then (b.1, b.2 + (grown a u H).1) :: (grown a u H).2
  else b :: (a, (grown a u H).1) :: (grown a u H).2

theorem grown_spec (hH : ∀ c ∈ H, a + 8 * u ≤ c.1) (hu : 0 < u) (hsorted : H.Pairwise Before) :
    units 8 a (grown a u H).1 + total 8 (grown a u H).2 = total 8 H + units 8 a u ∧
      u ≤ (grown a u H).1 ∧ (∀ c ∈ (grown a u H).2, Before (a, (grown a u H).1) c ∧ c ∈ H) ∧
      (grown a u H).2.Pairwise Before ∧ ∃ Y, H = Y ++ (grown a u H).2 := by
  cases H with
  | nil => exact ⟨by simp [grown], le_rfl, nofun, .nil, [], rfl⟩
  | cons c H =>
    obtain ⟨y, v⟩ := c
    obtain ⟨hfirst, htail⟩ := List.pairwise_cons.mp hsorted
    by_cases hy : a + 8 * u = y
    · rw [grown, if_pos hy]
      refine ⟨?_, Nat.le_add_right u v, fun c hc => ⟨?_, List.mem_cons_of_mem _ hc⟩, htail, [(y, v)], rfl⟩
      · rw [units_add, hy, total_cons]
        abel
      · have := hfirst c hc
        unfold Before at this ⊢
        dsimp only at this ⊢
        omega
    · rw [grown, if_neg hy]
      refine ⟨add_comm _ _, le_rfl, fun c hc => ⟨?_, hc⟩, hsorted, [], rfl⟩
      have hle := hH (y, v) List.mem_cons_self
      unfold Before
      dsimp only at hle ⊢
      rcases List.mem_cons.mp hc with rfl | hc
      · exact ⟨by dsimp only; omega, by dsimp only; omega⟩
      · have := hfirst c hc
        unfold Before at this
        dsimp only at this
        omega

theorem total_insertAfter (hH : ∀ c ∈ H, a + 8 * u ≤ c.1) (hu : 0 < u) (hsorted : H.Pairwise Before) :
    total 8 (insertAfter b a u H) = total 8 (b :: H) + units 8 a u := by
  have htotal := (grown_spec hH hu hsorted).1
  rw [total_cons, add_assoc, ← htotal]
  unfold insertAfter
  split
  · next hb => rw [total_cons, units_add, hb, add_assoc]
  · rw [total_cons, total_cons]

theorem mem_insertAfter (hH : ∀ c ∈ H, a + 8 * u ≤ c.1) (hu : 0 < u) (hsorted : H.Pairwise Before)
    (hc : c ∈ insertAfter b a u H) : c = b ∨ c ∈ H ∨ u ≤ c.2 := by
  obtain ⟨-, hle, hgrown, -, -⟩ := grown_spec hH hu hsorted
  unfold insertAfter at hc
  split at hc <;> rcases List.mem_cons.mp hc with rfl | hc
  · exact .inr (.inr (hle.trans (Nat.le_add_left _ _)))
  · exact .inr (.inl (hgrown c hc).2)
  · exact .inl rfl
  · rcases List.mem_cons.mp hc with rfl | hc
    · exact .inr (.inr hle)
    · exact .inr (.inl (hgrown c hc).2)

theorem exists_mem_insertAfter (hH : ∀ c ∈ H, a + 8 * u ≤ c.1) (hu : 0 < u) (hsorted : H.Pairwise Before) :
    (∃ c ∈ insertAfter b a u H, u ≤ c.2) ∧ ∃ c ∈ insertAfter b a u H, c.1 = b.1 := by
  obtain ⟨-, hle, -⟩ := grown_spec hH hu hsorted
  unfold insertAfter
  split
  · exact ⟨⟨_, List.mem_cons_self, hle.trans (Nat.le_add_left _ _)⟩, _, List.mem_cons_self, rfl⟩
  · exact ⟨⟨_, List.mem_cons_of_mem _ List.mem_cons_self, hle⟩, _, List.mem_cons_self, rfl⟩

theorem insertAfter_sorted (hsorted : (P ++ b :: H).Pairwise Before) (hH : ∀ c ∈ H, a + 8 * u ≤ c.1) (hu : 0 < u)
    (hb : b.1 + 8 * b.2 ≤ a) (hb' : b.1 + 8 ≤ a) : (P ++ insertAfter b a u H).Pairwise Before := by
  obtain ⟨hP, hbH, hcross⟩ := List.pairwise_append.mp hsorted
  obtain ⟨hbefore, htail⟩ := List.pairwise_cons.mp hbH
  obtain ⟨-, hle, hgrown, hgrownsorted, -⟩ := grown_spec hH hu htail
  have hnew : (insertAfter b a u H).Pairwise Before := by
    unfold insertAfter
    split
    · next heq =>
      refine List.pairwise_cons.mpr ⟨fun c hc => ?_, hgrownsorted⟩
      have := (hgrown c hc).1
      unfold Before at this ⊢
      dsimp only at this ⊢
      omega
    · next hne =>
      refine List.pairwise_cons.mpr ⟨fun c hc => ?_,
        List.pairwise_cons.mpr ⟨fun c hc => (hgrown c hc).1, hgrownsorted⟩⟩
      rcases List.mem_cons.mp hc with rfl | hc
      · exact ⟨by dsimp only; omega, hb'⟩
      · exact hbefore c (hgrown c hc).2
  refine List.pairwise_append.mpr ⟨hP, hnew, fun p hp c hc => ?_⟩
  -- Every node that is left or new begins where `b` does or later.
  have hpb := hcross p hp b List.mem_cons_self
  have hfrom : b.1 ≤ c.1 := by
    unfold insertAfter at hc
    split at hc <;> rcases List.mem_cons.mp hc with rfl | hc
    · exact le_rfl
    · exact (Nat.le_add_right _ _).trans (hbefore c (hgrown c hc).2).1.le
    · exact le_rfl
    · rcases List.mem_cons.mp hc with rfl | hc
      · exact (Nat.le_add_right _ _).trans hb
      · exact (Nat.le_add_right _ _).trans (hbefore c (hgrown c hc).2).1.le
  unfold Before at hpb ⊢
  omega

theorem Ring.joinNext_spec (R : Ring m base (P ++ (x, s) :: H)) (hsize : size m a = u) (hu : 0 < u)
    (ha : x + 8 ≤ a) (hbound : a + 8 * u < 2 ^ 32) (hH : ∀ c ∈ H, a + 8 * u ≤ c.1) :
    ptr (joinNext m a x) a = nextOf base (grown a u H).2 ∧ size (joinNext m a x) a = (grown a u H).1 ∧
      a + 8 * (grown a u H).1 < 2 ^ 32 ∧ SameBut [a] m (joinNext m a x) := by
  have hbase := R.base_le
  have hplus : plus a u = a + 8 * u := Nat.mod_eq_of_lt hbound
  cases H with
  | nil =>
    have hne : a + 8 * u ≠ base := by omega
    rw [joinNext, hsize, R.ptr_eq, hplus, nextOf, List.map_nil, List.headD_nil, if_neg hne]
    exact ⟨ptr_setPtr (by omega), size_setPtr.trans hsize, hbound, sameBut_setPtr⟩
  | cons c H =>
    obtain ⟨y, v⟩ := c
    have R' : Ring m base ((P ++ [(x, s)]) ++ (y, v) :: H) := by
      rwa [List.append_assoc]
    have hybound : y + 8 * v < 2 ^ 32 := R.bound (y, v) (by simp)
    have hysize : size m y = v := R.size_eq (y, v) (by simp)
    have hptr : ptr m x = y := R.ptr_eq
    rw [joinNext, hsize, hptr, hplus, grown]
    by_cases hy : a + 8 * u = y
    · have hclear : Clear a y := .inl (by omega)
      rw [if_pos hy, if_pos hy, hysize, Nat.mod_eq_of_lt (by omega)]
      dsimp only
      rw [ptr_setSize_of_clear (.inr ha), hptr, ptr_setSize_of_clear hclear]
      have hnext : ptr m y < 2 ^ 32 := ptr_lt
      refine ⟨(ptr_setPtr hnext).trans R'.ptr_eq, ?_, by omega, ?_⟩
      · rw [size_setPtr, size_setSize (by omega)]
      · exact (sameBut_setSize.trans sameBut_setPtr).weaken (by simp)
    · rw [if_neg hy, if_neg hy]
      refine ⟨ptr_setPtr (by omega), size_setPtr.trans hsize, hbound, sameBut_setPtr⟩

theorem insertAfter_bound (hold : ∀ c ∈ P ++ (x, s) :: H, c.1 + 8 * c.2 < 2 ^ 32)
    (hH : ∀ c ∈ H, a + 8 * u ≤ c.1) (hu : 0 < u) (hsorted : H.Pairwise Before)
    (hbound : a + 8 * (grown a u H).1 < 2 ^ 32) :
    ∀ c ∈ P ++ insertAfter (x, s) a u H, c.1 + 8 * c.2 < 2 ^ 32 := by
  obtain ⟨-, -, hgrown, -, -⟩ := grown_spec hH hu hsorted
  intro c hc
  rcases List.mem_append.mp hc with hc | hc
  · exact hold c (List.mem_append_left _ hc)
  · unfold insertAfter at hc
    split at hc <;> rcases List.mem_cons.mp hc with rfl | hc
    · dsimp only at *
      omega
    · exact hold c (by simp [(hgrown c hc).2])
    · exact hold (x, s) (by simp)
    · rcases List.mem_cons.mp hc with rfl | hc
      · exact hbound
      · exact hold c (by simp [(hgrown c hc).2])

theorem sameBut_joinPrev : SameBut [x] m (joinPrev m a x) := by
  rw [joinPrev]
  split
  · exact (sameBut_setSize.trans sameBut_setPtr).weaken (by simp)
  · exact sameBut_setPtr

theorem Ring.joins (R : Ring m base (P ++ (x, s) :: H)) (hsize : size m a = u) (hu : 0 < u)
    (hx : x + 8 * s ≤ a) (ha : x + 8 ≤ a) (hbound : a + 8 * u < 2 ^ 32) (hH : ∀ c ∈ H, a + 8 * u ≤ c.1) :
    Ring (joinPrev (joinNext m a x) a x) base (P ++ insertAfter (x, s) a u H) := by
  have hsorted := insertAfter_sorted R.sorted hH hu hx ha
  have htail : H.Pairwise Before := (List.pairwise_cons.mp (List.pairwise_append.mp R.sorted).2.1).2
  obtain ⟨-, -, hgrown, -, Y, hY⟩ := grown_spec hH hu htail
  obtain ⟨hptr, hsize', hbound', hsame⟩ := R.joinNext_spec hsize hu ha hbound hH
  have hbounds := insertAfter_bound R.bound hH hu htail hbound'
  have hclear : Clear a x := .inr ha
  obtain ⟨-, hxsize⟩ := hsame.header (q := x) (by simpa using hclear)
  have hxs : size m x = s := R.size_eq (x, s) (by simp)
  have hxbound : x + 8 * s < 2 ^ 32 := by omega
  have hnextlt : nextOf base (grown a u H).2 < 2 ^ 32 := hptr ▸ ptr_lt
  -- The headers of the other nodes stay as they are.
  have hkeep : ∀ {m'}, SameBut [x] (joinNext m a x) m' →
      ∀ b ∈ P ++ (grown a u H).2, ptr m' b.1 = ptr m b.1 ∧ size m' b.1 = size m b.1 := by
    intro m' hm' b hb
    have hmem : b ∈ P ++ H := by
      rcases List.mem_append.mp hb with hb | hb
      · exact List.mem_append_left H hb
      · exact List.mem_append_right P (hgrown b hb).2
    refine (hsame.trans hm').header fun p hp => ?_
    rcases List.mem_cons.mp hp with rfl | hp
    · rcases List.mem_append.mp hb with hb | hb
      · have := (List.pairwise_append.mp R.sorted).2.2 b hb (x, s) List.mem_cons_self
        exact .inr (by unfold Before at this; dsimp only at this; omega)
      · exact .inl (hgrown b hb).1.2
    · obtain rfl := List.mem_singleton.mp hp
      exact R.clear b hmem
  have hplus : plus x s = x + 8 * s := Nat.mod_eq_of_lt hxbound
  rw [hY] at R
  unfold insertAfter at hsorted hbounds ⊢
  by_cases hprev : x + 8 * s = a
  · rw [if_pos hprev] at hsorted hbounds ⊢
    rw [joinPrev, hxsize, hxs, hplus, if_pos hprev]
    dsimp only
    have hsum : s + (grown a u H).1 < 2 ^ 32 := by omega
    rw [hsize', Nat.mod_eq_of_lt hsum, ptr_setSize_of_clear hclear.symm, hptr]
    refine R.update (Z := []) (hkeep ((sameBut_setSize.trans sameBut_setPtr).weaken (by simp))) ?_ ?_ hsorted hbounds
    · rw [ptr_setPtr hnextlt]
      exact rfl
    · intro b hb
      obtain rfl := List.mem_singleton.mp hb
      rw [size_setPtr, size_setSize hsum]
  · rw [if_neg hprev] at hsorted hbounds ⊢
    rw [joinPrev, hxsize, hxs, hplus, if_neg hprev]
    refine R.update (Z := [(a, (grown a u H).1)]) (hkeep sameBut_setPtr) ?_ ?_ hsorted hbounds
    · rw [ptr_setPtr (by omega)]
      refine ⟨rfl, ?_⟩
      rw [ptr_setPtr_of_clear hclear.symm, hptr]
      exact rfl
    · intro b hb
      rcases List.mem_cons.mp hb with rfl | hb
      · rw [size_setPtr, hxsize, hxs]
      · obtain rfl := List.mem_singleton.mp hb
        rw [size_setPtr_of_clear hclear.symm, hsize']

theorem Ring.free (R : Ring m base (P ++ (x, s) :: H)) (hsize : size m a = u) (hu : 0 < u)
    (hx : x + 8 * s ≤ a) (ha : x + 8 ≤ a) (hbound : a + 8 * u < 2 ^ 32) (hH : ∀ c ∈ H, a + 8 * u ≤ c.1)
    (hf : f ∈ (P ++ (x, s) :: H).map Prod.fst) :
    ∃ m', (∀ k, (P ++ (x, s) :: H).length ≤ k → Malloc.free k ⟨m, f⟩ (a + 8) = some ⟨m', x⟩) ∧
      Ring m' base (P ++ insertAfter (x, s) a u H) ∧ SameBut [a, x] m m' := by
  refine ⟨_, fun k hk => ?_, R.joins hsize hu hx ha hbound hH, ?_⟩
  · have hloop : freeLoop m a k f = some x :=
      R.freeLoop_finds (by omega) (fun c hc => by have := hH c hc; omega) hf hk
    have hbp : (a + 8 + 2 ^ 32 - 8) % 2 ^ 32 = a := by omega
    rw [Malloc.free]
    dsimp only
    rw [hbp, hloop]
    rfl
  · exact (R.joinNext_spec hsize hu ha hbound hH).2.2.2.trans sameBut_joinPrev

end

end KThreads.Malloc
