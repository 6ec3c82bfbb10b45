import KThreads.Malloc.FreeList

/-!
# What a request takes from the free blocks

`malloc` cuts a block off the units of the free list. When none of the free blocks is large enough,
`morecore` first adds the units that `sbrk` returns, and the search then ends without another call.
-/

namespace KThreads.Malloc

open Blocks Circle Words

variable {m m' : ℕ → UInt8} {base a u f n k x : ℕ} {bs : List (ℕ × ℕ)}

/-- The free blocks, without the static header that the list begins with. -/
structure FreeList (m : ℕ → UInt8) (base : ℕ) (bs : List (ℕ × ℕ)) : Prop where
  ring : Ring m base ((base, 0) :: bs)
  size_pos : ∀ b ∈ bs, 0 < b.2

/-- The addresses that `freep` may have. -/
def nodes (base : ℕ) (bs : List (ℕ × ℕ)) : List ℕ := base :: bs.map Prod.fst

/-- The bytes of the static header and of the free blocks. -/
def FreeByte (base : ℕ) (bs : List (ℕ × ℕ)) (x : ℕ) : Prop :=
  (base ≤ x ∧ x < base + 8) ∨ ∃ b ∈ bs, b.1 ≤ x ∧ x < b.1 + 8 * b.2

theorem mem_nodes {b : ℕ × ℕ} (hb : b ∈ (base, 0) :: bs) : b.1 ∈ nodes base bs :=
  List.mem_map_of_mem (f := Prod.fst) hb

theorem FreeList.above (F : FreeList m base bs) : ∀ b ∈ bs, base + 8 ≤ b.1 :=
  fun b hb => ((List.pairwise_cons.mp F.ring.sorted).1 b hb).2

theorem FreeList.sorted (F : FreeList m base bs) : (nodes base bs).Pairwise (· < ·) := by
  have hmap : (((base, 0) :: bs).map Prod.fst).Pairwise (· < ·) :=
    List.pairwise_map.mpr (F.ring.sorted.imp fun h => by unfold Before at h; omega)
  exact hmap

theorem FreeList.nodup (F : FreeList m base bs) : (nodes base bs).Nodup := F.sorted.imp fun h => h.ne

theorem FreeList.wrap (F : FreeList m base bs) {p q : ℕ} (hp : p ∈ nodes base bs) (hq : q ∈ nodes base bs)
    (hwrap : ptr m p ≤ p) (hwrap' : ptr m q ≤ q) : p = q := by
  have hbase : ∀ p ∈ nodes base bs, ptr m p ≤ p → ptr m p = base := by
    intro p hp hwrap
    obtain ⟨⟨y, v⟩, hb, rfl⟩ := List.mem_map.mp (show p ∈ ((base, 0) :: bs).map Prod.fst from hp)
    obtain ⟨A, B, hsplit⟩ := List.append_of_mem hb
    have R : Ring m base (A ++ (y, v) :: B) := hsplit ▸ F.ring
    rw [R.ptr_eq] at hwrap ⊢
    cases B with
    | nil => rfl
    | cons c B =>
      have hlt := ((List.pairwise_cons.mp (List.pairwise_append.mp R.sorted).2.1).1 c List.mem_cons_self).2
      have hle : c.1 ≤ y := hwrap
      dsimp only at hlt
      omega
  exact Route.next_inj F.ring.route F.nodup hp hq ((hbase p hp hwrap).trans (hbase q hq hwrap').symm)

theorem FreeList.header_freeByte (F : FreeList m base bs) {p : ℕ} (hp : p ∈ nodes base bs)
    (hx : p ≤ x) (hx' : x < p + 8) : FreeByte base bs x := by
  rcases List.mem_cons.mp hp with rfl | hp
  · exact .inl ⟨hx, hx'⟩
  · obtain ⟨b, hb, rfl⟩ := List.mem_map.mp hp
    have := F.size_pos b hb
    exact .inr ⟨b, hb, hx, by omega⟩

theorem FreeList.exists_place (F : FreeList m base bs) (ha : base + 8 ≤ a)
    (hdisj : ∀ b ∈ bs, b.1 + 8 * b.2 ≤ a ∨ a + 8 * u ≤ b.1) :
    ∃ P x s H, (base, 0) :: bs = P ++ (x, s) :: H ∧ x + 8 * s ≤ a ∧ x + 8 ≤ a ∧ ∀ c ∈ H, a + 8 * u ≤ c.1 := by
  have hsplit : ∀ bs : List (ℕ × ℕ), bs.Pairwise Before → (∀ b ∈ bs, 0 < b.2) →
      (∀ b ∈ bs, b.1 + 8 * b.2 ≤ a ∨ a + 8 * u ≤ b.1) →
      ∃ lo hi, bs = lo ++ hi ∧ (∀ b ∈ lo, b.1 + 8 * b.2 ≤ a ∧ 0 < b.2) ∧ ∀ c ∈ hi, a + 8 * u ≤ c.1 := by
    intro bs hsorted hpos hdisj
    induction bs with
    | nil => exact ⟨[], [], rfl, nofun, nofun⟩
    | cons b bs ih =>
      obtain ⟨hb, hbs⟩ := List.pairwise_cons.mp hsorted
      rcases hdisj b List.mem_cons_self with hle | hge
      · obtain ⟨lo, hi, rfl, hlo, hhi⟩ := ih hbs (fun c hc => hpos c (List.mem_cons_of_mem b hc))
          fun c hc => hdisj c (List.mem_cons_of_mem b hc)
        refine ⟨b :: lo, hi, rfl, fun c hc => ?_, hhi⟩
        rcases List.mem_cons.mp hc with rfl | hc
        · exact ⟨hle, hpos c List.mem_cons_self⟩
        · exact hlo c hc
      · refine ⟨[], b :: bs, rfl, nofun, fun c hc => ?_⟩
        rcases List.mem_cons.mp hc with rfl | hc
        · exact hge
        · have := (hb c hc).1
          omega
  obtain ⟨lo, hi, rfl, hlo, hhi⟩ := hsplit bs (List.pairwise_cons.mp F.ring.sorted).2 F.size_pos hdisj
  rcases List.eq_nil_or_concat lo with rfl | ⟨lo, ⟨x, s⟩, rfl⟩
  · exact ⟨[], base, 0, hi, rfl, by omega, ha, hhi⟩
  · obtain ⟨hle, hpos⟩ := hlo (x, s) (by simp)
    dsimp only at hle hpos
    exact ⟨(base, 0) :: lo, x, s, hi, by simp, hle, by omega, hhi⟩

theorem FreeList.free (F : FreeList m base bs) (hsize : size m a = u) (hu : 0 < u) (ha : base + 8 ≤ a)
    (hbound : a + 8 * u < 2 ^ 32) (hdisj : ∀ b ∈ bs, b.1 + 8 * b.2 ≤ a ∨ a + 8 * u ≤ b.1)
    (hf : f ∈ nodes base bs) :
    ∃ h' bs', (∀ k, bs.length + 1 ≤ k → Malloc.free k ⟨m, f⟩ (a + 8) = some h') ∧ FreeList h'.mem base bs' ∧
      h'.freep ∈ nodes base bs' ∧ total 8 bs' = total 8 bs + units 8 a u ∧ (∃ b ∈ bs', u ≤ b.2) ∧
      ∀ x, ¬FreeByte base bs x → x < a ∨ a + 8 ≤ x → h'.mem x = m x := by
  obtain ⟨P, x, s, H, hsplit, hx, hxa, hH⟩ := F.exists_place ha hdisj
  have R : Ring m base (P ++ (x, s) :: H) := hsplit ▸ F.ring
  have hmem : f ∈ (P ++ (x, s) :: H).map Prod.fst := hsplit ▸ hf
  have hlen : bs.length + 1 = (P ++ (x, s) :: H).length := congrArg List.length hsplit
  obtain ⟨m', hfree, R', hsame⟩ := R.free hsize hu hx hxa hbound hH hmem
  have htail : H.Pairwise Before := (List.pairwise_cons.mp (List.pairwise_append.mp R.sorted).2.1).2
  obtain ⟨⟨big, hbig, hbigle⟩, ⟨first, hfirst, hfirstx⟩⟩ := exists_mem_insertAfter (b := (x, s)) hH hu htail
  -- The static header stays the first node.
  obtain ⟨bs', hbs'⟩ : ∃ bs', P ++ insertAfter (x, s) a u H = (base, 0) :: bs' := by
    cases P with
    | nil =>
      obtain ⟨rfl, rfl⟩ := Prod.mk.inj (List.cons.inj hsplit).1
      exact ⟨_, if_neg (by dsimp only; omega)⟩
    | cons b P =>
      obtain ⟨rfl, -⟩ := List.cons.inj hsplit
      exact ⟨P ++ insertAfter (x, s) a u H, rfl⟩
  have hnew : ∀ c ∈ bs', c ∈ bs ∨ u ≤ c.2 := by
    intro c hc
    have hlow := ((List.pairwise_cons.mp (hbs' ▸ R'.sorted)).1 c hc).2
    have hold : c ∈ (base, 0) :: bs → c ∈ bs := by
      intro hmem
      rcases List.mem_cons.mp hmem with rfl | hmem
      · dsimp only at hlow
        omega
      · exact hmem
    have hc' : c ∈ P ++ insertAfter (x, s) a u H := hbs' ▸ List.mem_cons_of_mem _ hc
    rw [hsplit] at hold
    rcases List.mem_append.mp hc' with hc' | hc'
    · exact .inl (hold (List.mem_append_left _ hc'))
    · rcases mem_insertAfter hH hu htail hc' with rfl | hc' | hc'
      · exact .inl (hold (by simp))
      · exact .inl (hold (by simp [hc']))
      · exact .inr hc'
  refine ⟨⟨m', x⟩, bs', fun k hk => hfree k (hlen ▸ hk), ⟨hbs' ▸ R', fun c hc => ?_⟩, ?_, ?_, ?_, fun y hy hya => ?_⟩
  · rcases hnew c hc with hc | hc
    · exact F.size_pos c hc
    · omega
  · have hmem : first ∈ (base, 0) :: bs' := hbs' ▸ List.mem_append_right P hfirst
    have hx : first.1 = x := hfirstx
    change x ∈ nodes base bs'
    exact hx ▸ mem_nodes hmem
  · have htotal : total 8 ((base, 0) :: bs') = total 8 ((base, 0) :: bs) + units 8 a u := by
      rw [← hbs', hsplit, total_append, total_append, total_insertAfter hH hu htail, add_assoc]
    rw [total_cons, total_cons, units_zero, zero_add, zero_add] at htotal
    exact htotal
  · have hmem : big ∈ (base, 0) :: bs' := hbs' ▸ List.mem_append_right P hbig
    rcases List.mem_cons.mp hmem with rfl | hmem
    · exact absurd hbigle (by dsimp only; omega)
    · exact ⟨big, hmem, hbigle⟩
  · refine hsame y fun p hp => ?_
    rcases List.mem_cons.mp hp with rfl | hp
    · exact hya
    · obtain rfl := List.mem_singleton.mp hp
      by_contra hin
      refine hy (F.header_freeByte (p := p) ?_ (by omega) (by omega))
      have hmem : (p, s) ∈ (base, 0) :: bs := by
        rw [hsplit]
        simp
      exact mem_nodes hmem

section

variable {P H : List (ℕ × ℕ)} {q w y v nunits : ℕ}

theorem Ring.unlink (R : Ring m base (P ++ (q, w) :: (y, v) :: H)) :
    Ring (setPtr m q (ptr m y)) base (P ++ (q, w) :: H) := by
  have R' : Ring m base ((P ++ [(q, w)]) ++ (y, v) :: H) := by rwa [List.append_assoc]
  have hsub : List.Sublist (P ++ (q, w) :: H) (P ++ (q, w) :: (y, v) :: H) :=
    ((List.sublist_cons_self (y, v) H).cons_cons (q, w)).append_left P
  refine R.update (Y := [(y, v)]) (Z := []) (fun b hb => ?_) ?_ (fun b hb => ?_) (R.sorted.sublist hsub)
    fun b hb => R.bound b (hsub.subset hb)
  · have hclear : Clear q b.1 := by
      refine R.clear b ?_
      rcases List.mem_append.mp hb with hb | hb <;> simp [hb]
    exact ⟨ptr_setPtr_of_clear hclear, size_setPtr_of_clear hclear⟩
  · rw [ptr_setPtr ptr_lt]
    exact R'.ptr_eq
  · obtain rfl := List.mem_singleton.mp hb
    exact size_setPtr.trans (R.size_eq (q, w) (by simp))

theorem Ring.shrink (R : Ring m base (P ++ (y, v) :: H)) (hn : 0 < nunits) (hv : nunits < v) :
    Ring (setSize (setSize m y (v - nunits)) (y + 8 * (v - nunits)) nunits) base
        (P ++ (y, v - nunits) :: H) ∧
      SameBut [y, y + 8 * (v - nunits)] m
        (setSize (setSize m y (v - nunits)) (y + 8 * (v - nunits)) nunits) := by
  have hbound : y + 8 * v < 2 ^ 32 := R.bound (y, v) (by simp)
  have hsame := (sameBut_setSize (m := m) (p := y) (v := v - nunits)).trans
    (sameBut_setSize (p := y + 8 * (v - nunits)) (v := nunits))
  have hz : Clear (y + 8 * (v - nunits)) y := .inr (by omega)
  obtain ⟨hP, hyH, hcross⟩ := List.pairwise_append.mp R.sorted
  obtain ⟨hbefore, hH⟩ := List.pairwise_cons.mp hyH
  refine ⟨R.update (Y := []) (Z := []) (fun b hb => hsame.header fun p hp => ?_) ?_ (fun b hb => ?_) ?_ fun b hb => ?_, hsame⟩
  · rcases List.mem_append.mp hp with hp | hp <;> obtain rfl := List.mem_singleton.mp hp
    · exact R.clear b hb
    · -- The part that is taken lies inside the node.
      rcases List.mem_append.mp hb with hb | hb
      · have := (hcross b hb (y, v) List.mem_cons_self).2
        exact .inr (by dsimp only at this; omega)
      · have := (hbefore b hb).1
        exact .inl (by dsimp only at this; omega)
  · rw [ptr_setSize_of_clear hz, ptr_setSize]
    exact R.ptr_eq
  · obtain rfl := List.mem_singleton.mp hb
    rw [size_setSize_of_clear hz, size_setSize (by omega)]
  · refine List.pairwise_append.mpr ⟨hP, List.pairwise_cons.mpr ⟨fun c hc => ?_, hH⟩, fun b hb c hc => ?_⟩
    · have := hbefore c hc
      unfold Before at this ⊢
      dsimp only at this ⊢
      omega
    · rcases List.mem_cons.mp hc with rfl | hc
      · exact hcross b hb (y, v) List.mem_cons_self
      · exact hcross b hb c (List.mem_cons_of_mem _ hc)
  · rcases List.mem_append.mp hb with hb | hb
    · exact R.bound b (List.mem_append_left _ hb)
    · rcases List.mem_cons.mp hb with rfl | hb
      · dsimp only
        omega
      · exact R.bound b (by simp [List.nil_append] at hb; simp [hb])

end

section

variable {σ : Type} {sbrk : σ → ℕ → Option ℕ × σ} {e : σ} {nunits prevp p q y : ℕ} {X : List ℕ}

/-- What `malloc` returns and leaves when a node is large enough. -/
def carve (h : Heap) (nunits prevp p : ℕ) : ℕ × Heap :=
  if size h.mem p = nunits then (plus p 1, ⟨setPtr h.mem prevp (ptr h.mem p), prevp⟩)
  else
    let m := setSize h.mem p (size h.mem p - nunits)
    (plus (plus p (size m p)) 1, ⟨setSize m (plus p (size m p)) nunits, prevp⟩)

theorem mallocLoop_fits {h : Heap} (hfit : nunits ≤ size h.mem p) :
    mallocLoop sbrk n nunits (k + 1) h e prevp p =
      some ((carve h nunits prevp p).1, (carve h nunits prevp p).2, e) := by
  rw [mallocLoop, if_pos hfit, carve]
  split <;> rfl

theorem mallocLoop_walk (hroute : Route (ptr m) p X y) (hX : ∀ x ∈ X, size m x < nunits ∧ x ≠ f) :
    mallocLoop sbrk n nunits (X.length + k) ⟨m, f⟩ e prevp p =
      mallocLoop sbrk n nunits k ⟨m, f⟩ e (X.getLastD prevp) y := by
  induction X generalizing p prevp with
  | nil =>
    have hp : p = y := hroute
    rw [List.length_nil, Nat.zero_add, hp]
    rfl
  | cons x X ih =>
    obtain ⟨rfl, hroute⟩ := hroute
    obtain ⟨hsmall, hne⟩ := hX p List.mem_cons_self
    rw [List.length_cons, Nat.add_right_comm, mallocLoop, if_neg (not_le.mpr hsmall), if_neg hne,
      ih hroute fun x hx => hX x (List.mem_cons_of_mem p hx)]
    cases X <;> rfl

theorem ptr_getLastD (hroute : Route (ptr m) p X y) (hprev : ptr m prevp = p) :
    ptr m (X.getLastD prevp) = y := by
  induction X generalizing p prevp with
  | nil => exact hprev.trans hroute
  | cons x X ih =>
    obtain ⟨rfl, hroute⟩ := hroute
    have := ih hroute rfl
    cases X <;> exact this

theorem FreeList.exists_tour (F : FreeList m base bs) (hf : f ∈ nodes base bs) :
    ∃ V, Route (ptr m) (ptr m f) V f ∧ f ∉ V ∧ (∀ x, x ∈ V ∨ x = f ↔ x ∈ nodes base bs) ∧
      V.length = bs.length := by
  obtain ⟨L, R, hsplit⟩ := List.append_of_mem hf
  have hroute : Route (ptr m) base (L ++ f :: R) base := hsplit ▸ F.ring.route
  have hnd : (L ++ f :: R).Nodup := hsplit ▸ F.nodup
  refine ⟨R ++ L, hroute.rotate.2, ?_, fun x => ?_, ?_⟩
  · have hperm := List.nodup_middle.mp hnd
    rw [List.nodup_cons, List.mem_append] at hperm
    rw [List.mem_append]
    exact fun h => hperm.1 h.symm
  · rw [hsplit]
    simp only [List.mem_append, List.mem_cons]
    tauto
  · have hlen := congrArg List.length hsplit
    simp only [nodes, List.length_cons, List.length_map, List.length_append] at hlen ⊢
    omega

theorem FreeList.mallocLoop_none (F : FreeList m base bs) (hf : f ∈ nodes base bs) (hn : 0 < nunits)
    (hsmall : ∀ b ∈ bs, b.2 < nunits) :
    mallocLoop sbrk n nunits (bs.length + (k + 1)) ⟨m, f⟩ e f (ptr m f) =
      (morecore sbrk n ⟨m, f⟩ e nunits).bind fun r =>
        if r.1 = 0 then some (0, r.2.1, r.2.2)
        else mallocLoop sbrk n nunits k r.2.1 r.2.2 r.1 (ptr r.2.1.mem r.1) := by
  obtain ⟨V, hroute, hnot, hmem, hlen⟩ := F.exists_tour hf
  have hsizes : ∀ x ∈ nodes base bs, size m x < nunits := by
    intro x hx
    obtain ⟨b, hb, rfl⟩ := List.mem_map.mp (show x ∈ ((base, 0) :: bs).map Prod.fst from hx)
    rw [F.ring.size_eq b hb]
    rcases List.mem_cons.mp hb with rfl | hb
    · exact hn
    · exact hsmall b hb
  have hpass : ∀ x ∈ V, size m x < nunits ∧ x ≠ f := fun x hx =>
    ⟨hsizes x ((hmem x).mp (.inl hx)), fun heq => hnot (heq ▸ hx)⟩
  rw [← hlen, mallocLoop_walk hroute hpass, mallocLoop, if_neg (not_le.mpr (hsizes f hf)), if_pos rfl]
  rfl

theorem FreeList.mallocLoop_some (F : FreeList m base bs) (hf : f ∈ nodes base bs) (hn : 0 < nunits)
    (hfit : ∃ b ∈ bs, nunits ≤ b.2) :
    ∃ q b, b ∈ bs ∧ nunits ≤ b.2 ∧ q ∈ nodes base bs ∧ ptr m q = b.1 ∧
      ∀ {σ : Type} {sbrk : σ → ℕ → Option ℕ × σ} {e : σ} {n k : ℕ}, bs.length + 1 ≤ k →
        mallocLoop sbrk n nunits k ⟨m, f⟩ e f (ptr m f) =
          some ((carve ⟨m, f⟩ nunits q b.1).1, (carve ⟨m, f⟩ nunits q b.1).2, e) := by
  obtain ⟨V, hroute, hnot, hmem, hlen⟩ := F.exists_tour hf
  have hblock : ∀ x ∈ nodes base bs, nunits ≤ size m x → ∃ b ∈ bs, nunits ≤ b.2 ∧ b.1 = x := by
    intro x hx hle
    obtain ⟨b, hb, rfl⟩ := List.mem_map.mp (show x ∈ ((base, 0) :: bs).map Prod.fst from hx)
    rw [F.ring.size_eq b hb] at hle
    rcases List.mem_cons.mp hb with rfl | hb
    · exact absurd hle (by dsimp only; omega)
    · exact ⟨b, hb, hle, rfl⟩
  -- The nodes that are passed, and the first one that is large enough.
  obtain ⟨X, y, hX, hpass, hy, hle, hXlen⟩ : ∃ X y, Route (ptr m) (ptr m f) X y ∧
      (∀ x ∈ X, size m x < nunits ∧ x ∈ V) ∧ y ∈ nodes base bs ∧ nunits ≤ size m y ∧ X.length ≤ bs.length := by
    cases hfind : V.find? (nunits ≤ size m ·) with
    | some y =>
      obtain ⟨hle, X, Y, rfl, hsmall⟩ := List.find?_eq_some_iff_append.mp hfind
      refine ⟨X, y, hroute.split.1, fun x hx => ⟨?_, List.mem_append_left _ hx⟩, (hmem y).mp (.inl (by simp)),
        of_decide_eq_true hle, ?_⟩
      · simpa using hsmall x hx
      · rw [← hlen, List.length_append]
        omega
    | none =>
      have hsmall : ∀ x ∈ V, size m x < nunits := by simpa using hfind
      refine ⟨V, f, hroute, fun x hx => ⟨hsmall x hx, hx⟩, hf, ?_, hlen.le⟩
      obtain ⟨b, hb, hle⟩ := hfit
      rw [← F.ring.size_eq b (List.mem_cons_of_mem _ hb)] at hle
      rcases (hmem b.1).mpr (mem_nodes (List.mem_cons_of_mem _ hb)) with hbV | hbf
      · exact absurd hle (not_le.mpr (hsmall b.1 hbV))
      · exact hbf ▸ hle
  obtain ⟨b, hb, hble, rfl⟩ := hblock y hy hle
  refine ⟨X.getLastD f, b, hb, hble, ?_, ptr_getLastD hX rfl, ?_⟩
  · rcases List.eq_nil_or_concat X with rfl | ⟨X', x, rfl⟩
    · exact hf
    · rw [List.concat_eq_append, List.getLastD_concat]
      exact (hmem x).mp (.inl (hpass x (by simp)).2)
  · intro σ sbrk e n k hk
    obtain ⟨j, rfl⟩ : ∃ j, k = X.length + (j + 1) := ⟨k - X.length - 1, by omega⟩
    have hwalk : ∀ x ∈ X, size m x < nunits ∧ x ≠ f := fun x hx =>
      ⟨(hpass x hx).1, fun heq => hnot (heq ▸ (hpass x hx).2)⟩
    rw [mallocLoop_walk hX hwalk]
    exact mallocLoop_fits hle

end

end KThreads.Malloc

namespace KThreads.Malloc

open Blocks Circle Words

variable {m m' : ℕ → UInt8} {base f x : ℕ} {bs : List (ℕ × ℕ)} {h : Heap}

section

variable {nunits q z : ℕ} {b : ℕ × ℕ}

theorem freeByte_iff : FreeByte base bs x ↔
    (base ≤ x ∧ x < base + 8) ∨ ∃ y ∈ total 8 bs, y ≤ x ∧ x < y + 8 := by
  refine or_congr_right ⟨?_, ?_⟩
  · rintro ⟨b, hb, hx, hx'⟩
    obtain ⟨y, hy, hyx⟩ := exists_unit (by omega) hx hx'
    exact ⟨y, mem_total.mpr ⟨b, hb, hy⟩, hyx⟩
  · rintro ⟨y, hy, hx, hx'⟩
    obtain ⟨b, hb, hy⟩ := mem_total.mp hy
    obtain ⟨j, hj, rfl⟩ := mem_units.mp hy
    exact ⟨b, hb, by omega, by omega⟩

theorem FreeList.congr (F : FreeList m base bs) (hsame : ∀ x, FreeByte base bs x → m' x = m x) :
    FreeList m' base bs := by
  have hheader : ∀ b ∈ (base, 0) :: bs, ptr m' b.1 = ptr m b.1 ∧ size m' b.1 = size m b.1 := by
    intro b hb
    have hbytes : ∀ x, b.1 ≤ x → x < b.1 + 8 → m' x = m x := fun x hx hx' =>
      hsame x (F.header_freeByte (mem_nodes hb) hx hx')
    exact ⟨wordAt_congr fun x hx hx' => hbytes x hx (by omega),
      wordAt_congr fun x hx hx' => hbytes x (by omega) (by omega)⟩
  refine ⟨⟨F.ring.route.congr fun p hp => ?_, fun b hb => ?_, F.ring.sorted, F.ring.bound⟩, F.size_pos⟩
  · obtain ⟨b, hb, rfl⟩ := List.mem_map.mp hp
    exact (hheader b hb).1
  · rw [(hheader b hb).2, F.ring.size_eq b hb]

/-- A block of `nunits` units at `z` has been taken from the units `M`, and the rest of them is the free
list; only bytes of `M` and the static header have changed. -/
structure Taken (base nunits : ℕ) (m : ℕ → UInt8) (M : Multiset ℕ) (z : ℕ) (h : Heap) (bs : List (ℕ × ℕ)) :
    Prop where
  list : FreeList h.mem base bs
  freep : h.freep ∈ nodes base bs
  conserved : total 8 bs + units 8 z nunits = M
  size_eq : size h.mem z = nunits
  frame : ∀ x, ¬(base ≤ x ∧ x < base + 8) → (∀ y ∈ M, ¬(y ≤ x ∧ x < y + 8)) → h.mem x = m x

theorem Taken.end_le {M : Multiset ℕ} {e : ℕ} (hT : Taken base nunits m M z h bs) (hn : 0 < nunits)
    (hM : ∀ y ∈ M, y + 8 ≤ e) : z + 8 * nunits ≤ e := by
  have hlast : z + 8 * (nunits - 1) ∈ units 8 z nunits := mem_units.mpr ⟨_, by omega, rfl⟩
  have := hM _ (hT.conserved ▸ Multiset.mem_add.mpr (.inr hlast))
  omega

theorem FreeList.carve (F : FreeList m base bs) (hb : b ∈ bs) (hle : nunits ≤ b.2) (hn : 0 < nunits)
    (hq : q ∈ nodes base bs) (hptr : ptr m q = b.1) :
    ∃ z bs', (Malloc.carve ⟨m, f⟩ nunits q b.1).1 = z + 8 ∧
      Taken base nunits m (total 8 bs) z (Malloc.carve ⟨m, f⟩ nunits q b.1).2 bs' := by
  obtain ⟨y, v⟩ := b
  dsimp only at hle hptr
  have hframe : ∀ {m' : ℕ → UInt8} {ps : List ℕ}, SameBut ps m m' →
      (∀ p ∈ ps, ∀ x, p ≤ x → x < p + 8 → FreeByte base bs x) →
      ∀ x, ¬(base ≤ x ∧ x < base + 8) → (∀ y ∈ total 8 bs, ¬(y ≤ x ∧ x < y + 8)) → m' x = m x := by
    intro m' ps hsame hps x hbase hunits
    refine hsame x fun p hp => ?_
    by_contra hin
    rcases freeByte_iff.mp (hps p hp x (by omega) (by omega)) with h | ⟨y, hy, h⟩
    · exact hbase h
    · exact hunits y hy h
  have hbound : y + 8 * v < 2 ^ 32 := F.ring.bound (y, v) (List.mem_cons_of_mem _ hb)
  have hsize : size m y = v := F.ring.size_eq (y, v) (List.mem_cons_of_mem _ hb)
  have hinside : ∀ x, y ≤ x → x < y + 8 * v → FreeByte base bs x := fun x hx hx' => .inr ⟨(y, v), hb, hx, hx'⟩
  obtain ⟨lo, hi, rfl⟩ := List.append_of_mem hb
  rw [Malloc.carve, hsize]
  by_cases hexact : v = nunits
  · -- The whole node is taken out of the list.
    obtain ⟨P, ⟨q', w⟩, hP⟩ : ∃ P r, (base, 0) :: lo = P ++ [r] := by
      rcases List.eq_nil_or_concat ((base, 0) :: lo) with h | ⟨P, r, h⟩
      · cases h
      · exact ⟨P, r, by rw [h, List.concat_eq_append]⟩
    have hsplit : (base, 0) :: (lo ++ (y, v) :: hi) = P ++ (q', w) :: (y, v) :: hi := by
      rw [← List.cons_append, hP, List.append_assoc]
      rfl
    have R : Ring m base (P ++ (q', w) :: (y, v) :: hi) := hsplit ▸ F.ring
    obtain rfl : q = q' := by
      refine Route.next_inj F.ring.route F.nodup hq ?_ (hptr.trans R.ptr_eq.symm)
      exact mem_nodes (b := (q', w)) (by rw [hsplit]; simp)
    have hnew : P ++ (q, w) :: hi = (base, 0) :: (lo ++ hi) := by
      rw [← List.cons_append, hP, List.append_assoc]
      rfl
    have hqmem : (q, w) ∈ (base, 0) :: (lo ++ hi) := by
      rw [← hnew]
      simp
    rw [if_pos hexact]
    have hplus : plus y 1 = y + 8 := Nat.mod_eq_of_lt (by omega)
    refine ⟨y, lo ++ hi, hplus, ⟨⟨hnew ▸ R.unlink, fun c hc => F.size_pos c ?_⟩, mem_nodes hqmem, ?_, ?_, ?_⟩⟩
    · rcases List.mem_append.mp hc with hc | hc <;> simp [hc]
    · rw [total_append, total_append, total_cons, hexact]
      abel
    · rw [← hexact, ← hsize]
      exact size_setPtr_of_clear (R.clear (y, v) (by simp))
    · refine hframe sameBut_setPtr fun p hp x hx hx' => ?_
      obtain rfl := List.mem_singleton.mp hp
      exact F.header_freeByte hq hx hx'
  · -- The last units of the node are taken.
    have hlt : nunits < v := lt_of_le_of_ne hle (Ne.symm hexact)
    have R : Ring m base (((base, 0) :: lo) ++ (y, v) :: hi) := F.ring
    obtain ⟨R', hsame⟩ := R.shrink hn hlt
    have hz : plus y (v - nunits) = y + 8 * (v - nunits) := Nat.mod_eq_of_lt (by omega)
    have hplus : plus (y + 8 * (v - nunits)) 1 = y + 8 * (v - nunits) + 8 := Nat.mod_eq_of_lt (by omega)
    rw [if_neg hexact]
    dsimp only
    rw [size_setSize (by omega), hz, hplus]
    refine ⟨y + 8 * (v - nunits), lo ++ (y, v - nunits) :: hi, rfl, ⟨⟨R', fun c hc => ?_⟩, ?_, ?_, ?_, ?_⟩⟩
    · rcases List.mem_append.mp hc with hc | hc
      · exact F.size_pos c (List.mem_append_left _ hc)
      · rcases List.mem_cons.mp hc with rfl | hc
        · exact Nat.sub_pos_of_lt hlt
        · exact F.size_pos c (by simp [hc])
    · have hsame : nodes base (lo ++ (y, v - nunits) :: hi) = nodes base (lo ++ (y, v) :: hi) := by
        simp [nodes]
      rw [hsame]
      exact hq
    · have hunits : units 8 y v = units 8 y (v - nunits) + units 8 (y + 8 * (v - nunits)) nunits := by
        rw [← units_add, Nat.sub_add_cancel hle]
      rw [total_append, total_append, total_cons, total_cons, hunits]
      abel
    · exact size_setSize (by omega)
    · refine hframe hsame fun p hp x hx hx' => ?_
      rcases List.mem_cons.mp hp with rfl | hp
      · exact hinside x hx (by omega)
      · obtain rfl := List.mem_singleton.mp hp
        exact hinside x (by omega) (by omega)

end

section

variable {σ : Type} {sbrk : σ → ℕ → Option ℕ × σ} {e e' : σ} {nbytes nunits p k : ℕ}

/-- The units that `morecore` asks for. -/
def atLeast (nu : ℕ) : ℕ := if nu < 4096 then 4096 else nu

theorem le_atLeast : nunits ≤ atLeast nunits := by
  unfold atLeast
  split <;> omega

theorem atLeast_pos : 0 < atLeast nunits := by
  unfold atLeast
  split <;> omega

theorem morecore_eq : Malloc.morecore sbrk k h e nunits =
    match sbrk e (atLeast nunits * 8 % 2 ^ 32) with
    | (none, e) => some (0, h, e)
    | (some p, e) => (Malloc.free k ⟨setSize h.mem p (atLeast nunits), h.freep⟩ (plus p 1)).bind
        fun h => some (h.freep, h, e) :=
  rfl

theorem FreeList.morecore (F : FreeList m base bs) (hf : f ∈ nodes base bs) (hbase : base + 8 ≤ p)
    (habove : ∀ b ∈ bs, b.1 + 8 * b.2 ≤ p) (hbound : p + 8 * atLeast nunits < 2 ^ 32) :
    ∃ h' bs', FreeList h'.mem base bs' ∧ h'.freep ∈ nodes base bs' ∧
      total 8 bs' = total 8 bs + units 8 p (atLeast nunits) ∧ (∃ b ∈ bs', atLeast nunits ≤ b.2) ∧
      (∀ x, ¬FreeByte base bs x → x < p ∨ p + 8 ≤ x → h'.mem x = m x) ∧
      ∀ {σ : Type} {sbrk : σ → ℕ → Option ℕ × σ} {e e' : σ} {k : ℕ},
        sbrk e (atLeast nunits * 8 % 2 ^ 32) = (some p, e') → bs.length + 1 ≤ k →
          Malloc.morecore sbrk k ⟨m, f⟩ e nunits = some (h'.freep, h', e') := by
  have hclear : ∀ x, FreeByte base bs x → x < p := by
    rintro x (hx | ⟨b, hb, -, hx⟩)
    · omega
    · exact hx.trans_le (habove b hb)
  have hsame := sameBut_setSize (m := m) (p := p) (v := atLeast nunits)
  have F' : FreeList (setSize m p (atLeast nunits)) base bs := by
    refine F.congr fun x hx => hsame x fun q hq => ?_
    obtain rfl := List.mem_singleton.mp hq
    exact .inl (hclear x hx)
  have hsize : size (setSize m p (atLeast nunits)) p = atLeast nunits := size_setSize (by omega)
  obtain ⟨h', bs', hfree, hlist, hfreep, htotal, hbig, hframe⟩ :=
    F'.free hsize atLeast_pos hbase hbound (fun b hb => .inl (habove b hb)) hf
  refine ⟨h', bs', hlist, hfreep, htotal, hbig, fun x hx hxp => ?_, fun {σ sbrk e e' k} hsbrk hk => ?_⟩
  · rw [hframe x hx hxp]
    refine hsame x fun q hq => ?_
    obtain rfl := List.mem_singleton.mp hq
    exact hxp
  · have hplus : plus p 1 = p + 8 := by
      have hpos : 0 < atLeast nunits := atLeast_pos
      exact Nat.mod_eq_of_lt (by omega)
    rw [morecore_eq, hsbrk]
    dsimp only
    rw [hplus, hfree k hk]
    rfl

theorem morecore_fails (hsbrk : sbrk e (atLeast nunits * 8 % 2 ^ 32) = (none, e')) :
    Malloc.morecore sbrk k h e nunits = some (0, h, e') := by
  rw [morecore_eq, hsbrk]

theorem FreeList.base_le (F : FreeList m base bs) (hf : f ∈ nodes base bs) : base ≤ f := by
  rcases List.mem_cons.mp hf with rfl | hf
  · exact le_rfl
  · obtain ⟨b, hb, rfl⟩ := List.mem_map.mp hf
    have := F.above b hb
    omega

theorem unitsFor_pos : 0 < unitsFor nbytes := Nat.succ_pos _

theorem unitsFor_eq (hlt : nbytes + 7 < 2 ^ 32) : unitsFor nbytes = (nbytes + 7) / 8 + 1 := by
  rw [unitsFor, Nat.mod_eq_of_lt (by omega)]
  omega

theorem malloc_eq (hf : f ≠ 0) : malloc sbrk base k ⟨m, f⟩ e nbytes =
    mallocLoop sbrk k (unitsFor nbytes) k ⟨m, f⟩ e f (ptr m f) := by
  have hready : ready base ⟨m, f⟩ = ⟨m, f⟩ := if_neg hf
  rw [malloc, hready]

theorem FreeList.malloc_fits (F : FreeList m base bs) (hf : f ∈ nodes base bs) (hbase : 0 < base)
    (hfit : ∃ b ∈ bs, unitsFor nbytes ≤ b.2) :
    ∃ z h' bs', Taken base (unitsFor nbytes) m (total 8 bs) z h' bs' ∧
      ∀ {σ : Type} {sbrk : σ → ℕ → Option ℕ × σ} {e : σ} {k : ℕ}, bs.length + 1 ≤ k →
        malloc sbrk base k ⟨m, f⟩ e nbytes = some (z + 8, h', e) := by
  have hne : f ≠ 0 := by
    have := F.base_le hf
    omega
  obtain ⟨q, b, hb, hle, hq, hptr, hloop⟩ := F.mallocLoop_some hf unitsFor_pos hfit
  obtain ⟨z, bs', hz, htaken⟩ := F.carve (f := f) hb hle unitsFor_pos hq hptr
  refine ⟨z, _, bs', htaken, fun hk => ?_⟩
  rw [malloc_eq hne, hloop hk, hz]

theorem FreeList.malloc_fails (F : FreeList m base bs) (hf : f ∈ nodes base bs) (hbase : 0 < base)
    (hsmall : ∀ b ∈ bs, b.2 < unitsFor nbytes)
    (hsbrk : sbrk e (atLeast (unitsFor nbytes) * 8 % 2 ^ 32) = (none, e')) (hk : bs.length + 1 ≤ k) :
    malloc sbrk base k ⟨m, f⟩ e nbytes = some (0, ⟨m, f⟩, e') := by
  have hne : f ≠ 0 := by
    have := F.base_le hf
    omega
  obtain ⟨j, hj⟩ : ∃ j, k = bs.length + (j + 1) := ⟨k - bs.length - 1, by omega⟩
  rw [malloc_eq hne]
  nth_rewrite 2 [hj]
  rw [F.mallocLoop_none hf unitsFor_pos hsmall, morecore_fails hsbrk]
  rfl

theorem FreeList.malloc_grows (F : FreeList m base bs) (hf : f ∈ nodes base bs) (hbase : 0 < base)
    (hsmall : ∀ b ∈ bs, b.2 < unitsFor nbytes) (hlow : base + 8 ≤ p) (habove : ∀ b ∈ bs, b.1 + 8 * b.2 ≤ p)
    (hbound : p + 8 * atLeast (unitsFor nbytes) < 2 ^ 32) :
    ∃ z h' bs' N, Taken base (unitsFor nbytes) m (total 8 bs + units 8 p (atLeast (unitsFor nbytes))) z h' bs' ∧
      ∀ {σ : Type} {sbrk : σ → ℕ → Option ℕ × σ} {e e' : σ} {k : ℕ},
        sbrk e (atLeast (unitsFor nbytes) * 8 % 2 ^ 32) = (some p, e') → N ≤ k →
          malloc sbrk base k ⟨m, f⟩ e nbytes = some (z + 8, h', e') := by
  have hne : f ≠ 0 := by
    have := F.base_le hf
    omega
  obtain ⟨⟨m₁, f₁⟩, bs₁, F₁, hf₁, htotal, ⟨b₁, hb₁, hle₁⟩, hframe, hcore⟩ := F.morecore hf hlow habove hbound
  have hne₁ : f₁ ≠ 0 := by
    have hle : base ≤ f₁ := F₁.base_le hf₁
    omega
  -- The block that was added is large enough.
  obtain ⟨q, b, hb, hle, hq, hptr, hloop⟩ := F₁.mallocLoop_some hf₁ unitsFor_pos ⟨b₁, hb₁, le_atLeast.trans hle₁⟩
  obtain ⟨z, bs', hz, htaken⟩ := F₁.carve (f := f₁) hb hle unitsFor_pos hq hptr
  rw [htotal] at htaken
  refine ⟨z, _, bs', bs.length + bs₁.length + 2, ⟨htaken.list, htaken.freep, htaken.conserved, htaken.size_eq,
    fun x hx hunits => ?_⟩, fun {σ sbrk e e' k} hsbrk hk => ?_⟩
  · rw [htaken.frame x hx hunits]
    refine hframe x (fun hfree => ?_) ?_
    · rcases freeByte_iff.mp hfree with hx' | ⟨y, hy, hx'⟩
      · exact hx hx'
      · exact hunits y (Multiset.mem_add.mpr (.inl hy)) hx'
    · have hp : p ∈ units 8 p (atLeast (unitsFor nbytes)) := mem_units.mpr ⟨0, atLeast_pos, rfl⟩
      have := hunits p (Multiset.mem_add.mpr (.inr hp))
      omega
  · obtain ⟨j, hj⟩ : ∃ j, k = bs.length + (j + 1) := ⟨k - bs.length - 1, by omega⟩
    have hj' : bs₁.length + 1 ≤ j := by omega
    rw [malloc_eq hne]
    nth_rewrite 2 [hj]
    rw [F.mallocLoop_none hf unitsFor_pos hsmall, hcore hsbrk (by omega), Option.bind_some]
    dsimp only at hf₁ hloop hz ⊢
    rw [if_neg hne₁, hloop hj', hz]

theorem freeList_ready (hfreep : h.freep = 0) (hlt : base < 2 ^ 32) :
    FreeList (ready base h).mem base [] ∧ (ready base h).freep ∈ nodes base [] := by
  rw [ready, if_pos hfreep]
  refine ⟨⟨⟨⟨rfl, ?_⟩, fun b hb => ?_, List.pairwise_singleton _ _, fun b hb => ?_⟩, nofun⟩, List.mem_cons_self⟩
  · change ptr (setSize (setPtr h.mem base base) base 0) base = base
    rw [ptr_setSize, ptr_setPtr hlt]
  · obtain rfl := List.mem_singleton.mp hb
    exact size_setSize (by omega)
  · obtain rfl := List.mem_singleton.mp hb
    exact hlt

theorem malloc_ready (hbase : 0 < base) :
    malloc sbrk base k (ready base h) e nbytes = malloc sbrk base k h e nbytes := by
  have hready : ready base (ready base h) = ready base h := by
    by_cases hfreep : h.freep = 0
    · refine if_neg ?_
      rw [ready, if_pos hfreep]
      exact hbase.ne'
    · have hsame : ready base h = h := if_neg hfreep
      rw [hsame, hsame]
  rw [malloc, malloc, hready]

theorem morecore_state {r : ℕ × Heap × σ} (hr : Malloc.morecore sbrk k h e nunits = some r) :
    r.2.2 = (sbrk e (atLeast nunits * 8 % 2 ^ 32)).2 := by
  rw [morecore_eq] at hr
  split at hr
  · next hsbrk =>
    cases hr
    rw [hsbrk]
  · next hsbrk =>
    obtain ⟨h', -, hr⟩ := Option.bind_eq_some_iff.mp hr
    cases hr
    rw [hsbrk]

theorem mallocLoop_state {R : σ → σ → Prop} (hrefl : ∀ e, R e e) (htrans : ∀ {e₁ e₂ e₃}, R e₁ e₂ → R e₂ e₃ → R e₁ e₃)
    (hsbrk : ∀ e n, R e (sbrk e n).2) {j prevp : ℕ} {r : ℕ × Heap × σ}
    (hr : mallocLoop sbrk k nunits j h e prevp p = some r) : R e r.2.2 := by
  induction j generalizing h e prevp p with
  | zero => cases hr
  | succ j ih =>
    rw [mallocLoop] at hr
    split at hr
    · split at hr <;> cases hr <;> exact hrefl e
    · split at hr
      · obtain ⟨⟨p', h', e'⟩, hcore, hr⟩ := Option.bind_eq_some_iff.mp hr
        have hcall : R e e' := by
          have hstate : e' = _ := morecore_state hcore
          rw [hstate]
          exact hsbrk e _
        dsimp only at hr
        split at hr
        · cases hr
          exact hcall
        · exact htrans hcall (ih hr)
      · exact ih hr

end

end KThreads.Malloc
