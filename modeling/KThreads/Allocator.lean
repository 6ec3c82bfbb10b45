import KThreads.Lib.Transition
import KThreads.Malloc.Requests

/-!
# The allocator over whole runs

A program that calls `malloc` and `free` in any order, writes to the blocks that it holds, and gets fresh
memory from `sbrk` or none. The units that `sbrk` has returned are those of the free blocks and of the
blocks that the program holds. As they are apart, a call changes no header but those of free blocks and of
its own block, and every call returns.
-/

namespace KThreads.Malloc

open Blocks Circle Words Transition

/-- The program and its heap: the pointers that it holds with the sizes it has asked for, and what `sbrk` has
returned, with the numbers of bytes. -/
structure World where
  heap : Heap
  live : List (ℕ × ℕ)
  chunks : List (ℕ × ℕ)

/-- What the program does. For `malloc`, `fresh` says where `sbrk` finds memory, or that it fails. -/
inductive Call
  | malloc (nbytes : ℕ) (fresh : List (ℕ × ℕ) → ℕ → Option ℕ)
  | free (ap : ℕ)
  | write (mem : ℕ → UInt8)

/-- `sbrk(n)` when the memory `chunks` has been returned before. -/
def sbrk (fresh : List (ℕ × ℕ) → ℕ → Option ℕ) (chunks : List (ℕ × ℕ)) (n : ℕ) : Option ℕ × List (ℕ × ℕ) :=
  match fresh chunks n with
  | some p => (some p, chunks ++ [(p, n)])
  | none => (none, chunks)

section

variable (base : ℕ) {chunks : List (ℕ × ℕ)} {live : List (ℕ × ℕ)}
  {fresh : List (ℕ × ℕ) → ℕ → Option ℕ}

inductive Step : World → Call → World → Prop
  | malloc {w : World} {nbytes : ℕ} {fresh : List (ℕ × ℕ) → ℕ → Option ℕ} {r : ℕ} {h : Heap} {chunks : List (ℕ × ℕ)} :
    Returns (fun n => Malloc.malloc (sbrk fresh) base n w.heap w.chunks nbytes) (r, h, chunks) →
      Step w (.malloc nbytes fresh) ⟨h, if r = 0 then w.live else (r, nbytes) :: w.live, chunks⟩
  | free {w : World} {ap : ℕ} {h : Heap} : Returns (fun n => Malloc.free n w.heap ap) h →
      Step w (.free ap) ⟨h, w.live.eraseP fun l => l.1 = ap, w.chunks⟩
  | write {w : World} {mem : ℕ → UInt8} : Step w (.write mem) { w with heap := { w.heap with mem := mem } }

/-- `sbrk` returns memory above the static header and above all that it has returned before. -/
def Fresh (fresh : List (ℕ × ℕ) → ℕ → Option ℕ) : Prop :=
  ∀ chunks n p, fresh chunks n = some p →
    base + 8 ≤ p ∧ (∀ c ∈ chunks, c.1 + c.2 ≤ p) ∧ p + n < 2 ^ 32

/-- What the program may do: the unit count of a request times the size of a header does not wrap, `free` is
called on a block that the program holds, and the bytes that it writes are those that it has asked for or lie
outside the allocator's memory. -/
def Allowed (w : World) : Call → Prop
  | .malloc nbytes fresh => ((nbytes + 7) / 8 + 1) * 8 < 2 ^ 32 ∧ Fresh base fresh
  | .free ap => ∃ nbytes, (ap, nbytes) ∈ w.live
  | .write mem => ∀ x, mem x ≠ w.heap.mem x → ¬(base ≤ x ∧ x < base + 8) ∧
      ((∃ l ∈ w.live, l.1 ≤ x ∧ x < l.1 + l.2) ∨ ∀ c ∈ w.chunks, x < c.1 ∨ c.1 + c.2 ≤ x)

def system : System World Call where
  init w := w.heap.freep = 0 ∧ w.live = [] ∧ w.chunks = []
  step := Step base

end

/-- The blocks that the program holds: the addresses of their headers and their units. -/
def held (m : ℕ → UInt8) (live : List (ℕ × ℕ)) : List (ℕ × ℕ) := live.map fun l => (l.1 - 8, size m (l.1 - 8))

/-- The units of the memory that `sbrk` has returned. -/
def obtained (chunks : List (ℕ × ℕ)) : Multiset ℕ := total 8 (chunks.map fun c => (c.1, c.2 / 8))

/-- The heap with the free blocks `bs`, in the order of the list: what the program may rely on. -/
structure Sound (base : ℕ) (w : World) (bs : List (ℕ × ℕ)) : Prop where
  /-- The list is circular, and `freep` is one of its nodes. -/
  circular : Route (ptr w.heap.mem) base (nodes base bs) base
  freep : w.heap.freep ∈ nodes base bs
  sizes : ∀ b ∈ bs, size w.heap.mem b.1 = b.2 ∧ 0 < b.2
  /-- The nodes are sorted by address, with one wrap point. -/
  sorted : (nodes base bs).Pairwise (· < ·)
  wrap : ∀ p ∈ nodes base bs, ∀ q ∈ nodes base bs, ptr w.heap.mem p ≤ p → ptr w.heap.mem q ≤ q → p = q
  /-- Free blocks do not overlap and are not adjacent. -/
  gaps : bs.Pairwise fun b c => b.1 + 8 * b.2 < c.1
  /-- Live blocks are disjoint from each other and from the free blocks. -/
  held_apart : (held w.heap.mem w.live).Pairwise fun b c => b.1 + 8 * b.2 ≤ c.1 ∨ c.1 + 8 * c.2 ≤ b.1
  held_free : ∀ b ∈ held w.heap.mem w.live, ∀ c ∈ bs, b.1 + 8 * b.2 ≤ c.1 ∨ c.1 + 8 * c.2 ≤ b.1
  /-- A live block has a header and room for the request behind it. -/
  room : ∀ l ∈ w.live, 8 ≤ l.1 ∧ l.1 + l.2 ≤ l.1 - 8 + 8 * size w.heap.mem (l.1 - 8)
  /-- Every unit that `sbrk` has returned is in exactly one live or free block. -/
  conserved : total 8 bs + total 8 (held w.heap.mem w.live) = obtained w.chunks
  once : (obtained w.chunks).Nodup

section

variable {base : ℕ} {w w' w'' : World} {bs : List (ℕ × ℕ)} {l : ℕ × ℕ} {x : ℕ}

theorem Step.unique {c : Call} (h : Step base w c w') (h' : Step base w c w'') : w' = w'' := by
  cases h with
  | malloc h =>
    cases h' with
    | malloc h' =>
      obtain ⟨rfl, hrest⟩ := Prod.mk.inj (h.unique h')
      obtain ⟨rfl, rfl⟩ := Prod.mk.inj hrest
      rfl
  | free h =>
    cases h' with
    | free h' => rw [h.unique h']
  | write =>
    cases h' with
    | write => rfl

/-- The invariant of the runs. -/
structure Good (base : ℕ) (w : World) (bs : List (ℕ × ℕ)) : Prop where
  list : FreeList w.heap.mem base bs
  freep : w.heap.freep ∈ nodes base bs
  room : ∀ l ∈ w.live, 8 ≤ l.1 ∧ l.2 + 8 ≤ 8 * size w.heap.mem (l.1 - 8)
  conserved : total 8 bs + total 8 (held w.heap.mem w.live) = obtained w.chunks
  above : w.chunks.Pairwise fun c d => c.1 + c.2 ≤ d.1
  chunk : ∀ c ∈ w.chunks, base + 8 ≤ c.1 ∧ c.1 + c.2 < 2 ^ 32 ∧ 8 ∣ c.2

theorem mem_obtained {y : ℕ} (hy : y ∈ obtained chunks) :
    ∃ c ∈ chunks, c.1 ≤ y ∧ y + 8 ≤ c.1 + c.2 := by
  obtain ⟨b, hb, hy⟩ := mem_total.mp hy
  obtain ⟨c, hc, rfl⟩ := List.mem_map.mp hb
  obtain ⟨j, hj, rfl⟩ := mem_units.mp hy
  dsimp only at hj ⊢
  exact ⟨c, hc, by omega, by omega⟩

theorem obtained_append {p n : ℕ} :
    obtained (chunks ++ [(p, n * 8)]) = obtained chunks + units 8 p n := by
  rw [obtained, List.map_append, total_append, List.map_singleton, total_cons, total_nil, add_zero]
  dsimp only
  rw [Nat.mul_div_cancel n (by omega)]
  rfl

theorem Good.apart (G : Good base w bs) : Apart 8 (obtained w.chunks) := by
  refine apart_total (List.pairwise_map.mpr (G.above.imp fun {c d} h => ?_)) (by omega)
  dsimp only
  omega

theorem Good.apart' (G : Good base w bs) : Apart 8 (total 8 bs + total 8 (held w.heap.mem w.live)) :=
  G.conserved ▸ G.apart

theorem Good.exists_unit (G : Good base w bs) (hl : l ∈ w.live) (hx : l.1 - 8 ≤ x)
    (hx' : x < l.1 ∨ x < l.1 + l.2) :
    ∃ y ∈ units 8 (l.1 - 8) (size w.heap.mem (l.1 - 8)), y ≤ x ∧ x < y + 8 := by
  have := G.room l hl
  exact Blocks.exists_unit (by omega) hx (by omega)

theorem Good.byte_above (G : Good base w bs) {y : ℕ} (hy : y ∈ obtained w.chunks) (hx : y ≤ x) :
    ¬(base ≤ x ∧ x < base + 8) := by
  obtain ⟨c, hc, hcy, -⟩ := mem_obtained hy
  have := (G.chunk c hc).1
  omega

theorem mem_held_total {m : ℕ → UInt8} {y : ℕ} (hl : l ∈ live)
    (hy : y ∈ units 8 (l.1 - 8) (size m (l.1 - 8))) : y ∈ total 8 (held m live) :=
  mem_total.mpr ⟨_, List.mem_map_of_mem (f := fun l : ℕ × ℕ => (l.1 - 8, size m (l.1 - 8))) hl, hy⟩

theorem total_held {m : ℕ → UInt8} {A B : List (ℕ × ℕ)} : total 8 (held m (A ++ l :: B)) =
    units 8 (l.1 - 8) (size m (l.1 - 8)) + total 8 (held m (A ++ B)) := by
  rw [held, held, List.map_append, List.map_append, List.map_cons, total_append, total_append, total_cons]
  abel

theorem held_congr {m m' : ℕ → UInt8}
    (hsame : ∀ l ∈ live, ∀ x, l.1 - 8 ≤ x → x < l.1 - 8 + 8 → m' x = m x) :
    (∀ l ∈ live, size m' (l.1 - 8) = size m (l.1 - 8)) ∧ held m' live = held m live := by
  have hsize : ∀ l ∈ live, size m' (l.1 - 8) = size m (l.1 - 8) := fun l hl =>
    wordAt_congr fun x hx hx' => hsame l hl x (by omega) (by omega)
  exact ⟨hsize, List.map_congr_left fun l hl => by rw [hsize l hl]⟩

theorem Good.sound (G : Good base w bs) : Sound base w bs where
  circular := G.list.ring.route
  freep := G.freep
  sizes b hb := ⟨G.list.ring.size_eq b (List.mem_cons_of_mem _ hb), G.list.size_pos b hb⟩
  sorted := G.list.sorted
  wrap p hp q hq := G.list.wrap hp hq
  gaps := (List.pairwise_cons.mp G.list.ring.sorted).2.imp fun h => h.1
  held_apart := by
    have hpos : ∀ b ∈ held w.heap.mem w.live, 0 < b.2 := by
      intro b hb
      obtain ⟨l, hl, rfl⟩ := List.mem_map.mp hb
      have := G.room l hl
      dsimp only
      omega
    have happ : Apart 8 (total 8 (held w.heap.mem w.live)) := G.apart'.mono (Multiset.le_add_left _ _)
    exact happ.pairwise (by omega) hpos
  held_free b hb c hc := by
    obtain ⟨l, hl, rfl⟩ := List.mem_map.mp hb
    have hroom := G.room l hl
    have happ := (add_comm (total 8 bs) _) ▸ G.apart'
    refine (happ.mono (add_le_add (le_total_of_mem hb) (le_total_of_mem hc))).disjoint (by omega) ?_
      (G.list.size_pos c hc)
    dsimp only
    omega
  room l hl := by
    have := G.room l hl
    omega
  conserved := G.conserved
  once := G.apart.nodup

theorem Good.not_freeByte (G : Good base w bs) (hl : l ∈ w.live) (hx : l.1 - 8 ≤ x)
    (hx' : x < l.1 ∨ x < l.1 + l.2) : ¬FreeByte base bs x := by
  obtain ⟨y, hy, hyx⟩ := G.exists_unit hl hx hx'
  have hy' := mem_held_total hl hy
  intro hfree
  rcases freeByte_iff.mp hfree with hbase | ⟨z, hz, hzx⟩
  · exact G.byte_above (G.conserved ▸ Multiset.mem_add.mpr (.inr hy')) hyx.1 hbase
  · exact G.apart'.no_common hz hy' hzx hyx

theorem Good.write (G : Good base w bs) {mem : ℕ → UInt8} (hok : Allowed base w (.write mem)) :
    Good base { w with heap := { w.heap with mem := mem } } bs := by
  -- A byte of the allocator's memory that the program has not asked for stays as it is.
  have hkeep : ∀ {x y : ℕ}, y ∈ obtained w.chunks → y ≤ x ∧ x < y + 8 →
      (∀ l ∈ w.live, ¬(l.1 ≤ x ∧ x < l.1 + l.2)) → mem x = w.heap.mem x := by
    intro x y hy hyx hnot
    by_contra hne
    rcases (hok x hne).2 with ⟨l, hl, hx⟩ | hout
    · exact hnot l hl hx
    · obtain ⟨c, hc, hcy⟩ := mem_obtained hy
      have := hout c hc
      omega
  have hlist : FreeList mem base bs := by
    refine G.list.congr fun x hx => ?_
    rcases freeByte_iff.mp hx with hbase | ⟨y, hy, hyx⟩
    · by_contra hne
      exact (hok x hne).1 hbase
    · refine hkeep (G.conserved ▸ Multiset.mem_add.mpr (.inl hy)) hyx fun l hl hlx => ?_
      exact G.not_freeByte hl (by omega) (.inr hlx.2) hx
  obtain ⟨hsize, hheld⟩ := held_congr (m := w.heap.mem) fun l hl x hx hx' => by
    have hroom := G.room l hl
    obtain ⟨y, hy, hyx⟩ := G.exists_unit hl hx (.inl (by omega))
    refine hkeep (G.conserved ▸ Multiset.mem_add.mpr (.inr (mem_held_total hl hy))) hyx fun l' hl' hlx => ?_
    obtain ⟨A, B, hsplit⟩ := List.append_of_mem hl
    have hmem : l' ∈ A ++ B := by
      rw [hsplit] at hl'
      rcases List.mem_append.mp hl' with h | h
      · exact List.mem_append_left _ h
      · rcases List.mem_cons.mp h with rfl | h
        · omega
        · exact List.mem_append_right _ h
    obtain ⟨z, hz, hzx⟩ := G.exists_unit hl' (x := x) (by omega) (.inr hlx.2)
    have happ : Apart 8 (units 8 (l.1 - 8) (size w.heap.mem (l.1 - 8)) + total 8 (held w.heap.mem (A ++ B))) := by
      have happ := G.apart'
      rw [hsplit, total_held] at happ
      exact happ.mono (Multiset.le_add_left _ _)
    exact happ.no_common hy (mem_held_total hmem hz) hyx hzx
  exact ⟨hlist, G.freep, fun l hl => by rw [hsize l hl]; exact G.room l hl, by rw [hheld]; exact G.conserved,
    G.above, G.chunk⟩

theorem Good.held_bounds (G : Good base w bs) (hl : l ∈ w.live) :
    base + 8 ≤ l.1 - 8 ∧ l.1 - 8 + 8 * size w.heap.mem (l.1 - 8) < 2 ^ 32 := by
  have hroom := G.room l hl
  have hunit : ∀ j < size w.heap.mem (l.1 - 8), l.1 - 8 + 8 * j ∈ obtained w.chunks := fun j hj =>
    G.conserved ▸ Multiset.mem_add.mpr (.inr (mem_held_total hl (mem_units.mpr ⟨j, hj, rfl⟩)))
  obtain ⟨c, hc, hcl, -⟩ := mem_obtained (hunit 0 (by omega))
  obtain ⟨d, hd, -, hdl⟩ := mem_obtained (hunit (size w.heap.mem (l.1 - 8) - 1) (by omega))
  have := (G.chunk c hc).1
  have := (G.chunk d hd).2.1
  omega

theorem Good.free (G : Good base w bs) {ap : ℕ} (hok : Allowed base w (.free ap)) :
    ∃ w' bs', Step base w (.free ap) w' ∧ Good base w' bs' := by
  obtain ⟨nbytes, hmem⟩ := hok
  obtain ⟨l, A, B, -, hap, hsplit, herase⟩ := List.exists_of_eraseP (p := fun l => decide (l.1 = ap)) hmem
    (decide_eq_true rfl)
  have hap : l.1 = ap := of_decide_eq_true hap
  have hl : l ∈ w.live := by
    rw [hsplit]
    simp
  have hroom := G.room l hl
  obtain ⟨hlow, hbound⟩ := G.held_bounds hl
  have hdisj : ∀ b ∈ bs, b.1 + 8 * b.2 ≤ l.1 - 8 ∨ l.1 - 8 + 8 * size w.heap.mem (l.1 - 8) ≤ b.1 := fun b hb =>
    (G.sound.held_free _ (List.mem_map_of_mem (f := fun l => (l.1 - 8, size w.heap.mem (l.1 - 8))) hl) b hb).symm
  obtain ⟨h', bs', hfree, hlist, hfreep, htotal, -, hframe⟩ :=
    G.list.free rfl (by omega) hlow hbound hdisj G.freep
  have hstep : Step base w (.free ap) ⟨h', w.live.eraseP fun l => l.1 = ap, w.chunks⟩ := by
    refine .free ⟨bs.length + 1, fun n hn => ?_⟩
    have := hfree n hn
    rwa [Nat.sub_add_cancel hroom.1, hap] at this
  rw [herase] at hstep
  have hconserved := G.conserved
  have happ := G.apart'
  rw [hsplit, total_held] at hconserved happ
  have hrest : ∀ l' ∈ A ++ B, l' ∈ w.live := by
    intro l' hl'
    rw [hsplit]
    rcases List.mem_append.mp hl' with h | h <;> simp [h]
  -- The headers of the other blocks are neither free nor part of this one.
  obtain ⟨hsize, hheld⟩ := held_congr (m := w.heap.mem) fun l' hl' x hx hx' => by
    have hroom' := G.room l' (hrest l' hl')
    refine hframe x (G.not_freeByte (hrest l' hl') hx (.inl (by omega))) ?_
    obtain ⟨y, hy, hyx⟩ := G.exists_unit (hrest l' hl') hx (.inl (by omega))
    by_contra hin
    have hfirst : l.1 - 8 ∈ units 8 (l.1 - 8) (size w.heap.mem (l.1 - 8)) := mem_units.mpr ⟨0, by omega, rfl⟩
    exact (happ.mono (Multiset.le_add_left _ _)).no_common hfirst (mem_held_total hl' hy) (by omega) hyx
  refine ⟨_, bs', hstep, hlist, hfreep, fun l' hl' => ?_, ?_, G.above, G.chunk⟩
  · rw [hsize l' hl']
    exact G.room l' (hrest l' hl')
  · rw [hheld, htotal, add_assoc]
    exact hconserved

section

variable {nbytes z : ℕ} {h : Heap} {bs' : List (ℕ × ℕ)} {E : Multiset ℕ} {chunks : List (ℕ × ℕ)}

theorem Good.take (G : Good base w bs) (hT : Taken base (unitsFor nbytes) w.heap.mem (total 8 bs + E) z h bs')
    (hobtained : obtained chunks = obtained w.chunks + E) (hroom : nbytes + 8 ≤ 8 * unitsFor nbytes)
    (habove : chunks.Pairwise fun c d => c.1 + c.2 ≤ d.1)
    (hchunk : ∀ c ∈ chunks, base + 8 ≤ c.1 ∧ c.1 + c.2 < 2 ^ 32 ∧ 8 ∣ c.2) :
    Good base ⟨h, (z + 8, nbytes) :: w.live, chunks⟩ bs' := by
  have happ : Apart 8 (total 8 bs + E + total 8 (held w.heap.mem w.live)) := by
    have hchunks : Apart 8 (obtained chunks) := by
      refine apart_total (List.pairwise_map.mpr (habove.imp fun {c d} h => ?_)) (by omega)
      dsimp only
      omega
    rw [hobtained, ← G.conserved] at hchunks
    rwa [add_right_comm]
  obtain ⟨hsize, hheld⟩ := held_congr (m := w.heap.mem) fun l hl x hx hx' => by
    have hroom := G.room l hl
    obtain ⟨y, hy, hyx⟩ := G.exists_unit hl hx (.inl (by omega))
    have hy' := mem_held_total hl hy
    refine hT.frame x (G.byte_above (G.conserved ▸ Multiset.mem_add.mpr (.inr hy')) hyx.1) fun u hu hux => ?_
    exact happ.no_common hu hy' hux hyx
  refine ⟨hT.list, hT.freep, fun l hl => ?_, ?_, habove, hchunk⟩
  · rcases List.mem_cons.mp hl with rfl | hl
    · dsimp only
      rw [Nat.add_sub_cancel, hT.size_eq]
      exact ⟨Nat.le_add_left _ _, hroom⟩
    · rw [hsize l hl]
      exact G.room l hl
  · have hcons : held h.mem ((z + 8, nbytes) :: w.live) = (z, unitsFor nbytes) :: held w.heap.mem w.live := by
      rw [← hheld, held, List.map_cons, Nat.add_sub_cancel, hT.size_eq]
      rfl
    rw [hcons, total_cons, ← add_assoc, hT.conserved, hobtained, ← G.conserved]
    abel

theorem Good.malloc (G : Good base w bs) (hbase : 0 < base)
    (hok : Allowed base w (.malloc nbytes fresh)) :
    ∃ w' bs', Step base w (.malloc nbytes fresh) w' ∧ Good base w' bs' := by
  obtain ⟨hsmall, hfresh⟩ := hok
  have hunits : unitsFor nbytes = (nbytes + 7) / 8 + 1 := unitsFor_eq (by omega)
  have hroom : nbytes + 8 ≤ 8 * unitsFor nbytes := by omega
  by_cases hfit : ∃ b ∈ bs, unitsFor nbytes ≤ b.2
  · obtain ⟨z, h, bs', hT, hmalloc⟩ := G.list.malloc_fits G.freep hbase hfit
    refine ⟨_, bs', .malloc ⟨bs.length + 1, fun n hn => hmalloc hn⟩, ?_⟩
    rw [if_neg (by omega)]
    refine G.take (E := 0) (by rwa [add_zero]) (add_zero _).symm hroom G.above G.chunk
  · have hsmaller : ∀ b ∈ bs, b.2 < unitsFor nbytes := fun b hb => not_le.mp fun h => hfit ⟨b, hb, h⟩
    have hmod : atLeast (unitsFor nbytes) * 8 % 2 ^ 32 = atLeast (unitsFor nbytes) * 8 := by
      refine Nat.mod_eq_of_lt ?_
      unfold atLeast
      split <;> omega
    cases hsome : fresh w.chunks (atLeast (unitsFor nbytes) * 8) with
    | none =>
      have hsbrk : sbrk fresh w.chunks (atLeast (unitsFor nbytes) * 8 % 2 ^ 32) = (none, w.chunks) := by
        rw [hmod, sbrk, hsome]
      refine ⟨_, bs, .malloc ⟨bs.length + 1, fun n hn => G.list.malloc_fails G.freep hbase hsmaller hsbrk hn⟩, ?_⟩
      rw [if_pos rfl]
      exact G
    | some p =>
      obtain ⟨hlow, hover, hend⟩ := hfresh _ _ p hsome
      have hsbrk : sbrk fresh w.chunks (atLeast (unitsFor nbytes) * 8 % 2 ^ 32) =
          (some p, w.chunks ++ [(p, atLeast (unitsFor nbytes) * 8)]) := by
        rw [hmod, sbrk, hsome]
      have habove : ∀ b ∈ bs, b.1 + 8 * b.2 ≤ p := by
        intro b hb
        have hpos := G.list.size_pos b hb
        have hlast : b.1 + 8 * (b.2 - 1) ∈ units 8 b.1 b.2 := mem_units.mpr ⟨_, by omega, rfl⟩
        obtain ⟨c, hc, -, hcb⟩ :=
          mem_obtained (G.conserved ▸ Multiset.mem_add.mpr (.inl (mem_total.mpr ⟨b, hb, hlast⟩)))
        have := hover c hc
        omega
      obtain ⟨z, h, bs', N, hT, hmalloc⟩ := G.list.malloc_grows G.freep hbase hsmaller hlow habove (by omega)
      refine ⟨_, bs', .malloc ⟨N, fun n hn => hmalloc hsbrk hn⟩, ?_⟩
      rw [if_neg (by omega)]
      refine G.take hT obtained_append hroom ?_ fun c hc => ?_
      · refine List.pairwise_append.mpr ⟨G.above, List.pairwise_singleton _ _, fun c hc d hd => ?_⟩
        obtain rfl := List.mem_singleton.mp hd
        exact hover c hc
      · rcases List.mem_append.mp hc with hc | hc
        · exact G.chunk c hc
        · obtain rfl := List.mem_singleton.mp hc
          exact ⟨hlow, hend, Nat.dvd_mul_left 8 _⟩

end

end

section

variable {base : ℕ} {w w' : World} {c : Call}

/-- Before the first call of `malloc`. -/
def Unused (w : World) : Prop := w.heap.freep = 0 ∧ w.live = [] ∧ w.chunks = []

theorem Unused.ready (hw : Unused w) (hlt : base < 2 ^ 32) :
    Good base { w with heap := ready base w.heap } [] := by
  obtain ⟨hfreep, hlive, hchunks⟩ := hw
  obtain ⟨hlist, hnode⟩ := freeList_ready hfreep hlt
  rw [hlive, hchunks]
  exact ⟨hlist, hnode, nofun, rfl, .nil, nofun⟩

theorem Step.of_ready {nbytes : ℕ} (hbase : 0 < base)
    (h : Step base { w with heap := ready base w.heap } (.malloc nbytes fresh) w') :
    Step base w (.malloc nbytes fresh) w' := by
  cases h with
  | malloc h =>
    simp only [malloc_ready hbase] at h
    exact .malloc h

theorem exists_step (hbase : 0 < base) (hlt : base < 2 ^ 32) (hw : Unused w ∨ ∃ bs, Good base w bs)
    (hok : Allowed base w c) : ∃ w', Step base w c w' ∧ (Unused w' ∨ ∃ bs, Good base w' bs) := by
  rcases hw with hw | ⟨bs, G⟩
  · cases c with
    | malloc nbytes fresh =>
      obtain ⟨w', bs', hstep, G'⟩ := (hw.ready hlt).malloc hbase hok
      exact ⟨w', hstep.of_ready hbase, .inr ⟨bs', G'⟩⟩
    | free ap =>
      obtain ⟨nbytes, hmem⟩ := hok
      rw [hw.2.1] at hmem
      cases hmem
    | write mem => exact ⟨_, .write, .inl hw⟩
  · cases c with
    | malloc nbytes fresh =>
      obtain ⟨w', bs', hstep, G'⟩ := G.malloc hbase hok
      exact ⟨w', hstep, .inr ⟨bs', G'⟩⟩
    | free ap =>
      obtain ⟨w', bs', hstep, G'⟩ := G.free hok
      exact ⟨w', hstep, .inr ⟨bs', G'⟩⟩
    | write mem => exact ⟨_, .write, .inr ⟨bs, G.write hok⟩⟩

/-- **The allocator in every run.** Whatever the program calls, the heap is unused or sound, and the loops of
every call that it may make next come to an end. -/
theorem allocator_sound (hbase : 0 < base) (hlt : base < 2 ^ 32) (h : Reach (system base) (Allowed base) w) :
    (Unused w ∨ ∃ bs, Sound base w bs) ∧ ∀ c, Allowed base w c → ∃ w', Step base w c w' := by
  have hw : Unused w ∨ ∃ bs, Good base w bs := by
    refine h.invariant (P := fun w => Unused w ∨ ∃ bs, Good base w bs) (fun w hw => .inl hw)
      fun w c w' _ hw hok hstep => ?_
    obtain ⟨w'', hstep', hw''⟩ := exists_step hbase hlt hw hok
    exact Step.unique hstep' hstep ▸ hw''
  refine ⟨hw.imp_right fun ⟨bs, G⟩ => ⟨bs, G.sound⟩, fun c hok => ?_⟩
  obtain ⟨w', hstep, -⟩ := exists_step hbase hlt hw hok
  exact ⟨w', hstep⟩

/-- The first request, for 100 bytes, when `sbrk` returns the address 16384. -/
theorem allocator_sound_first : ∃ w, w.live ≠ [] ∧ Reach (system 4096) (Allowed 4096) w ∧
    (Unused w ∨ ∃ bs, Sound 4096 w bs) ∧ ∀ c, Allowed 4096 w c → ∃ w', Step 4096 w c w' := by
  let fresh : List (ℕ × ℕ) → ℕ → Option ℕ := fun chunks n => if chunks = [] ∧ n = 32768 then some 16384 else none
  let w : World := ⟨⟨fun _ => 0, 0⟩, [], []⟩
  have hfresh : Fresh 4096 fresh := by
    intro chunks n p hp
    dsimp only [fresh] at hp
    split at hp
    · next h =>
      obtain ⟨rfl, rfl⟩ := h
      cases hp
      exact ⟨by omega, nofun, by omega⟩
    · cases hp
  have hw : Unused w := ⟨rfl, rfl, rfl⟩
  have hbase : 4096 < 2 ^ 32 := by omega
  have G := hw.ready hbase
  have hask : atLeast (unitsFor 100) = 4096 := by decide
  obtain ⟨z, h, bs', N, -, hmalloc⟩ := 
    @FreeList.malloc_grows _ _ _ _ 100 16384 G.list G.freep (by omega) nofun (by omega) nofun
      (by omega)
  have hsbrk : sbrk fresh [] (atLeast (unitsFor 100) * 8 % 2 ^ 32) = (some 16384, [(16384, 32768)]) := by
    rw [hask]
    rfl
  have hstep : Step 4096 { w with heap := ready 4096 w.heap } (.malloc 100 fresh)
      ⟨h, if z + 8 = 0 then [] else [(z + 8, 100)], [(16384, 32768)]⟩ := .malloc ⟨N, fun n hn => hmalloc hsbrk hn⟩
  have hok : Allowed 4096 w (.malloc 100 fresh) := ⟨by omega, hfresh⟩
  have hreach : Reach (system 4096) (Allowed 4096) _ := .step (.init hw) hok (hstep.of_ready (by omega))
  refine ⟨_, ?_, hreach, allocator_sound (by omega) (by omega) hreach⟩
  rw [if_neg (by omega)]
  exact List.cons_ne_nil _ _

end

end KThreads.Malloc
