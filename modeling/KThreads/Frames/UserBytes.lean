import KThreads.Frames.Copying

/-!
# The bytes at user addresses

What a read or a write at an address below `KERNBASE` finds through a directory. A write changes
a page that the directory maps and nothing else, so that directories with pages of their own do
not see each other's writes.
-/

namespace KThreads.Frames

open Function (update_of_ne update_self)
open Words Holdings Store

/-- The byte at the address `va`. -/
def peek (c : ℕ → ℕ → UInt8) (r va : ℕ) : Option UInt8 :=
  (mapping c r (va / PGSIZE)).map fun w => c (w / PGSIZE) (va % PGSIZE)

/-- A byte is written at the address `va`. -/
def poke (m : Memory) (r va : ℕ) (b : UInt8) : Memory :=
  match mapping m.page r (va / PGSIZE) with
  | none => m
  | some w => memmove m (w / PGSIZE) (va % PGSIZE) [b]

/-- Bytes are written at the addresses from `va` on. -/
def pokes (m : Memory) (r va : ℕ) : List UInt8 → Memory
  | [] => m
  | b :: bs => pokes (poke m r va b) r (va + 1) bs

/-- The page, and the byte in it, behind the address `va`. -/
def physical (c : ℕ → ℕ → UInt8) (r va : ℕ) : Option (ℕ × ℕ) :=
  (mapping c r (va / PGSIZE)).map fun w => (w / PGSIZE, va % PGSIZE)

/-- A write through one of several directories. -/
structure Write where
  dir : ℕ
  va : ℕ
  byte : UInt8

def writes (m : Memory) (ws : List Write) : Memory :=
  ws.foldl (fun m w => poke m w.dir w.va w.byte) m

variable {K : Link} {m m' m₁ m₂ : Memory} {x : Multiset ℕ} {r d q n p w va : ℕ} {b : UInt8}

theorem user_va (hva : va < KERNBASE) : va / PGSIZE < USERPAGES := by
  simp only [PGSIZE, KERNBASE, USERPAGES] at *
  omega

theorem peek_congr (h : ∀ p ∈ owned m.page r, m'.page p = m.page p) (hva : va < KERNBASE) :
    peek m'.page r va = peek m.page r va := by
  simp only [peek, mapping_of_owned h]
  cases hw : mapping m.page r (va / PGSIZE) with
  | none => rfl
  | some w => simp [h _ (mem_owned_of_mapping (user_va hva) hw)]

theorem page_poke (hp : ∀ w, mapping m.page r (va / PGSIZE) = some w → p ≠ w / PGSIZE) :
    (poke m r va b).page p = m.page p := by
  unfold poke
  split
  · rfl
  · next w hw => exact update_of_ne (hp w hw) _ _

section

variable (V : Valid K m {r} x) (hva : va < KERNBASE)

include V hva

theorem Valid.skeleton_poke (hq : q ∈ skeleton m.page r) : (poke m r va b).page q = m.page q := by
  refine page_poke fun w hw hqw => ?_
  have huser : q ∈ users m.page r :=
    mem_users.mpr ⟨_, frame_eq_some.mpr ⟨user_va hva, w, hw, hqw.symm⟩⟩
  exact V.not_mem_skeleton (Multiset.mem_add.mpr (.inl huser))
    (mem_stock_own (Multiset.mem_singleton_self r) hq)

theorem Valid.mapping_poke : mapping (poke m r va b).page r = mapping m.page r :=
  mapping_congr fun _ hq => V.skeleton_poke hva hq

theorem Valid.owned_poke : owned (poke m r va b).page r = owned m.page r := by
  rw [owned, owned, skeleton_local _ _ r fun _ hq => V.skeleton_poke hva hq, users, users,
    frame_of_mapping (V.mapping_poke hva)]

theorem Valid.keeps_poke : Keeps owned m {r} x (poke m r va b) {r} x := by
  have hfree : (poke m r va b).free = m.free := by
    unfold poke
    split <;> rfl
  constructor
  · simp only [stock, Multiset.singleton_bind, V.owned_poke hva, hfree]
  · intro q hq
    refine page_poke fun w hw hqw => hq ?_
    exact mem_stock_own (Multiset.mem_singleton_self r)
      (hqw ▸ mem_owned_of_mapping (user_va hva) hw)

theorem Valid.peek_poke_self (hmap : (mapping m.page r (va / PGSIZE)).isSome) :
    peek (poke m r va b).page r va = some b := by
  obtain ⟨w, hw⟩ := Option.isSome_iff_exists.mp hmap
  rw [peek, V.mapping_poke hva, hw]
  simp [poke, hw, memmove]

theorem Valid.peek_poke_of_ne {va' : ℕ} (hva' : va' < KERNBASE) (hne : va' ≠ va) :
    peek (poke m r va b).page r va' = peek m.page r va' := by
  simp only [peek, V.mapping_poke hva]
  cases hw' : mapping m.page r (va' / PGSIZE) with
  | none => rfl
  | some w' =>
    cases hw : mapping m.page r (va / PGSIZE) with
    | none => simp [poke, hw]
    | some w =>
      by_cases hpage : w' / PGSIZE = w / PGSIZE
      · -- the same page, and another byte of it
        have hn : va' / PGSIZE = va / PGSIZE := frame_inj V.users_nodup
          (frame_eq_some.mpr ⟨user_va hva', w', hw', hpage⟩)
          (frame_eq_some.mpr ⟨user_va hva, w, hw, rfl⟩)
        have hbyte : ¬(va % PGSIZE ≤ va' % PGSIZE ∧ va' % PGSIZE < va % PGSIZE + [b].length) := by
          simp only [PGSIZE, List.length_singleton] at *
          omega
        simp only [poke, hw, memmove, Option.map_some, hpage, update_self, if_neg hbyte]
      · simp [poke, hw, memmove, update_of_ne hpage]

end

theorem poke_byte {o : ℕ} (hne : physical m.page r va ≠ some (p, o)) :
    (poke m r va b).page p o = m.page p o := by
  unfold poke
  split
  · rfl
  · next w hw =>
    by_cases hp : p = w / PGSIZE
    · subst hp
      have ho : ¬(va % PGSIZE ≤ o ∧ o < va % PGSIZE + [b].length) := by
        intro ho
        rw [List.length_singleton] at ho
        refine hne ?_
        rw [physical, hw, show o = va % PGSIZE by omega]
        rfl
      simp only [memmove, update_self, if_neg ho]
    · simp [memmove, update_of_ne hp]

section

theorem pokes_append {a b : List UInt8} :
    pokes m r va (a ++ b) = pokes (pokes m r va a) r (va + a.length) b := by
  induction a generalizing m va with
  | nil => rfl
  | cons c a ih =>
    rw [List.cons_append, pokes, ih, pokes, List.length_cons, Nat.add_assoc, Nat.add_comm 1]

theorem pokes_free {buf : List UInt8} : (pokes m r va buf).free = m.free := by
  induction buf generalizing m va with
  | nil => rfl
  | cons b bs ih =>
    rw [pokes, ih]
    unfold poke
    split <;> rfl

variable {buf : List UInt8} (V : Valid K m {r} x) (hva : va + buf.length ≤ KERNBASE)

include V hva

theorem Valid.keeps_pokes : Keeps owned m {r} x (pokes m r va buf) {r} x := by
  induction buf generalizing m va with
  | nil => exact .refl
  | cons b bs ih =>
    rw [List.length_cons] at hva
    have hlt : va < KERNBASE := by omega
    have hkeep := V.keeps_poke (b := b) hlt
    exact hkeep.trans (ih (V.keeps hkeep) (by omega))

theorem Valid.skeleton_pokes (hq : q ∈ skeleton m.page r) :
    (pokes m r va buf).page q = m.page q := by
  induction buf generalizing m va with
  | nil => rfl
  | cons b bs ih =>
    rw [List.length_cons] at hva
    have hlt : va < KERNBASE := by omega
    have hskel := fun q (hq : q ∈ skeleton m.page r) => V.skeleton_poke (b := b) hlt hq
    have hq' : q ∈ skeleton (poke m r va b).page r := by rwa [skeleton_local _ _ r hskel]
    rw [pokes, ih (V.keeps (V.keeps_poke hlt)) (by omega) hq', hskel q hq]

theorem Valid.table_pokes : table (pokes m r va buf).page r = table m.page r :=
  table_congr (V.skeleton_pokes hva (mem_skeleton.mpr (.inl rfl)))

theorem Valid.mapping_pokes : mapping (pokes m r va buf).page r = mapping m.page r :=
  mapping_congr fun _ hq => V.skeleton_pokes hva hq

theorem Valid.peek_pokes_of_not {va' : ℕ} (hva' : va' < KERNBASE)
    (hnot : ∀ i < buf.length, va' ≠ va + i) :
    peek (pokes m r va buf).page r va' = peek m.page r va' := by
  induction buf generalizing m va with
  | nil => rfl
  | cons b bs ih =>
    rw [List.length_cons] at hva hnot
    have hlt : va < KERNBASE := by omega
    rw [pokes, ih (V.keeps (V.keeps_poke hlt)) (by omega) fun i hi => ?_,
      V.peek_poke_of_ne hlt hva' (hnot 0 (by omega))]
    have := hnot (i + 1) (by omega)
    omega

theorem Valid.peek_pokes (hmap : ∀ i < buf.length, (mapping m.page r ((va + i) / PGSIZE)).isSome)
    {i : ℕ} (hi : i < buf.length) : peek (pokes m r va buf).page r (va + i) = some buf[i] := by
  induction buf generalizing m va i with
  | nil => exact absurd hi (Nat.not_lt_zero i)
  | cons b bs ih =>
    rw [List.length_cons] at hva hmap hi
    have hlt : va < KERNBASE := by omega
    have V' := V.keeps (V.keeps_poke (b := b) hlt)
    rw [pokes]
    cases i with
    | zero =>
      rw [V'.peek_pokes_of_not (by omega) (by omega) fun i _ => by omega]
      exact V.peek_poke_self hlt (hmap 0 (by omega))
    | succ i =>
      have hrest : ∀ j < bs.length,
          (mapping (poke m r va b).page r ((va + 1 + j) / PGSIZE)).isSome := by
        intro j hj
        rw [V.mapping_poke hlt, Nat.add_assoc, Nat.add_comm 1]
        exact hmap (j + 1) (by omega)
      have h := ih V' (by omega) hrest (Nat.lt_of_succ_lt_succ hi)
      rw [Nat.add_assoc, Nat.add_comm 1] at h
      exact h

theorem Valid.pokes_byte {o : ℕ} (hnot : ∀ i < buf.length, physical m.page r (va + i) ≠ some (p, o)) :
    (pokes m r va buf).page p o = m.page p o := by
  induction buf generalizing m va with
  | nil => rfl
  | cons b bs ih =>
    rw [List.length_cons] at hva hnot
    have hlt : va < KERNBASE := by omega
    have hfirst : (poke m r va b).page p o = m.page p o := poke_byte (hnot 0 (by omega))
    rw [pokes, ih (V.keeps (V.keeps_poke hlt)) (by omega) fun i hi => ?_, hfirst]
    rw [physical, V.mapping_poke hlt, Nat.add_assoc, Nat.add_comm 1]
    exact hnot (i + 1) (by omega)

end

/-- What `q` owns is the same in both memories. -/
def Agree (q : ℕ) (m₁ m₂ : Memory) : Prop := ∀ p ∈ owned m₁.page q, m₂.page p = m₁.page p

theorem Agree.poke_same (V : Valid K m₁ {q} x) (h : Agree q m₁ m₂) (hva : va < KERNBASE) :
    Agree q (poke m₁ q va b) (poke m₂ q va b) := by
  have hmap := mapping_of_owned h
  intro p hp
  rw [V.owned_poke hva] at hp
  cases hw : mapping m₁.page q (va / PGSIZE) with
  | none =>
    simp only [poke, hmap, hw]
    exact h p hp
  | some w =>
    simp only [poke, hmap, hw, memmove]
    by_cases hpw : p = w / PGSIZE
    · subst hpw
      simp only [update_self, h _ hp]
    · rw [update_of_ne hpw, update_of_ne hpw, h p hp]

section

variable {R : Multiset ℕ}

theorem Valid.one (V : Valid K m R x) (hr : r ∈ R) : Valid K m {r} x := by
  obtain ⟨Q, rfl⟩ := Multiset.exists_cons_of_mem hr
  exact Valid.mono (by rwa [Multiset.singleton_add, add_zero])

theorem Valid.page_rest {Q R' : Multiset ℕ} (V : Valid K m (R + Q) x)
    (h : Keeps owned m R x m' R' x) (hq : q ∈ Q) :
    ∀ p ∈ owned m.page q, m'.page p = m.page p := by
  have hnd : (m.stock owned (R + Q) (x + 0)).Nodup := by
    rw [add_zero]
    exact V.nodup
  exact fun p hp => h.page_own hnd hq hp

theorem Valid.keeps_one (V : Valid K m R x) (hr : r ∈ R) (h : Keeps owned m {r} x m' {r} x) :
    Keeps owned m R x m' R x ∧
      ∀ q ∈ R, q ≠ r → ∀ p ∈ owned m.page q, m'.page p = m.page p := by
  obtain ⟨Q, rfl⟩ := Multiset.exists_cons_of_mem hr
  rw [← Multiset.singleton_add] at V
  have hnd : (m.stock owned ({r} + Q) (x + 0)).Nodup := by
    rw [add_zero]
    exact V.nodup
  constructor
  · simpa using h.add hnd owned_local
  · intro q hq hne
    exact V.page_rest h ((Multiset.mem_cons.mp hq).resolve_left hne)

theorem Valid.agree_writes (V : Valid K m₁ R x) (hq : q ∈ R) (h : Agree q m₁ m₂) {ws : List Write}
    (hws : ∀ w ∈ ws, w.dir ∈ R ∧ w.va < KERNBASE) :
    Agree q (writes m₁ ws) (writes m₂ (ws.filter fun w => w.dir = q)) := by
  induction ws generalizing m₁ m₂ with
  | nil => exact h
  | cons w ws ih =>
    obtain ⟨hdir, hva⟩ := hws w (by simp)
    have hrest : ∀ w ∈ ws, w.dir ∈ R ∧ w.va < KERNBASE := fun w hw => hws w (by simp [hw])
    obtain ⟨hkeep, hother⟩ := V.keeps_one hdir ((V.one hdir).keeps_poke (b := w.byte) hva)
    by_cases hwq : w.dir = q
    · have hagree : Agree q (poke m₁ w.dir w.va w.byte) (poke m₂ w.dir w.va w.byte) := by
        rw [hwq]
        exact h.poke_same (V.one hq) hva
      simpa [writes, hwq] using ih (V.keeps hkeep) hagree hrest
    · have hagree : Agree q (poke m₁ w.dir w.va w.byte) m₂ := by
        have hsame := hother q hq (Ne.symm hwq)
        intro p hp
        rw [owned_local _ _ q hsame] at hp
        rw [h p hp, hsame p hp]
      simpa [writes, hwq] using ih (V.keeps hkeep) hagree hrest

theorem Valid.peek_writes (V : Valid K m R x) (hq : q ∈ R) {ws : List Write}
    (hws : ∀ w ∈ ws, w.dir ∈ R ∧ w.va < KERNBASE) (hva : va < KERNBASE) :
    peek (writes m ws).page q va = peek (writes m (ws.filter fun w => w.dir = q)).page q va :=
  (peek_congr (V.agree_writes hq (fun _ _ => rfl) hws) hva).symm

end

end KThreads.Frames
