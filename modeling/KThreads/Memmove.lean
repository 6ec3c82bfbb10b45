import KThreads.Access.Sections

/-!
# The two `memmove`s

The kernel's `memmove` copies from the end when the destination begins inside the source; the one
of the user library always copies from the beginning. A copy from the beginning to a higher
address reads the bytes that it has written before: it repeats the bytes between the two
addresses. So the user library moves the bytes exactly when the source repeats itself at this
distance. Its length is an `int`: from `2 ^ 31` on it is negative, and nothing is copied.
-/

namespace KThreads.Memmove

open Function (update update_of_ne update_self)
open Access (Bytes toInt)

/-- `while(n-- > 0) *d++ = *s++;` -/
def forward (m : Bytes) (d s : ℕ) : ℕ → Bytes
  | 0 => m
  | n + 1 => forward (update m d (m s)) ((d + 1) % 2 ^ 32) ((s + 1) % 2 ^ 32) n

/-- `p - 1` for a pointer to a byte. -/
def before (p : ℕ) : ℕ := (p + 2 ^ 32 - 1) % 2 ^ 32

/-- `while(n-- > 0) *--d = *--s;` -/
def backward (m : Bytes) (d s : ℕ) : ℕ → Bytes
  | 0 => m
  | n + 1 => backward (update m (before d) (m (before s))) (before d) (before s) n

/-- `memmove` of string.c: the memory behind it and the pointer that is returned. -/
def memmove (m : Bytes) (dst src n : ℕ) : Bytes × ℕ :=
  if src < dst ∧ (src + n) % 2 ^ 32 > dst then
    (backward m ((dst + n) % 2 ^ 32) ((src + n) % 2 ^ 32) n, dst)
  else (forward m dst src n, dst)

/-- `memmove` of ulib.c, which takes the length as an `int`. -/
def userMemmove (m : Bytes) (vdst vsrc : ℕ) (n : ℤ) : Bytes × ℕ :=
  (forward m vdst vsrc n.toNat, vdst)

/-- The bytes have been moved, and the rest of the memory is as before. -/
structure Moved (m : Bytes) (dst src n : ℕ) (m' : Bytes) : Prop where
  bytes : ∀ i < n, m' (dst + i) = m (src + i)
  rest : ∀ x, x < dst ∨ dst + n ≤ x → m' x = m x

variable {m m' m'' : Bytes} {d s dst src n x i : ℕ}

theorem Moved.unique (h : Moved m dst src n m') (h' : Moved m dst src n m'') : m' = m'' := by
  funext x
  by_cases hx : x < dst ∨ dst + n ≤ x
  · rw [h.rest x hx, h'.rest x hx]
  · obtain ⟨i, rfl⟩ := Nat.exists_eq_add_of_le (show dst ≤ x by omega)
    rw [h.bytes i (by omega), h'.bytes i (by omega)]

theorem forward_succ (hd : d + (n + 1) ≤ 2 ^ 32) (hs : s + (n + 1) ≤ 2 ^ 32) :
    forward m d s (n + 1) = forward (update m d (m s)) (d + 1) (s + 1) n := by
  -- a pointer that has become zero is not used any more
  cases n with
  | zero => rfl
  | succ n => rw [forward, Nat.mod_eq_of_lt (by omega), Nat.mod_eq_of_lt (by omega)]

theorem forward_rest (hd : d + n ≤ 2 ^ 32) (hs : s + n ≤ 2 ^ 32) (hx : x < d ∨ d + n ≤ x) :
    forward m d s n x = m x := by
  induction n generalizing m d s with
  | zero => rfl
  | succ n ih =>
    rw [forward_succ hd hs, ih (by omega) (by omega) (by omega)]
    exact update_of_ne (by omega) _ _

/-- To a lower address, a byte is read before it is written. -/
theorem forward_low (hd : d + n ≤ 2 ^ 32) (hs : s + n ≤ 2 ^ 32) (hle : d ≤ s) (hi : i < n) :
    forward m d s n (d + i) = m (s + i) := by
  induction n generalizing m d s i with
  | zero => exact absurd hi (Nat.not_lt_zero i)
  | succ n ih =>
    rw [forward_succ hd hs]
    cases i with
    | zero =>
      rw [forward_rest (by omega) (by omega) (by omega)]
      exact update_self ..
    | succ i =>
      have hnext := ih (m := update m d (m s)) (d := d + 1) (s := s + 1) (i := i)
        (by omega) (by omega) (by omega) (by omega)
      rw [← Nat.add_assoc, Nat.add_right_comm, hnext, update_of_ne (by omega),
        Nat.add_right_comm, Nat.add_assoc]

/-- To a higher address, the bytes between the addresses are repeated. -/
theorem forward_high (hd : d + n ≤ 2 ^ 32) (hlt : s < d) (hi : i < n) :
    forward m d s n (d + i) = m (s + i % (d - s)) := by
  induction n generalizing m d s i with
  | zero => exact absurd hi (Nat.not_lt_zero i)
  | succ n ih =>
    rw [forward_succ hd (by omega)]
    cases i with
    | zero =>
      rw [forward_rest (by omega) (by omega) (by omega), Nat.zero_mod]
      exact update_self ..
    | succ i =>
      have hnext := ih (m := update m d (m s)) (d := d + 1) (s := s + 1) (i := i)
        (by omega) (by omega) (by omega)
      rw [← Nat.add_assoc, Nat.add_right_comm, hnext, Nat.add_sub_add_right]
      have hmod : i % (d - s) < d - s := Nat.mod_lt i (by omega)
      have hstep : (i + 1) % (d - s) = (i % (d - s) + 1) % (d - s) := (Nat.mod_add_mod i (d - s) 1).symm
      by_cases hlast : i % (d - s) + 1 = d - s
      · -- the byte before `d`, behind which the repetition begins again
        rw [hstep, hlast, Nat.mod_self, show s + 1 + i % (d - s) = d by omega]
        exact update_self ..
      · have hsucc : (i + 1) % (d - s) = i % (d - s) + 1 := hstep.trans (Nat.mod_eq_of_lt (by omega))
        rw [hsucc, update_of_ne (by omega), Nat.add_assoc, Nat.add_comm 1]

theorem before_mod (hp : d + (n + 1) ≤ 2 ^ 32) : before ((d + (n + 1)) % 2 ^ 32) = d + n := by
  unfold before
  omega

theorem backward_succ (hd : d + (n + 1) ≤ 2 ^ 32) (hs : s + (n + 1) ≤ 2 ^ 32) :
    backward m ((d + (n + 1)) % 2 ^ 32) ((s + (n + 1)) % 2 ^ 32) (n + 1) =
      backward (update m (d + n) (m (s + n))) ((d + n) % 2 ^ 32) ((s + n) % 2 ^ 32) n := by
  rw [backward, before_mod hd, before_mod hs, Nat.mod_eq_of_lt (a := d + n) (by omega),
    Nat.mod_eq_of_lt (a := s + n) (by omega)]

/-- To a higher address and from the end, a byte is read before it is written. -/
theorem backward_high (hd : d + n ≤ 2 ^ 32) (hlt : s < d) :
    Moved m d s n (backward m ((d + n) % 2 ^ 32) ((s + n) % 2 ^ 32) n) := by
  induction n generalizing m with
  | zero => exact ⟨fun i hi => absurd hi (Nat.not_lt_zero i), fun x _ => rfl⟩
  | succ n ih =>
    rw [backward_succ hd (by omega)]
    have hnext := ih (m := update m (d + n) (m (s + n))) (by omega)
    constructor
    · intro i hi
      by_cases hlast : i = n
      · subst hlast
        rw [hnext.rest (d + i) (by omega)]
        exact update_self ..
      · rw [hnext.bytes i (by omega)]
        exact update_of_ne (by omega) _ _
    · intro x hx
      rw [hnext.rest x (by omega)]
      exact update_of_ne (by omega) _ _

section

/-- The condition under which the user library moves the bytes. -/
structure Harmless (m : Bytes) (dst src n : ℕ) : Prop where
  /-- A destination behind the beginning of the source: the source repeats itself at their distance. -/
  overlap : n < 2 ^ 31 → src < dst →
    ∀ i, i + (dst - src) < n → m (src + (i + (dst - src))) = m (src + i)
  /-- A length that is negative as an `int`: there is nothing to be changed. -/
  negative : 2 ^ 31 ≤ n → ∀ i < n, m (dst + i) = m (src + i)

theorem toNat_toInt (hn : n < 2 ^ 31) : (toInt n).toNat = n := by
  rw [toInt, if_pos hn, Int.toNat_natCast]

theorem toNat_toInt_negative (hn : 2 ^ 31 ≤ n) (hlt : n < 2 ^ 32) : (toInt n).toNat = 0 := by
  rw [toInt, if_neg (by omega)]
  exact Int.toNat_of_nonpos (by omega)

/-- A sequence that repeats itself is determined by its first period. -/
theorem eq_mod_of_repeats {α : Type*} {f : ℕ → α} {e : ℕ} (h : ∀ i, i + e < n → f (i + e) = f i)
    (hi : i < n) : f (i % e) = f i := by
  induction i using Nat.strong_induction_on with
  | _ i ih =>
    by_cases hsmall : i < e
    · rw [Nat.mod_eq_of_lt hsmall]
    by_cases he : e = 0
    · rw [he, Nat.mod_zero]
    have hback : i - e + e = i := Nat.sub_add_cancel (by omega)
    calc f (i % e) = f ((i - e) % e) := by rw [Nat.mod_eq_sub_mod (by omega)]
      _ = f (i - e) := ih (i - e) (by omega) (by omega)
      _ = f (i - e + e) := (h (i - e) (by omega)).symm
      _ = f i := by rw [hback]

variable (hdst : dst + n ≤ 2 ^ 32) (hsrc : src + n ≤ 2 ^ 32)

include hdst hsrc

/-- The kernel's `memmove` moves the bytes. -/
theorem moved_memmove : Moved m dst src n (memmove m dst src n).1 := by
  unfold memmove
  split
  · next hover => exact backward_high hdst hover.1
  · next hover =>
    refine ⟨fun i hi => ?_, fun x hx => forward_rest hdst hsrc hx⟩
    change forward m dst src n (dst + i) = m (src + i)
    by_cases hle : dst ≤ src
    · exact forward_low hdst hsrc hle hi
    · -- the destination begins behind the end of the source
      have hfar : n ≤ dst - src := by omega
      rw [forward_high hdst (by omega) hi, Nat.mod_eq_of_lt (by omega)]

theorem moved_forward_iff :
    Moved m dst src n (forward m dst src n) ↔
      (src < dst → ∀ i, i + (dst - src) < n → m (src + (i + (dst - src))) = m (src + i)) := by
  constructor
  · intro h hlt i hi
    have hfirst := h.bytes i (by omega)
    have hsecond := h.bytes (i + (dst - src)) hi
    rw [forward_high hdst hlt (by omega)] at hfirst
    rw [forward_high hdst hlt hi, Nat.add_mod_right] at hsecond
    exact hsecond.symm.trans hfirst
  · intro hrepeats
    refine ⟨fun i hi => ?_, fun x hx => forward_rest hdst hsrc hx⟩
    by_cases hle : dst ≤ src
    · exact forward_low hdst hsrc hle hi
    · have hlt : src < dst := not_le.mp hle
      rw [forward_high hdst hlt hi]
      exact eq_mod_of_repeats (f := fun j => m (src + j)) (hrepeats hlt) hi

theorem moved_userMemmove_iff (hn : n < 2 ^ 32) :
    Moved m dst src n (userMemmove m dst src (toInt n)).1 ↔ Harmless m dst src n := by
  unfold userMemmove
  by_cases hsmall : n < 2 ^ 31
  · rw [toNat_toInt hsmall]
    refine (moved_forward_iff hdst hsrc).trans ⟨fun h => ?_, fun h => h.overlap hsmall⟩
    exact ⟨fun _ => h, fun hlarge => absurd hsmall (not_lt.mpr hlarge)⟩
  · rw [toNat_toInt_negative (not_lt.mp hsmall) hn]
    constructor
    · intro h
      exact ⟨fun hlt => absurd hlt hsmall, fun _ i hi => h.bytes i hi⟩
    · intro h
      exact ⟨h.negative (not_lt.mp hsmall), fun x _ => rfl⟩

/-- Both functions move the bytes, and so agree, exactly when the user library's copy from the
beginning is harmless. -/
theorem memmoves_agree_iff (hn : n < 2 ^ 32) :
    (Moved m dst src n (memmove m dst src n).1 ∧
      Moved m dst src n (userMemmove m dst src (toInt n)).1 ∧
      memmove m dst src n = userMemmove m dst src (toInt n)) ↔ Harmless m dst src n := by
  rw [← moved_userMemmove_iff hdst hsrc hn]
  constructor
  · rintro ⟨-, huser, -⟩
    exact huser
  · intro huser
    have hkernel : Moved m dst src n (memmove m dst src n).1 := moved_memmove hdst hsrc
    refine ⟨hkernel, huser, Prod.ext (hkernel.unique huser) ?_⟩
    unfold memmove
    split <;> rfl

end

/-- Three bytes to the address before them. -/
theorem memmoves_agree_low :
    Moved (fun x => .ofNat x) 4096 4097 3 (userMemmove (fun x => .ofNat x) 4096 4097 (toInt 3)).1 := by
  have hsafe : Harmless (fun x => .ofNat x) 4096 4097 3 :=
    ⟨fun _ hlt => absurd hlt (by decide), fun hlarge => absurd hlarge (by decide)⟩
  exact ((memmoves_agree_iff (by decide) (by decide) (by decide)).mpr hsafe).2.1

/-- Two bytes to the address behind the first: the kernel moves them, the user library writes the
first one twice. -/
theorem userMemmove_repeats :
    Moved (fun x => .ofNat x) 4097 4096 2 (memmove (fun x => .ofNat x) 4097 4096 2).1 ∧
    ¬Moved (fun x => .ofNat x) 4097 4096 2 (userMemmove (fun x => .ofNat x) 4097 4096 (toInt 2)).1 ∧
    memmove (fun x => .ofNat x) 4097 4096 2 ≠ userMemmove (fun x => .ofNat x) 4097 4096 (toInt 2) := by
  have hkernel : Moved (fun x => .ofNat x) 4097 4096 2 (memmove (fun x => .ofNat x) 4097 4096 2).1 :=
    moved_memmove (by decide) (by decide)
  have huser : ¬Moved (fun x => .ofNat x) 4097 4096 2
      (userMemmove (fun x => .ofNat x) 4097 4096 (toInt 2)).1 := by
    intro h
    exact absurd (h.bytes 1 (by decide)) (by decide)
  refine ⟨hkernel, huser, fun heq => huser ?_⟩
  rw [← heq]
  exact hkernel

end KThreads.Memmove
