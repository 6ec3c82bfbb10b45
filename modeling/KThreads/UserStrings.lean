import KThreads.Access.Sections

/-!
# The kernel's copy of a user string

`copy_str_from_user` with the buffer it fills. Its loop stops at the NUL, at the
end of the buffer or at the end of user memory, and the code behind the loop
tells these apart by comparing `src` with the size of the process. The result is
the string exactly when that comparison is conclusive.
-/

namespace KThreads.Access

open Function (update update_of_ne update_self)

/-- The memory of a process: its bytes and its size, which `allocuvm` keeps below
`KERNBASE`. -/
structure UserMemory where
  bytes : Bytes
  sz : ℕ
  sz_lt : sz < KERNBASE

/-- The loop of `copy_str_from_user` for the `left` counts below `limit`: the
buffer, `i` and `src` at its end. -/
def copyStrBytes (mem : Bytes) (sz : ℕ) : ℕ → ℕ → ℕ → Bytes → Bytes × ℕ × ℕ
  | 0, i, src, dst => (dst, i, src)
  | left + 1, i, src, dst =>
      if src < sz then
        -- the assignment is the last conjunct of the condition: the NUL is stored
        -- and `src` is advanced past it, but `i` is not
        if mem src = 0 then (update dst i 0, i, src + 1)
        else copyStrBytes mem sz left (i + 1) (src + 1) (update dst i (mem src))
      else (dst, i, src)

/-- `copy_str_from_user(dst, src, limit)`: the buffer and the value returned. -/
def UserMemory.copy_str_from_user (u : UserMemory) (dst : Bytes) (src limit : ℕ) : Bytes × ℤ :=
  let r := copyStrBytes u.bytes u.sz limit 0 src dst
  (r.1, if r.2.2 = u.sz then -1 else toInt r.2.1)

/-- A buffer with the bytes from `src` on stored in its places `i` to `i + n`. -/
def filled (mem : Bytes) (src i n : ℕ) (dst : Bytes) : Bytes := fun a =>
  if i ≤ a ∧ a < i + n then mem (src + (a - i)) else dst a

theorem copyStrBytes_skip {mem : Bytes} {sz n left i src : ℕ} {dst : Bytes} (hn : n ≤ left)
    (hchars : ∀ j < n, src + j < sz ∧ mem (src + j) ≠ 0) :
    copyStrBytes mem sz left i src dst =
      copyStrBytes mem sz (left - n) (i + n) (src + n) (filled mem src i n dst) := by
  induction n generalizing left i src dst with
  | zero =>
    have hnone : filled mem src i 0 dst = dst := by
      funext a
      simp only [filled, if_neg (show ¬(i ≤ a ∧ a < i + 0) by omega)]
    rw [hnone]
    rfl
  | succ n ih =>
    obtain ⟨left, rfl⟩ : ∃ l, left = l + 1 := ⟨left - 1, by omega⟩
    obtain ⟨hsrc, hnul⟩ := hchars 0 (by omega)
    rw [Nat.add_zero] at hsrc hnul
    have hrest : ∀ j < n, src + 1 + j < sz ∧ mem (src + 1 + j) ≠ 0 := by
      intro j hj
      have h := hchars (j + 1) (by omega)
      rwa [show src + (j + 1) = src + 1 + j by omega] at h
    have hfilled : filled mem (src + 1) (i + 1) n (update dst i (mem src)) =
        filled mem src i (n + 1) dst := by
      funext a
      unfold filled
      by_cases hfirst : a = i
      · subst hfirst
        simp
      · by_cases hin : i + 1 ≤ a ∧ a < i + 1 + n
        · rw [if_pos hin, if_pos (by omega), show src + 1 + (a - (i + 1)) = src + (a - i) by omega]
        · rw [if_neg hin, if_neg (by omega), update_of_ne hfirst]
    rw [copyStrBytes, if_pos hsrc, if_neg hnul, ih (by omega) hrest, hfilled,
      show left + 1 - (n + 1) = left - n by omega, show i + (n + 1) = i + 1 + n by omega,
      show src + (n + 1) = src + 1 + n by omega]

/-- There is a NUL-terminated string of length `r` at `src`. -/
def StringAt (mem : Bytes) (src r : ℕ) : Prop :=
  mem (src + r) = 0 ∧ ∀ j < r, mem (src + j) ≠ 0

theorem exists_stringAt {mem : Bytes} {src k : ℕ} (hk : mem (src + k) = 0) :
    ∃ r ≤ k, StringAt mem src r := by
  classical
  have hex : ∃ r, mem (src + r) = 0 := ⟨k, hk⟩
  exact ⟨Nat.find hex, Nat.find_le hk, Nat.find_spec hex, fun j hj => Nat.find_min hex hj⟩

theorem StringAt.unique {mem : Bytes} {src r s : ℕ} (hr : StringAt mem src r)
    (hs : StringAt mem src s) : r = s := by
  rcases Nat.lt_trichotomy r s with h | h | h
  · exact absurd hr.1 (hs.2 r h)
  · exact h
  · exact absurd hs.1 (hr.2 s h)

namespace UserMemory

variable (u : UserMemory) (dst : Bytes) (src limit : ℕ)

/-- The string of length `r` at `src` lies in user memory with its NUL and fits
in `limit` bytes. -/
def Fits (r : ℕ) : Prop :=
  src < u.sz ∧ StringAt u.bytes src r ∧ src + r < u.sz ∧ r + 1 ≤ limit

/-- What the callers of `copy_str_from_user` rely on: a string that fits is copied
with its NUL and its length is returned, and everything else is refused. -/
def CopiesString : Prop :=
  (∀ r, u.Fits src limit r →
    (u.copy_str_from_user dst src limit).2 = r ∧ r < limit ∧
      ∀ j ≤ r, (u.copy_str_from_user dst src limit).1 j = u.bytes (src + j)) ∧
  ((¬∃ r, u.Fits src limit r) → (u.copy_str_from_user dst src limit).2 = -1)

variable {u src limit}

theorem toInt_of_lt {r : ℕ} (h : r < KERNBASE) : toInt r = r := by
  have hbase : KERNBASE = 2 ^ 31 := by decide
  exact if_pos (by omega)

theorem copy_str_of_fits {r : ℕ} (h : u.Fits src limit r) :
    (u.copy_str_from_user dst src limit).2 = (if src + r + 1 = u.sz then -1 else (r : ℤ)) ∧
      ∀ j ≤ r, (u.copy_str_from_user dst src limit).1 j = u.bytes (src + j) := by
  obtain ⟨hsrc, ⟨hnul, hchars⟩, hbelow, hroom⟩ := h
  obtain ⟨left, hleft⟩ : ∃ l, limit - r = l + 1 := ⟨limit - r - 1, by omega⟩
  have hloop : copyStrBytes u.bytes u.sz limit 0 src dst =
      (update (filled u.bytes src 0 r dst) r 0, r, src + r + 1) := by
    rw [copyStrBytes_skip (by omega : r ≤ limit) fun j hj => ⟨by omega, hchars j hj⟩, hleft,
      copyStrBytes, if_pos hbelow, if_pos hnul, Nat.zero_add]
  have hlt : r < KERNBASE := by have := u.sz_lt; omega
  refine ⟨?_, fun j hj => ?_⟩
  · simp only [copy_str_from_user, hloop, toInt_of_lt hlt]
  · simp only [copy_str_from_user, hloop]
    by_cases hlast : j = r
    · rw [hlast, update_self, hnul]
    · rw [update_of_ne hlast, filled, if_pos (by omega), Nat.sub_zero]

theorem copy_str_of_long (h : ∀ j < limit, src + j < u.sz ∧ u.bytes (src + j) ≠ 0) :
    (u.copy_str_from_user dst src limit).2 =
      (if src + limit = u.sz then -1 else toInt limit) := by
  have hloop : copyStrBytes u.bytes u.sz limit 0 src dst =
      (filled u.bytes src 0 limit dst, limit, src + limit) := by
    rw [copyStrBytes_skip le_rfl h, Nat.sub_self, copyStrBytes, Nat.zero_add]
  simp only [copy_str_from_user, hloop]

theorem copy_str_of_unterminated (hsrc : src ≤ u.sz) (hlimit : u.sz ≤ src + limit)
    (h : ∀ a, src ≤ a → a < u.sz → u.bytes a ≠ 0) :
    (u.copy_str_from_user dst src limit).2 = -1 := by
  have hchars : ∀ j < u.sz - src, src + j < u.sz ∧ u.bytes (src + j) ≠ 0 :=
    fun j hj => ⟨by omega, h (src + j) (by omega) (by omega)⟩
  have hstop : ∀ left i (dst : Bytes),
      copyStrBytes u.bytes u.sz left i u.sz dst = (dst, i, u.sz) := by
    intro left i dst
    cases left with
    | zero => rfl
    | succ left => rw [copyStrBytes, if_neg (lt_irrefl _)]
  have hloop : copyStrBytes u.bytes u.sz limit 0 src dst =
      (filled u.bytes src 0 (u.sz - src) dst, u.sz - src, u.sz) := by
    rw [copyStrBytes_skip (by omega) hchars, show src + (u.sz - src) = u.sz by omega, hstop,
      Nat.zero_add]
  simp only [copy_str_from_user, hloop, if_true]

theorem copy_str_of_beyond (hsrc : u.sz < src) :
    u.copy_str_from_user dst src limit = (dst, 0) := by
  have hloop : copyStrBytes u.bytes u.sz limit 0 src dst = (dst, 0, src) := by
    cases limit with
    | zero => rfl
    | succ limit => rw [copyStrBytes, if_neg (by omega)]
  simp only [copy_str_from_user, hloop, if_neg (show ¬src = u.sz by omega)]
  rfl

/-- `copy_str_from_user` does what its callers rely on exactly when `src` does not
lie above memory and one of the two ends is conclusive: there is a NUL among the
`limit` bytes from `src` that is not the last byte of memory, or memory ends
within `limit` bytes without a NUL. -/
theorem copy_str_from_user_iff (u : UserMemory) (dst : Bytes) (src limit : ℕ) :
    u.CopiesString dst src limit ↔
      src ≤ u.sz ∧
        ((∃ k < limit, src + k + 1 < u.sz ∧ u.bytes (src + k) = 0) ∨
          (u.sz ≤ src + limit ∧ ∀ a, src ≤ a → a < u.sz → u.bytes a ≠ 0)) := by
  constructor
  · intro h
    have hsrc : src ≤ u.sz := by
      by_contra hbeyond
      have hno : ¬∃ r, u.Fits src limit r := fun ⟨r, hr⟩ => hbeyond (le_of_lt hr.1)
      have hret := h.2 hno
      rw [copy_str_of_beyond dst (by omega)] at hret
      exact absurd hret (show (0 : ℤ) ≠ -1 by decide)
    refine ⟨hsrc, ?_⟩
    by_cases hfits : ∃ r, u.Fits src limit r
    · -- the length was returned, so the NUL is not the last byte
      obtain ⟨r, hr⟩ := hfits
      refine .inl ⟨r, by have := hr.2.2.2; omega, ?_, hr.2.1.1⟩
      by_contra hlast
      have hend : src + r + 1 = u.sz := by have := hr.2.2.1; omega
      have hret := (h.1 r hr).1
      rw [(copy_str_of_fits dst hr).1, if_pos hend] at hret
      omega
    · -- no string fits, so -1 was returned, and that only at the end of memory
      have hnonul : ∀ k < limit, src + k < u.sz → u.bytes (src + k) ≠ 0 := by
        intro k hk hbelow hnul
        obtain ⟨r, hrk, hr⟩ := exists_stringAt hnul
        exact hfits ⟨r, by omega, hr, by omega, by omega⟩
      have hend : u.sz ≤ src + limit := by
        by_contra hmore
        have hret := h.2 hfits
        rw [copy_str_of_long dst fun j hj => ⟨by omega, hnonul j hj (by omega)⟩,
          if_neg (by omega), toInt_of_lt (by have := u.sz_lt; omega)] at hret
        omega
      refine .inr ⟨hend, fun a ha hbelow => ?_⟩
      have := hnonul (a - src) (by omega) (by omega)
      rwa [show src + (a - src) = a by omega] at this
  · rintro ⟨hsrc, ⟨k, hk, hbelow, hnul⟩ | ⟨hend, hnonul⟩⟩
    · obtain ⟨r, hrk, hr⟩ := exists_stringAt hnul
      have hfits : u.Fits src limit r := ⟨by omega, hr, by omega, by omega⟩
      refine ⟨fun s hs => ?_, fun hno => absurd ⟨r, hfits⟩ hno⟩
      obtain rfl := hr.unique hs.2.1
      obtain ⟨hret, hbytes⟩ := copy_str_of_fits dst hfits
      rw [if_neg (by omega)] at hret
      exact ⟨hret, by omega, hbytes⟩
    · refine ⟨fun r hr => ?_, fun _ => copy_str_of_unterminated dst hsrc hend hnonul⟩
      exact absurd hr.2.1.1 (hnonul (src + r) (by omega) hr.2.2.1)

/-- Three failures: a string of four bytes for a buffer of two bytes counts as copied, a
string whose NUL is the last byte of memory is refused, and so is not an address
above memory. -/
theorem copy_str_from_user_confuses :
    let u : UserMemory := ⟨fun a => if a = 3 then 0 else 97, 4, by decide⟩
    let dst : Bytes := fun _ => 1
    (u.copy_str_from_user dst 0 2).2 = 2 ∧ (u.copy_str_from_user dst 0 2).1 2 ≠ 0 ∧
      u.Fits 0 4 3 ∧ (u.copy_str_from_user dst 0 4).2 = -1 ∧
      (u.copy_str_from_user dst 5 4).2 = 0 ∧
      ¬u.CopiesString dst 0 2 ∧ ¬u.CopiesString dst 0 4 ∧ ¬u.CopiesString dst 5 4 := by
  intro u dst
  have hfits : u.Fits 0 4 3 := ⟨by decide, ⟨by decide, by decide⟩, by decide, by decide⟩
  have hlong : ¬∃ r, u.Fits 0 2 r := by
    rintro ⟨r, -, ⟨hnul, -⟩, -, hr⟩
    have hcases : r = 0 ∨ r = 1 := by omega
    rcases hcases with rfl | rfl <;> exact absurd hnul (by decide)
  have hbeyond : ¬∃ r, u.Fits 5 4 r := fun ⟨r, hr⟩ => absurd hr.1 (by decide)
  have h₁ : (u.copy_str_from_user dst 0 2).2 = 2 := by decide
  have h₂ : (u.copy_str_from_user dst 0 4).2 = -1 := by decide
  have h₃ : (u.copy_str_from_user dst 5 4).2 = 0 := by decide
  refine ⟨h₁, by decide, hfits, h₂, h₃, fun h => ?_, fun h => ?_, fun h => ?_⟩
  · exact absurd (h₁.symm.trans (h.2 hlong)) (by decide)
  · exact absurd (h₂.symm.trans (h.1 3 hfits).1) (by decide)
  · exact absurd (h₃.symm.trans (h.2 hbeyond)) (by decide)

end UserMemory

end KThreads.Access
