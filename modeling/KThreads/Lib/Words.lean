import Mathlib

/-!
# Words in a sequence of bytes

The little-endian 32-bit words of a sequence of bytes, and the store of one of them: the words
by their number, and the words at any byte.
-/

namespace KThreads.Words

variable {b c : ℕ → UInt8} {i j w : ℕ}

/-- The word with the number `i`. -/
def word (b : ℕ → UInt8) (i : ℕ) : ℕ :=
  (b (4 * i)).toNat + 256 * (b (4 * i + 1)).toNat + 65536 * (b (4 * i + 2)).toNat +
    16777216 * (b (4 * i + 3)).toNat

/-- Store the word with the number `i`. -/
def setWord (b : ℕ → UInt8) (i w : ℕ) : ℕ → UInt8 := fun x =>
  if x / 4 = i then .ofNat (w / 256 ^ (x % 4)) else b x

theorem word_lt : word b i < 2 ^ 32 := by
  have h₀ := (b (4 * i)).toNat_lt
  have h₁ := (b (4 * i + 1)).toNat_lt
  have h₂ := (b (4 * i + 2)).toNat_lt
  have h₃ := (b (4 * i + 3)).toNat_lt
  unfold word
  omega

theorem word_congr (h : ∀ x, x / 4 = i → b x = c x) : word b i = word c i := by
  unfold word
  rw [h (4 * i) (by omega), h (4 * i + 1) (by omega), h (4 * i + 2) (by omega),
    h (4 * i + 3) (by omega)]

theorem word_zero : word (fun _ => 0) i = 0 := rfl

@[simp]
theorem word_setWord (hw : w < 2 ^ 32) : word (setWord b i w) i = w := by
  have h₀ : setWord b i w (4 * i) = .ofNat (w / 256 ^ 0) := by
    rw [setWord, if_pos (by omega), show 4 * i % 4 = 0 by omega]
  have h₁ : setWord b i w (4 * i + 1) = .ofNat (w / 256 ^ 1) := by
    rw [setWord, if_pos (by omega), show (4 * i + 1) % 4 = 1 by omega]
  have h₂ : setWord b i w (4 * i + 2) = .ofNat (w / 256 ^ 2) := by
    rw [setWord, if_pos (by omega), show (4 * i + 2) % 4 = 2 by omega]
  have h₃ : setWord b i w (4 * i + 3) = .ofNat (w / 256 ^ 3) := by
    rw [setWord, if_pos (by omega), show (4 * i + 3) % 4 = 3 by omega]
  simp only [word, h₀, h₁, h₂, h₃, UInt8.toNat_ofNat']
  omega

@[simp]
theorem word_setWord_of_ne (hne : j ≠ i) : word (setWord b i w) j = word b j :=
  word_congr fun _ hx => if_neg (hx ▸ hne)

section

variable {a d : ℕ}

/-- The word at the byte `a`. -/
def wordAt (b : ℕ → UInt8) (a : ℕ) : ℕ := word (fun x => b (a + x)) 0

/-- Store the word at the byte `a`. -/
def setWordAt (b : ℕ → UInt8) (a w : ℕ) : ℕ → UInt8 := fun x =>
  if a ≤ x ∧ x < a + 4 then .ofNat (w / 256 ^ (x - a)) else b x

theorem wordAt_lt : wordAt b a < 2 ^ 32 := word_lt

theorem wordAt_congr (h : ∀ x, a ≤ x → x < a + 4 → b x = c x) : wordAt b a = wordAt c a :=
  word_congr fun x hx => h (a + x) (by omega) (by omega)

theorem setWordAt_of_not_mem {x : ℕ} (hx : x < a ∨ a + 4 ≤ x) : setWordAt b a w x = b x := by
  rw [setWordAt, if_neg]
  omega

theorem wordAt_setWordAt (hw : w < 2 ^ 32) : wordAt (setWordAt b a w) a = w := by
  have hsame : wordAt (setWordAt b a w) a = word (setWord (fun x => b (a + x)) 0 w) 0 := by
    refine word_congr fun x hx => ?_
    rw [setWordAt, if_pos (by omega), setWord, if_pos hx, Nat.add_sub_cancel_left,
      Nat.mod_eq_of_lt (by omega)]
  rw [hsame, word_setWord hw]

theorem wordAt_setWordAt_of_disjoint (h : d + 4 ≤ a ∨ a + 4 ≤ d) :
    wordAt (setWordAt b a w) d = wordAt b d :=
  wordAt_congr fun x _ _ => setWordAt_of_not_mem (by omega)

end

end KThreads.Words
