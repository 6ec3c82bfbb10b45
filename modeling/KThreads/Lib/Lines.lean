import Mathlib

/-!
# Lines

A text over any alphabet falls in exactly one way into pieces that end with a separator and a
last piece without one.
-/

namespace KThreads.Lines

variable {α : Type*} {sep : α} {l r s : List α} {ls : List (List α)}

/-- The lines, each with the separator behind it. -/
def joined (sep : α) (ls : List (List α)) : List α := ls.flatMap (· ++ [sep])

@[simp] theorem joined_nil : joined sep [] = [] := rfl

@[simp] theorem joined_cons : joined sep (l :: ls) = l ++ sep :: joined sep ls := by
  simp [joined]

variable [DecidableEq α]

/-- Put a symbol before the first line. -/
def glue (c : α) : List (List α) × List α → List (List α) × List α
  | ([], r) => ([], c :: r)
  | (l :: ls, r) => ((c :: l) :: ls, r)

/-- The lines of a text that a separator ends, and what follows the last separator. -/
def split (sep : α) : List α → List (List α) × List α
  | [] => ([], [])
  | c :: s => if c = sep then ([] :: (split sep s).1, (split sep s).2) else glue c (split sep s)

theorem split_line (hl : sep ∉ l) :
    split sep (l ++ sep :: s) = (l :: (split sep s).1, (split sep s).2) := by
  induction l with
  | nil => rw [List.nil_append, split, if_pos rfl]
  | cons c l ih =>
    rw [List.mem_cons, not_or] at hl
    rw [List.cons_append, split, if_neg (Ne.symm hl.1), ih hl.2, glue]

theorem split_rest (hr : sep ∉ r) : split sep r = ([], r) := by
  induction r with
  | nil => rfl
  | cons c r ih =>
    rw [List.mem_cons, not_or] at hr
    rw [split, if_neg (Ne.symm hr.1), ih hr.2, glue]

theorem split_joined (hls : ∀ l ∈ ls, sep ∉ l) :
    split sep (joined sep ls ++ s) = (ls ++ (split sep s).1, (split sep s).2) := by
  induction ls with
  | nil => rfl
  | cons l ls ih =>
    rw [joined_cons, List.append_assoc, List.cons_append, split_line (hls l List.mem_cons_self),
      ih fun l' hl' => hls l' (List.mem_cons_of_mem l hl'), List.cons_append]

theorem split_spec (sep : α) (s : List α) :
    joined sep (split sep s).1 ++ (split sep s).2 = s ∧
      (∀ l ∈ (split sep s).1, sep ∉ l) ∧ sep ∉ (split sep s).2 := by
  induction s with
  | nil => simp [split]
  | cons c s ih =>
    obtain ⟨hjoin, hlines, hrest⟩ := ih
    by_cases hc : c = sep
    · subst hc
      rw [split, if_pos rfl]
      refine ⟨?_, ?_, hrest⟩
      · rw [joined_cons, List.nil_append, List.cons_append, hjoin]
      · intro l hl
        rcases List.mem_cons.mp hl with rfl | hl
        · exact List.not_mem_nil
        · exact hlines l hl
    · rw [split, if_neg hc]
      generalize split sep s = x at hjoin hlines hrest
      obtain ⟨ls, r⟩ := x
      cases ls with
      | nil =>
        have hjoin' : r = s := hjoin
        refine ⟨congrArg (c :: ·) hjoin', fun l hl => absurd hl List.not_mem_nil, ?_⟩
        simp only [glue, List.mem_cons, not_or]
        exact ⟨Ne.symm hc, hrest⟩
      | cons l ls =>
        refine ⟨?_, ?_, hrest⟩
        · simpa [glue] using hjoin
        · intro l' hl'
          rcases List.mem_cons.mp hl' with rfl | hl'
          · rw [List.mem_cons, not_or]
            exact ⟨Ne.symm hc, hlines l List.mem_cons_self⟩
          · exact hlines l' (List.mem_cons_of_mem l hl')

end KThreads.Lines
