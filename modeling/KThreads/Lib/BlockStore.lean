import Mathlib

/-!
# A store of blocks behind a cache

A disk of blocks and the contents that are read from it. A block may be changed in
the cache only, or together with the disk; what is in the cache only does not survive
a crash.
-/

namespace KThreads

open Function (update)

variable {β δ : Type*} [DecidableEq β]

/-- The contents of a disk, and the contents that reads return. -/
structure BlockStore (β δ : Type*) where
  disk : β → δ
  mem : β → δ

namespace BlockStore

variable (s : BlockStore β δ) (b : β) (d : δ)

/-- Change a block in the cache. -/
def modify : BlockStore β δ := { s with mem := update s.mem b d }

/-- Write a block through to the disk. -/
def write : BlockStore β δ := ⟨update s.disk b d, update s.mem b d⟩

/-- Lose the cache. -/
def crash : BlockStore β δ := ⟨s.disk, s.disk⟩

variable {s b d} {b' : β}

@[simp] theorem modify_disk : (s.modify b d).disk = s.disk := rfl

@[simp] theorem modify_mem : (s.modify b d).mem = update s.mem b d := rfl

@[simp] theorem write_disk : (s.write b d).disk = update s.disk b d := rfl

@[simp] theorem write_mem : (s.write b d).mem = update s.mem b d := rfl

omit [DecidableEq β] in
@[simp] theorem crash_disk : s.crash.disk = s.disk := rfl

omit [DecidableEq β] in
@[simp] theorem crash_mem : s.crash.mem = s.disk := rfl

end BlockStore

/-- The contents of the blocks after a list of writes. -/
def applyWrites (h : β → δ) (ws : List (β × δ)) : β → δ :=
  ws.foldl (fun h w => update h w.1 w.2) h

variable {h : β → δ} {ws : List (β × δ)} {b : β} {d : δ}

@[simp] theorem applyWrites_nil : applyWrites h [] = h := rfl

theorem applyWrites_append (ws' : List (β × δ)) :
    applyWrites h (ws ++ ws') = applyWrites (applyWrites h ws) ws' :=
  List.foldl_append

theorem applyWrites_concat : applyWrites h (ws ++ [(b, d)]) = update (applyWrites h ws) b d :=
  applyWrites_append _

theorem applyWrites_of_notMem (hb : ∀ d, (b, d) ∉ ws) : applyWrites h ws b = h b := by
  induction ws generalizing h with
  | nil => rfl
  | cons w ws ih =>
    have hne : b ≠ w.1 := by
      rintro rfl
      exact hb w.2 List.mem_cons_self
    have hrest := ih (h := update h w.1 w.2) fun d hd => hb d (List.mem_cons_of_mem _ hd)
    exact hrest.trans (Function.update_of_ne hne _ _)

end KThreads
