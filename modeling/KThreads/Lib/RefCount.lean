import KThreads.Lib.Shares

/-!
# Reference counts

Objects are referred to from the entries of tables and from lists of loose
references, one table and one list for each holder. A counter of an object is
right if it is the number of entries and loose references to it. The rules say
what one assignment to an entry, or to a list, does to these numbers; they are
stated as equations between sums, so that no subtraction occurs.
-/

namespace KThreads.RefCount

open Function (update)

variable {ι δ φ : Type*} [Fintype ι] [DecidableEq ι] [Fintype δ] [DecidableEq δ] [DecidableEq φ]

/-- One if an entry refers to an object. -/
def points (v : Option φ) (f : φ) : ℕ := if v = some f then 1 else 0

@[simp] theorem points_none (f : φ) : points none f = 0 := rfl

@[simp] theorem points_some (f : φ) : points (some f) f = 1 := if_pos rfl

/-- The entries that refer to an object. -/
def entries (table : ι → δ → Option φ) (f : φ) : ℕ := ∑ s, ∑ d, points (table s d) f

/-- The loose references to an object. -/
def loose (held : ι → List φ) (f : φ) : ℕ := ∑ s, (held s).count f

omit [DecidableEq ι] [DecidableEq δ] in
theorem entries_eq_card (table : ι → δ → Option φ) (f : φ) :
    entries table f = (Finset.univ.filter fun x : ι × δ => table x.1 x.2 = some f).card := by
  rw [Finset.card_filter, Fintype.sum_prod_type]
  rfl

theorem entries_update (table : ι → δ → Option φ) (s : ι) (d : δ) (v : Option φ) (f : φ) :
    entries (update table s (update (table s) d v)) f + points (table s d) f =
      entries table f + points v f := by
  have hrow := Shares.sum_change (x := d) (f := fun e => points (table s e) f)
    (g := fun e => points (update (table s) d v e) f) fun e he => by simp [he]
  have htable := Shares.sum_change (x := s) (f := fun r => ∑ e, points (table r e) f)
    (g := fun r => ∑ e, points (update table s (update (table s) d v) r e) f)
    fun r hr => by simp [hr]
  simp only [Function.update_self] at hrow htable
  unfold entries
  omega

theorem loose_update (held : ι → List φ) (s : ι) (l : List φ) (f : φ) :
    loose (update held s l) f + (held s).count f = loose held f + l.count f := by
  have h := Shares.sum_change (x := s) (f := fun r => (held r).count f)
    (g := fun r => (update held s l r).count f) fun r hr => by simp [hr]
  simpa only [loose, Function.update_self] using h

/-- The counters are right. -/
def Balanced (ref : φ → ℕ) (table : ι → δ → Option φ) (held : ι → List φ) : Prop :=
  ∀ f, ref f = entries table f + loose held f

namespace Balanced

variable {ref r : φ → ℕ} {table : ι → δ → Option φ} {held : ι → List φ}

omit [DecidableEq δ] in
theorem hold (h : Balanced ref table held) {t : ι} {l : List φ}
    (href : ∀ f, r f + (held t).count f = ref f + l.count f) :
    Balanced r table (update held t l) := by
  intro f
  have hbefore := h f
  have hloose := loose_update held t l f
  have hf := href f
  omega

theorem assign (h : Balanced ref table held) {s t : ι} {d : δ} {v : Option φ} {l : List φ}
    (href : ∀ f, r f + points (table s d) f + (held t).count f =
      ref f + points v f + l.count f) :
    Balanced r (update table s (update (table s) d v)) (update held t l) := by
  intro f
  have hbefore := h f
  have hentry := entries_update table s d v f
  have hloose := loose_update held t l f
  have hf := href f
  omega

theorem pos_of_entry (h : Balanced ref table held) {s : ι} {d : δ} {f : φ}
    (hf : table s d = some f) : 0 < ref f := by
  have hentry := entries_update table s d none f
  have hbefore := h f
  simp only [hf, points_some, points_none] at hentry
  omega

omit [DecidableEq δ] in
theorem pos_of_held (h : Balanced ref table held) {t : ι} {f : φ} (hf : f ∈ held t) :
    0 < ref f := by
  have hloose := loose_update held t [] f
  have hbefore := h f
  have hcount := List.count_pos_iff.mpr hf
  simp only [List.count_nil] at hloose
  omega

end Balanced

end KThreads.RefCount
