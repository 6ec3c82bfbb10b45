import Mathlib

/-!
# Rings of linked nodes

Nodes that are linked in both directions to a ring, with one node that is its head. The
nodes of a ring are a list, on which taking a node out, inserting one behind the head and
a scan in either direction are the operations on lists.
-/

namespace KThreads

open Function (update update_of_ne update_self)

/-- The pointers of the nodes. -/
structure Links (α : Type*) where
  next : α → α
  prev : α → α

namespace Links

variable {α : Type*}

/-- The nodes `xs` lie between two nodes. -/
def Path (l : Links α) : α → List α → α → Prop
  | a, [], b => l.next a = b ∧ l.prev b = a
  | a, x :: xs, b => (l.next a = x ∧ l.prev x = a) ∧ l.Path x xs b

/-- The ring of the head `h` consists of the nodes `xs`. -/
structure Ring (l : Links α) (h : α) (xs : List α) : Prop where
  nodup : (h :: xs).Nodup
  path : l.Path h xs h

section

variable {l l' : Links α} {a b c : α} {xs ys : List α}

theorem path_append : l.Path a (xs ++ b :: ys) c ↔ l.Path a xs b ∧ l.Path b ys c := by
  induction xs generalizing a with
  | nil => rfl
  | cons x xs ih => simp only [List.cons_append, Path, ih, and_assoc]

theorem Path.prev_mem (h : l.Path a xs b) : l.prev b ∈ a :: xs := by
  induction xs generalizing a with
  | nil => simp [h.2]
  | cons x xs ih => exact List.mem_cons_of_mem _ (ih h.2)

theorem Path.congr (h : l.Path a xs b) (hnext : ∀ y ∈ a :: xs, l'.next y = l.next y)
    (hprev : ∀ y ∈ xs ++ [b], l'.prev y = l.prev y) : l'.Path a xs b := by
  induction xs generalizing a with
  | nil =>
    rw [Path, hnext a (by simp), hprev b (by simp)]
    exact h
  | cons x xs ih =>
    refine ⟨?_, ih h.2 (fun y hy => hnext y (List.mem_cons_of_mem _ hy))
      fun y hy => hprev y (List.mem_cons_of_mem _ hy)⟩
    rw [hnext a (by simp), hprev x (by simp)]
    exact h.1

/-- The same nodes in the other direction. -/
def flip (l : Links α) : Links α := ⟨l.prev, l.next⟩

theorem Path.flip (h : l.Path a xs b) : l.flip.Path b xs.reverse a := by
  induction xs generalizing a with
  | nil => exact ⟨h.2, h.1⟩
  | cons x xs ih =>
    rw [List.reverse_cons, path_append]
    exact ⟨ih h.2, h.1.2, h.1.1⟩

theorem Ring.flip {h : α} (hring : l.Ring h xs) : l.flip.Ring h xs.reverse where
  nodup := by
    rw [List.nodup_cons, List.mem_reverse, List.nodup_reverse]
    exact List.nodup_cons.mp hring.nodup
  path := hring.path.flip

end

variable [DecidableEq α]

/-- Follow a pointer from a node on until a node has a property, or the head is reached. -/
def scan (next : α → α) (h : α) (p : α → Bool) : ℕ → α → Option (Option α)
  | 0, _ => none
  | n + 1, b => if b = h then some none else if p b then some (some b) else scan next h p n (next b)

section

variable (l : Links α)

def setNext (a b : α) : Links α := { l with next := update l.next a b }

def setPrev (a b : α) : Links α := { l with prev := update l.prev a b }

/-- Take a node out of its ring. -/
def unlink (b : α) : Links α :=
  let l₁ := l.setPrev (l.next b) (l.prev b)
  l₁.setNext (l₁.prev b) (l₁.next b)

/-- Insert a node behind the head. -/
def push (h b : α) : Links α :=
  let l₁ := l.setNext b (l.next h)
  let l₂ := l₁.setPrev b h
  let l₃ := l₂.setPrev (l₂.next h) b
  l₃.setNext h b

end

variable {l l' : Links α} {h a b c : α} {xs ys : List α} {p : α → Bool} {n : ℕ}

theorem Path.retarget (hpath : l.Path a xs b) (hnodup : (a :: xs).Nodup) (hc : c ∉ xs)
    (hnext : l'.next = update l.next (l.prev b) c) (hprev : l'.prev = update l.prev c (l.prev b)) :
    l'.Path a xs c := by
  induction xs generalizing a with
  | nil =>
    rw [Path, hnext, hprev, hpath.2, update_self, update_self]
    exact ⟨rfl, rfl⟩
  | cons x xs ih =>
    have ha : a ≠ l.prev b := by
      intro heq
      exact (List.nodup_cons.mp hnodup).1 (heq ▸ hpath.2.prev_mem)
    have hx : x ≠ c := fun heq => hc (heq ▸ List.mem_cons_self)
    refine ⟨?_, ih hpath.2 (List.nodup_cons.mp hnodup).2 fun hmem => hc (List.mem_cons_of_mem _ hmem)⟩
    rw [hnext, hprev, update_of_ne ha, update_of_ne hx]
    exact hpath.1

theorem Path.scan (hpath : l.Path a xs h) (hh : h ∉ xs) (hn : xs.length < n) :
    Links.scan l.next h p n (l.next a) = some (xs.find? p) := by
  induction xs generalizing a n with
  | nil =>
    obtain ⟨n, rfl⟩ := Nat.exists_eq_succ_of_ne_zero (Nat.ne_of_gt hn)
    rw [Links.scan, if_pos hpath.1]
    rfl
  | cons x xs ih =>
    obtain ⟨n, rfl⟩ := Nat.exists_eq_succ_of_ne_zero (Nat.ne_of_gt (Nat.zero_lt_of_lt hn))
    have hx : x ≠ h := fun heq => hh (heq ▸ List.mem_cons_self)
    rw [Links.scan, hpath.1.1, if_neg hx, List.find?_cons]
    cases hp : p x with
    | true => simp
    | false =>
      have hrest := ih hpath.2 (fun hmem => hh (List.mem_cons_of_mem _ hmem)) (n := n)
        (Nat.lt_of_succ_lt_succ hn)
      simpa using hrest

theorem Ring.scan_next (hring : l.Ring h xs) (hn : xs.length < n) :
    Links.scan l.next h p n (l.next h) = some (xs.find? p) :=
  hring.path.scan (List.nodup_cons.mp hring.nodup).1 hn

theorem Ring.scan_prev (hring : l.Ring h xs) (hn : xs.length < n) :
    Links.scan l.prev h p n (l.prev h) = some (xs.reverse.find? p) :=
  hring.flip.scan_next (by rwa [List.length_reverse])

theorem unlink_eq (hb : l.next b ≠ b) :
    (l.unlink b).next = update l.next (l.prev b) (l.next b) ∧
      (l.unlink b).prev = update l.prev (l.next b) (l.prev b) := by
  have hprev : (l.setPrev (l.next b) (l.prev b)).prev b = l.prev b :=
    update_of_ne hb.symm _ _
  rw [unlink, setNext]
  simp only [hprev]
  exact ⟨rfl, rfl⟩

theorem Ring.unlink (hring : l.Ring h (xs ++ b :: ys)) : (l.unlink b).Ring h (xs ++ ys) := by
  obtain ⟨hnodup, hpath⟩ := hring
  obtain ⟨hbefore, hbehind⟩ := path_append.mp hpath
  have hsub : (h :: (xs ++ ys)).Nodup :=
    hnodup.sublist (List.cons_sublist_cons.mpr
      (List.Sublist.append_left (List.sublist_cons_self b ys) xs))
  have hxs : (h :: xs).Nodup :=
    hnodup.sublist (List.cons_sublist_cons.mpr (List.sublist_append_left xs _))
  have hp := hbefore.prev_mem
  refine ⟨hsub, ?_⟩
  cases ys with
  | nil =>
    have hbh : l.next b ≠ b := by
      rw [hbehind.1]
      rintro rfl
      simp at hnodup
    obtain ⟨hnext, hprev⟩ := unlink_eq hbh
    rw [List.append_nil]
    refine hbefore.retarget hxs (List.nodup_cons.mp hxs).1 ?_ ?_
    · rw [hnext, hbehind.1]
    · rw [hprev, hbehind.1]
  | cons y ys =>
    obtain ⟨⟨hy, -⟩, hrest⟩ := hbehind
    have hby : l.next b ≠ b := by
      rw [hy]
      rintro rfl
      simp [List.nodup_append] at hnodup
    obtain ⟨hnext, hprev⟩ := unlink_eq hby
    rw [hy] at hnext hprev
    have hyxs : y ∉ xs := by
      intro hmem
      have hdisjoint := List.disjoint_of_nodup_append (List.nodup_cons.mp hsub).2
      exact hdisjoint hmem List.mem_cons_self
    rw [path_append]
    refine ⟨hbefore.retarget hxs hyxs hnext hprev, hrest.congr (fun z hz => ?_) fun z hz => ?_⟩
    · have hne : z ≠ l.prev b := by
        rintro rfl
        rcases List.mem_cons.mp hp with heq | hmem
        · exact (List.nodup_cons.mp hsub).1 (List.mem_append_right _ (heq ▸ hz))
        · exact List.disjoint_of_nodup_append (List.nodup_cons.mp hsub).2 hmem hz
      rw [hnext, update_of_ne hne]
    · have hne : z ≠ y := by
        rintro rfl
        rcases List.mem_append.mp hz with hmem | hmem
        · have hys := (List.nodup_append.mp (List.nodup_cons.mp hsub).2).2.1
          exact (List.nodup_cons.mp hys).1 hmem
        · rw [List.mem_singleton.mp hmem] at hsub
          simp at hsub
      rw [hprev, update_of_ne hne]

theorem push_eq (hb : b ≠ h) :
    (l.push h b).next = update (update l.next b (l.next h)) h b ∧
      (l.push h b).prev = update (update l.prev b h) (l.next h) b := by
  have hnext : ((l.setNext b (l.next h)).setPrev b h).next h = l.next h :=
    update_of_ne hb.symm _ _
  rw [push, setNext]
  simp only [hnext]
  exact ⟨rfl, rfl⟩

theorem Ring.push (hring : l.Ring h xs) (hb : b ∉ h :: xs) : (l.push h b).Ring h (b :: xs) := by
  obtain ⟨hnodup, hpath⟩ := hring
  have hbh : b ≠ h := fun heq => hb (heq ▸ List.mem_cons_self)
  have hbxs : b ∉ xs := fun hmem => hb (List.mem_cons_of_mem _ hmem)
  obtain ⟨hnext, hprev⟩ := push_eq (l := l) hbh
  have hfirst : b ≠ l.next h := by
    rintro rfl
    cases xs with
    | nil => exact hbh hpath.1
    | cons x xs => exact hbxs (hpath.1.1 ▸ List.mem_cons_self)
  refine ⟨?_, ⟨?_, ?_⟩, ?_⟩
  · rw [List.nodup_cons, List.nodup_cons, List.mem_cons, not_or]
    exact ⟨⟨hbh.symm, (List.nodup_cons.mp hnodup).1⟩, hbxs, (List.nodup_cons.mp hnodup).2⟩
  · rw [hnext, update_self]
  · rw [hprev, update_of_ne hfirst, update_self]
  · cases xs with
    | nil =>
      rw [Path, hnext, hprev, hpath.1, update_of_ne hbh, update_self,
        update_self]
      exact ⟨rfl, rfl⟩
    | cons x xs =>
      rw [hpath.1.1] at hnext hprev
      have hne : ∀ y ∈ x :: xs, y ≠ h ∧ y ≠ b := fun y hy =>
        ⟨fun heq => (List.nodup_cons.mp hnodup).1 (heq ▸ hy), fun heq => hbxs (heq ▸ hy)⟩
      refine ⟨⟨?_, ?_⟩, hpath.2.congr (fun y hy => ?_) fun y hy => ?_⟩
      · rw [hnext, update_of_ne hbh, update_self]
      · rw [hprev, update_self]
      · rw [hnext, update_of_ne (hne y hy).1, update_of_ne (hne y hy).2]
      · have hyx : y ≠ x := by
          rintro rfl
          rcases List.mem_append.mp hy with hmem | hmem
          · exact (List.nodup_cons.mp (List.nodup_cons.mp hnodup).2).1 hmem
          · exact (hne y List.mem_cons_self).1 (List.mem_singleton.mp hmem)
        have hyb : y ≠ b := by
          rcases List.mem_append.mp hy with hmem | hmem
          · exact (hne y (List.mem_cons_of_mem _ hmem)).2
          · rw [List.mem_singleton.mp hmem]
            exact hbh.symm
        rw [hprev, update_of_ne hyx, update_of_ne hyb]

theorem Ring.foldl_push (hring : l.Ring h xs) (hnodup : (h :: (xs ++ ys)).Nodup) :
    (ys.foldl (fun l b => l.push h b) l).Ring h (ys.reverse ++ xs) := by
  induction ys generalizing l xs with
  | nil => exact hring
  | cons y ys ih =>
    have hperm : (h :: (xs ++ y :: ys)).Perm (h :: y :: (xs ++ ys)) :=
      List.Perm.cons h List.perm_middle
    have hy : y ∉ h :: (xs ++ ys) :=
      (List.nodup_cons.mp (hnodup.perm (hperm.trans (List.Perm.swap y h _)))).1
    have hpush := hring.push fun hmem => hy (List.mem_cons.mpr
      ((List.mem_cons.mp hmem).imp_right (List.mem_append_left ys)))
    simpa using ih hpush (hnodup.perm hperm)

theorem Ring.moveFront (hring : l.Ring h xs) (hb : b ∈ xs) :
    ∃ ys, ((l.unlink b).push h b).Ring h ys ∧ ys.Perm xs := by
  obtain ⟨as, bs, rfl⟩ := List.append_of_mem hb
  refine ⟨b :: (as ++ bs), hring.unlink.push ?_, List.perm_middle.symm⟩
  have hnodup := hring.nodup.perm (List.Perm.cons h List.perm_middle)
  intro hmem
  rcases List.mem_cons.mp hmem with rfl | hmem
  · exact (List.nodup_cons.mp hnodup).1 List.mem_cons_self
  · exact (List.nodup_cons.mp (List.nodup_cons.mp hnodup).2).1 hmem

end Links

end KThreads
