import KThreads.Lib.Lines
import KThreads.Lib.Rests

/-!
# grep and the pieces in which its input arrives

The loop of `grep` keeps the beginning of a line that a read has not finished at the front of
its buffer. When a read brings no newline at all, `if(p == buf) m = 0` throws the whole
buffer away, the beginning of a line with it; the rest of that line is then taken for a line.
The output is right for every pattern exactly when no newline comes behind such a read.
-/

namespace KThreads.Grep

open Computability Rests

/-- The characters `.`, `*`, `^` and `$`. -/
abbrev DOT : UInt8 := 46
abbrev STAR : UInt8 := 42
abbrev CARET : UInt8 := 94
abbrev DOLLAR : UInt8 := 36

/-- `matchstar(c, re, text)`, where `here` is `matchhere(re, ·)`. -/
def matchstar (c : UInt8) (here : List UInt8 → Bool) : List UInt8 → Bool
  | [] => here []
  | t :: text => here (t :: text) || (t = c || c = DOT) && matchstar c here text

/-- The last test of `matchhere`, where `here` is `matchhere(re+1, ·)`. -/
def oneHere (c : UInt8) (here : List UInt8 → Bool) : List UInt8 → Bool
  | [] => false
  | t :: text => (c = DOT || c = t) && here text

/-- `matchhere(re, text)`. -/
def matchhere : List UInt8 → List UInt8 → Bool
  | [], _ => true
  | [c], text => if c = DOLLAR then text.isEmpty else oneHere c (matchhere []) text
  | c :: d :: re, text =>
    if d = STAR then matchstar c (matchhere re) text else oneHere c (matchhere (d :: re)) text

/-- The loop of `match`: the text from every position on, the terminating zero included. -/
def matchAnywhere (re : List UInt8) : List UInt8 → Bool
  | [] => matchhere re []
  | t :: text => matchhere re (t :: text) || matchAnywhere re text

/-- `match(re, text)`. -/
def matchText (re text : List UInt8) : Bool :=
  if re.head? = some CARET then matchhere re.tail text else matchAnywhere re text

/-- A character of a pattern, alone or with a star behind it. -/
inductive Item where
  | one (c : UInt8)
  | star (c : UInt8)

/-- The items of a pattern, and whether it asks for the end of the text. -/
structure Pattern where
  items : List Item
  toEnd : Bool

/-- Read a pattern: a star binds the character before it, `$` at the end is the end of the text.
Every other character is an item of its own, a star with none before it too. -/
def parse : List UInt8 → Pattern
  | [] => ⟨[], false⟩
  | [c] => if c = DOLLAR then ⟨[], true⟩ else ⟨[.one c], false⟩
  | c :: d :: re =>
    if d = STAR then ⟨.star c :: (parse re).items, (parse re).toEnd⟩
    else ⟨.one c :: (parse (d :: re)).items, (parse (d :: re)).toEnd⟩

/-- The characters that a character of a pattern stands for. -/
def Stands (c t : UInt8) : Prop := c = DOT ∨ c = t

/-- The words of an item. -/
def Item.lang : Item → Language UInt8
  | one c => symbols (Stands c)
  | star c => (symbols (Stands c))∗

/-- The words of a list of items, one item after the other. -/
def Pattern.lang (P : Pattern) : Language UInt8 := (P.items.map Item.lang).prod

/-- A pattern without its `^`. -/
def body (re : List UInt8) : List UInt8 := if re.head? = some CARET then re.tail else re

/-- A substring of the text is a word of the pattern; it begins the text if the pattern begins
with `^` and ends it if the pattern ends with `$`. -/
def Matches (re text : List UInt8) : Prop :=
  ∃ before word after, text = before ++ word ++ after ∧ word ∈ (parse (body re)).lang ∧
    (re.head? = some CARET → before = []) ∧ ((parse (body re)).toEnd = true → after = [])

section

variable {c : UInt8} {re text : List UInt8}

/-- The pattern matches at the beginning of the text. -/
def Pattern.Begins (P : Pattern) (text : List UInt8) : Prop :=
  ∃ v ∈ rests P.lang text, P.toEnd = true → v = []

theorem begins_nil {toEnd : Bool} : Pattern.Begins ⟨[], toEnd⟩ text ↔ (toEnd = true → text = []) := by
  simp [Pattern.Begins, Pattern.lang, mem_rests_one]

theorem begins_cons {i : Item} {is : List Item} {toEnd : Bool} :
    Pattern.Begins ⟨i :: is, toEnd⟩ text ↔ ∃ u ∈ rests i.lang text, Pattern.Begins ⟨is, toEnd⟩ u := by
  simp only [Pattern.Begins, Pattern.lang, List.map_cons, List.prod_cons, mem_rests_mul]
  constructor
  · rintro ⟨v, ⟨u, hu, hv⟩, hend⟩
    exact ⟨u, hu, v, hv, hend⟩
  · rintro ⟨u, hu, v, hv, hend⟩
    exact ⟨v, ⟨u, hu, hv⟩, hend⟩

theorem oneHere_iff {here : List UInt8 → Bool} :
    oneHere c here text = true ↔ ∃ u ∈ rests (Item.one c).lang text, here u = true := by
  cases text with
  | nil => simp [oneHere, Item.lang, not_mem_rests_symbols_nil]
  | cons t text =>
    simp only [oneHere, Item.lang, mem_rests_symbols_cons, Stands, Bool.and_eq_true,
      Bool.or_eq_true, decide_eq_true_eq]
    constructor
    · rintro ⟨hc, hhere⟩
      exact ⟨text, ⟨hc, rfl⟩, hhere⟩
    · rintro ⟨u, ⟨hc, rfl⟩, hhere⟩
      exact ⟨hc, hhere⟩

theorem matchstar_iff {here : List UInt8 → Bool} :
    matchstar c here text = true ↔ ∃ u ∈ rests (Item.star c).lang text, here u = true := by
  induction text with
  | nil =>
    simp only [matchstar, Item.lang]
    constructor
    · intro hhere
      exact ⟨[], mem_rests_kstar.mpr (.inl rfl), hhere⟩
    · rintro ⟨u, hu, hhere⟩
      rcases mem_rests_kstar.mp hu with rfl | ⟨w, hw, -⟩
      · exact hhere
      · exact absurd hw not_mem_rests_symbols_nil
  | cons t text ih =>
    simp only [matchstar, Bool.or_eq_true, Bool.and_eq_true, decide_eq_true_eq, ih]
    constructor
    · rintro (hhere | ⟨hc, u, hu, hhere⟩)
      · exact ⟨t :: text, mem_rests_kstar.mpr (.inl rfl), hhere⟩
      · have hstands : Stands c t := hc.symm.imp_right Eq.symm
        exact ⟨u, mem_rests_kstar.mpr (.inr ⟨text, mem_rests_symbols_cons.mpr ⟨hstands, rfl⟩, hu⟩), hhere⟩
    · rintro ⟨u, hu, hhere⟩
      rcases mem_rests_kstar.mp hu with rfl | ⟨w, hw, hu'⟩
      · exact .inl hhere
      · obtain ⟨hstands, rfl⟩ := mem_rests_symbols_cons.mp hw
        exact .inr ⟨hstands.symm.imp_left Eq.symm, u, hu', hhere⟩

theorem matchhere_iff : matchhere re text = true ↔ (parse re).Begins text := by
  -- The cases of the recursion are those in which the pattern is read.
  induction re using parse.induct generalizing text with
  | case1 => simp [matchhere, parse, begins_nil]
  | case2 => simp [matchhere, parse, begins_nil]
  | case3 c hc =>
    simp [matchhere, parse, hc, begins_cons, begins_nil, oneHere_iff]
  | case4 c re ih => simp only [matchhere, parse, if_true, begins_cons, matchstar_iff, ih]
  | case5 c d re hd ih => simp only [matchhere, parse, if_neg hd, begins_cons, oneHere_iff, ih]

theorem matchAnywhere_iff :
    matchAnywhere re text = true ↔ ∃ before s, text = before ++ s ∧ (parse re).Begins s := by
  induction text with
  | nil =>
    rw [matchAnywhere, matchhere_iff]
    constructor
    · intro h
      exact ⟨[], [], rfl, h⟩
    · rintro ⟨before, s, hnil, h⟩
      obtain ⟨-, rfl⟩ := List.append_eq_nil_iff.mp hnil.symm
      exact h
  | cons t text ih =>
    rw [matchAnywhere, Bool.or_eq_true, matchhere_iff, ih]
    constructor
    · rintro (h | ⟨before, s, rfl, h⟩)
      · exact ⟨[], t :: text, rfl, h⟩
      · exact ⟨t :: before, s, rfl, h⟩
    · rintro ⟨before, s, heq, h⟩
      cases before with
      | nil => exact .inl (heq ▸ h)
      | cons b before => exact .inr ⟨before, s, (List.cons.inj heq).2, h⟩

/-- **The matcher of grep.** For every pattern and every text: `match` returns, and it returns 1
exactly when a substring of the text, one at its beginning for `^`, matches the pattern. -/
theorem matchText_iff (re text : List UInt8) : matchText re text = true ↔ Matches re text := by
  by_cases hcaret : re.head? = some CARET
  · rw [matchText, if_pos hcaret, matchhere_iff]
    simp only [Matches, body, hcaret, forall_const]
    constructor
    · rintro ⟨after, ⟨word, hword, rfl⟩, hend⟩
      exact ⟨[], word, after, rfl, hword, rfl, hend⟩
    · rintro ⟨_, word, after, rfl, hword, rfl, hend⟩
      exact ⟨after, ⟨word, hword, rfl⟩, hend⟩
  · rw [matchText, if_neg hcaret, matchAnywhere_iff]
    simp only [Matches, body, hcaret, false_implies, true_and]
    constructor
    · rintro ⟨before, s, rfl, after, ⟨word, hword, rfl⟩, hend⟩
      exact ⟨before, word, after, (List.append_assoc before word after).symm, hword, hend⟩
    · rintro ⟨before, word, after, rfl, hword, hend⟩
      exact ⟨before, word ++ after, List.append_assoc before word after, after, ⟨word, hword, rfl⟩, hend⟩

-- The pattern `^a*$` on `aa` and on `ab`.
example : matchText [CARET, 97, STAR, DOLLAR] [97, 97] = true := by decide
example : matchText [CARET, 97, STAR, DOLLAR] [97, 98] = false := by decide

end

open Lines

abbrev NEWLINE : UInt8 := 10

section

/-- `strchr(s, c)` as a distance from `s`; the list ends where the zero is that `grep` stores
behind the input. -/
def strchr (c : UInt8) : List UInt8 → Option ℕ
  | [] => none
  | x :: s => if x = 0 then none else if x = c then some 0 else (strchr c s).map (· + 1)

theorem strchr_lt {c : UInt8} {s : List UInt8} {q : ℕ} (h : strchr c s = some q) : q < s.length := by
  induction s generalizing q with
  | nil => cases h
  | cons x s ih =>
    rw [strchr] at h
    split_ifs at h with hzero hx
    · cases h
      exact Nat.zero_lt_succ _
    · obtain ⟨q', hq', rfl⟩ := Option.map_eq_some_iff.mp h
      exact Nat.succ_lt_succ (ih hq')

variable (pattern : List UInt8)

/-- The inner loop from `p` on, where `s` are the bytes from `p` to `buf + m`: what is written and how
far `p` moves. -/
def scan (s : List UInt8) : List UInt8 × ℕ :=
  match _h : strchr NEWLINE s with
  | none => ([], 0)
  | some q =>
    ((if matchText pattern (s.take q) then s.take (q + 1) else []) ++ (scan (s.drop (q + 1))).1,
      q + 1 + (scan (s.drop (q + 1))).2)
termination_by s.length
decreasing_by
  all_goals
    have hlt := strchr_lt _h
    simp only [List.length_drop]
    omega

/-- The first `m` bytes of the buffer after a round. -/
def kept (s : List UInt8) : List UInt8 := if (scan pattern s).2 = 0 then [] else s.drop (scan pattern s).2

/-- `grep(pattern, fd)` with `buf` at the front of the buffer, where `pieces` are what the calls of
`read` return before the one that returns 0: what is written. -/
def grep : List UInt8 → List (List UInt8) → List UInt8
  | _, [] => []
  | buf, piece :: pieces =>
    (scan pattern (buf ++ piece)).1 ++ grep (kept pattern (buf ++ piece)) pieces

/-- The calls of `read(fd, buf+m, sizeof(buf)-m-1)` can return these pieces. -/
def Readable : List UInt8 → List (List UInt8) → Prop
  | _, [] => True
  | buf, piece :: pieces =>
    piece ≠ [] ∧ piece.length ≤ 1024 - buf.length - 1 ∧ Readable (kept pattern (buf ++ piece)) pieces

end

/-- The newline-terminated lines that match, in order. -/
def wanted (pattern input : List UInt8) : List UInt8 :=
  joined NEWLINE ((split NEWLINE input).1.filter (matchText pattern))

/-- The lines that a newline ends, each as the part that `grep` has thrown away and the part it
takes for the line. Of the line that `buf` goes on with, `x` has been thrown away. -/
def seen : List UInt8 → List UInt8 → List (List UInt8) → List (List UInt8 × List UInt8)
  | _, _, [] => []
  | x, buf, piece :: pieces =>
    match split NEWLINE (buf ++ piece) with
    | ([], _) => seen (x ++ (buf ++ piece)) [] pieces
    | (l :: ls, r) => (x, l) :: (ls.map fun l => ([], l)) ++ seen [] r pieces

/-- No newline comes behind a piece without one. -/
def KeepsLines : List (List UInt8) → Prop
  | [] => True
  | piece :: pieces => (NEWLINE ∉ piece → NEWLINE ∉ pieces.flatten) ∧ KeepsLines pieces

section

variable {pattern l r s x buf : List UInt8} {ls pieces : List (List UInt8)}

/-- What the line contributes to the output. -/
def lineOut (pattern l : List UInt8) : List UInt8 := if matchText pattern l then l ++ [NEWLINE] else []

theorem wanted_eq : wanted pattern s = (split NEWLINE s).1.flatMap (lineOut pattern) := by
  rw [wanted, joined]
  induction (split NEWLINE s).1 with
  | nil => rfl
  | cons l ls ih =>
    rw [List.filter_cons, List.flatMap_cons, lineOut, ← ih]
    split
    · rw [List.flatMap_cons]
    · rfl

theorem strchr_line (hzero : 0 ∉ l) (hl : NEWLINE ∉ l) :
    strchr NEWLINE (l ++ NEWLINE :: s) = some l.length := by
  induction l with
  | nil => rfl
  | cons c l ih =>
    rw [List.mem_cons, not_or] at hzero hl
    rw [List.cons_append, strchr, if_neg (Ne.symm hzero.1), if_neg (Ne.symm hl.1), ih hzero.2 hl.2]
    rfl

theorem strchr_rest (hr : NEWLINE ∉ r) : strchr NEWLINE r = none := by
  induction r with
  | nil => rfl
  | cons c r ih =>
    rw [List.mem_cons, not_or] at hr
    rw [strchr, if_neg (Ne.symm hr.1), ih hr.2]
    exact ite_self _

theorem scan_rest (hr : NEWLINE ∉ r) : scan pattern r = ([], 0) := by
  rw [scan]
  split
  · rfl
  · next q hq =>
    rw [strchr_rest hr] at hq
    cases hq

theorem scan_line (hzero : 0 ∉ l) (hl : NEWLINE ∉ l) :
    scan pattern (l ++ NEWLINE :: s) =
      (lineOut pattern l ++ (scan pattern s).1, l.length + 1 + (scan pattern s).2) := by
  rw [scan]
  split
  · next hq =>
    rw [strchr_line hzero hl] at hq
    cases hq
  · next q hq =>
    rw [strchr_line hzero hl] at hq
    cases hq
    have htake : (l ++ NEWLINE :: s).take (l.length + 1) = l ++ [NEWLINE] := by
      simp [List.take_append]
    have hdrop : (l ++ NEWLINE :: s).drop (l.length + 1) = s := by
      simp [List.drop_append]
    rw [htake, hdrop, List.take_left, lineOut]

theorem scan_joined (hzero : 0 ∉ joined NEWLINE ls) (hls : ∀ l ∈ ls, NEWLINE ∉ l)
    (hr : NEWLINE ∉ r) :
    scan pattern (joined NEWLINE ls ++ r) =
      (ls.flatMap (lineOut pattern), (joined NEWLINE ls).length) := by
  induction ls with
  | nil => exact scan_rest hr
  | cons l ls ih =>
    rw [joined_cons, List.mem_append, not_or, List.mem_cons, not_or] at hzero
    rw [joined_cons, List.append_assoc, List.cons_append,
      scan_line hzero.1 (hls l List.mem_cons_self),
      ih hzero.2.2 fun l' hl' => hls l' (List.mem_cons_of_mem l hl'), List.flatMap_cons,
      List.length_append, List.length_cons]
    congr 1
    omega

theorem kept_rest (hr : NEWLINE ∉ r) : kept pattern r = [] := by
  rw [kept, scan_rest hr]
  rfl

theorem kept_joined (hzero : 0 ∉ joined NEWLINE (l :: ls)) (hls : ∀ l' ∈ l :: ls, NEWLINE ∉ l')
    (hr : NEWLINE ∉ r) : kept pattern (joined NEWLINE (l :: ls) ++ r) = r := by
  rw [kept, scan_joined hzero hls hr, if_neg, List.drop_left]
  rw [joined_cons, List.length_append, List.length_cons]
  omega

theorem line_cases (s : List UInt8) :
    NEWLINE ∉ s ∨ ∃ l ls r, s = joined NEWLINE (l :: ls) ++ r ∧ (∀ l' ∈ l :: ls, NEWLINE ∉ l') ∧
      NEWLINE ∉ r := by
  obtain ⟨hjoin, hlines, hrest⟩ := split_spec NEWLINE s
  generalize (split NEWLINE s).1 = ls at hjoin hlines
  cases ls with
  | nil => exact .inl (hjoin ▸ hrest)
  | cons l ls => exact .inr ⟨l, ls, _, hjoin.symm, hlines, hrest⟩

end

section

variable {pattern x buf piece : List UInt8} {pieces : List (List UInt8)}

theorem seen_rest (h : NEWLINE ∉ buf ++ piece) :
    seen x buf (piece :: pieces) = seen (x ++ (buf ++ piece)) [] pieces := by
  rw [seen, split_rest h]

theorem seen_lines {l r : List UInt8} {ls : List (List UInt8)}
    (h : buf ++ piece = joined NEWLINE (l :: ls) ++ r) (hls : ∀ l' ∈ l :: ls, NEWLINE ∉ l')
    (hr : NEWLINE ∉ r) :
    seen x buf (piece :: pieces) = (x, l) :: (ls.map fun l => ([], l)) ++ seen [] r pieces := by
  rw [seen, h, split_joined hls, split_rest hr, List.append_nil]

theorem grep_eq_seen (hzero : 0 ∉ buf ++ pieces.flatten) :
    grep pattern buf pieces = (seen x buf pieces).flatMap fun l => lineOut pattern l.2 := by
  induction pieces generalizing x buf with
  | nil => rfl
  | cons piece pieces ih =>
    rw [List.flatten_cons, ← List.append_assoc, List.mem_append, not_or] at hzero
    rw [grep]
    rcases line_cases (buf ++ piece) with hnew | ⟨l, ls, r, hs, hls, hr⟩
    · rw [scan_rest hnew, kept_rest hnew, seen_rest hnew]
      exact ih hzero.2
    · rw [seen_lines hs hls hr]
      rw [hs, List.mem_append, not_or] at hzero
      rw [hs, scan_joined hzero.1.1 hls hr, kept_joined hzero.1.1 hls hr, ih (x := [])]
      · simp [List.flatMap_map]
      · rw [List.mem_append, not_or]
        exact ⟨hzero.1.2, hzero.2⟩

theorem split_eq_seen (hx : NEWLINE ∉ x) (hbuf : NEWLINE ∉ buf) :
    (split NEWLINE (x ++ (buf ++ pieces.flatten))).1 =
      (seen x buf pieces).map fun l => l.1 ++ l.2 := by
  induction pieces generalizing x buf with
  | nil =>
    rw [split_rest]
    · rfl
    · simp [hx, hbuf]
  | cons piece pieces ih =>
    rw [List.flatten_cons, ← List.append_assoc buf]
    rcases line_cases (buf ++ piece) with hnew | ⟨l, ls, r, hs, hls, hr⟩
    · rw [seen_rest hnew, ← ih (by simp_all) List.not_mem_nil, List.nil_append,
        List.append_assoc x]
    · have hxls : ∀ l' ∈ (x ++ l) :: ls, NEWLINE ∉ l' := by
        simp only [List.mem_cons, forall_eq_or_imp] at hls ⊢
        exact ⟨by simp [hx, hls.1], hls.2⟩
      have hjoin : x ++ (buf ++ piece ++ pieces.flatten) =
          joined NEWLINE ((x ++ l) :: ls) ++ (r ++ pieces.flatten) := by
        simp [hs]
      rw [hjoin, split_joined hxls, seen_lines hs hls hr]
      have hrest := ih (x := []) List.not_mem_nil hr
      rw [List.nil_append] at hrest
      simp [hrest, Function.comp_def]

theorem seen_nil (h : NEWLINE ∉ buf ++ pieces.flatten) : seen x buf pieces = [] := by
  induction pieces generalizing x buf with
  | nil => rfl
  | cons piece pieces ih =>
    rw [List.flatten_cons, ← List.append_assoc, List.mem_append, not_or] at h
    rw [seen_rest h.1]
    exact ih h.2

/-- Where lines are kept nothing is thrown away. -/
theorem seen_of_keepsLines (h : KeepsLines pieces) (hbuf : NEWLINE ∉ buf) :
    ∀ l ∈ seen [] buf pieces, l.1 = [] := by
  induction pieces generalizing buf with
  | nil => simp [seen]
  | cons piece pieces ih =>
    rcases line_cases (buf ++ piece) with hnew | ⟨l, ls, r, hs, hls, hr⟩
    · have hrest := h.1 fun hmem => hnew (List.mem_append_right _ hmem)
      rw [seen_rest hnew, seen_nil (by rwa [List.nil_append])]
      simp
    · rw [seen_lines hs hls hr]
      intro c hc
      simp only [List.cons_append, List.mem_cons, List.mem_append, List.mem_map] at hc
      rcases hc with rfl | ⟨l', -, rfl⟩ | hc
      · rfl
      · rfl
      · exact ih h.2 hr c hc

/-- If nothing is thrown away, lines are kept. -/
theorem keepsLines_of_seen (hne : ∀ p ∈ pieces, p ≠ []) (hbuf : NEWLINE ∉ buf)
    (h : ∀ l ∈ seen x buf pieces, l.1 = []) :
    KeepsLines pieces ∧ (x ≠ [] → NEWLINE ∉ pieces.flatten) := by
  induction pieces generalizing x buf with
  | nil => exact ⟨trivial, fun _ => List.not_mem_nil⟩
  | cons piece pieces ih =>
    have hne' := fun p hp => hne p (List.mem_cons_of_mem piece hp)
    rcases line_cases (buf ++ piece) with hnew | ⟨l, ls, r, hs, hls, hr⟩
    · rw [seen_rest hnew] at h
      obtain ⟨hkeeps, hrest⟩ := ih hne' List.not_mem_nil h
      have hquiet := hrest (by simp [hne piece List.mem_cons_self])
      refine ⟨⟨fun _ => hquiet, hkeeps⟩, fun _ => ?_⟩
      rw [List.flatten_cons, List.mem_append, not_or]
      exact ⟨fun hmem => hnew (List.mem_append_right _ hmem), hquiet⟩
    · rw [seen_lines hs hls hr] at h
      have hx := h (x, l) (by simp)
      refine ⟨⟨fun hpiece => ?_, (ih (x := []) hne' hr fun c hc => h c (by simp [hc])).1⟩, fun hxne => ?_⟩
      · have hmem : NEWLINE ∈ buf ++ piece := by simp [hs]
        exact absurd (List.mem_append.mp hmem) (not_or.mpr ⟨hbuf, hpiece⟩)
      · exact absurd hx hxne

theorem length_seen (cs : List (List UInt8 × List UInt8)) :
    (cs.flatMap fun l => l.2 ++ [NEWLINE]).length ≤
        ((cs.map fun l => l.1 ++ l.2).flatMap (· ++ [NEWLINE])).length ∧
      ((cs.flatMap fun l => l.2 ++ [NEWLINE]).length =
        ((cs.map fun l => l.1 ++ l.2).flatMap (· ++ [NEWLINE])).length → ∀ l ∈ cs, l.1 = []) := by
  induction cs with
  | nil => simp
  | cons c cs ih =>
    simp only [List.map_cons, List.flatMap_cons, List.length_append, List.mem_cons,
      forall_eq_or_imp]
    refine ⟨by omega, fun heq => ⟨List.length_eq_zero_iff.mp (by omega), ih.2 (by omega)⟩⟩

end

/-- **What grep writes.** Let an input without zero bytes arrive in pieces, none of them empty.
Of each line that a newline ends `grep` throws a beginning away, and it writes the rest of the
line if the rest matches. For every pattern this is the lines that match, if and only if no
newline comes behind a piece without one. -/
theorem grep_writes_iff (pieces : List (List UInt8)) (hzero : 0 ∉ pieces.flatten)
    (hne : ∀ p ∈ pieces, p ≠ []) :
    (split NEWLINE pieces.flatten).1 = (seen [] [] pieces).map (fun l => l.1 ++ l.2) ∧
      (∀ pattern, grep pattern [] pieces =
        (seen [] [] pieces).flatMap fun l => lineOut pattern l.2) ∧
      ((∀ pattern, grep pattern [] pieces = wanted pattern pieces.flatten) ↔
        KeepsLines pieces) := by
  have hlines := @split_eq_seen [] [] pieces List.not_mem_nil List.not_mem_nil
  have hgrep := fun pattern => @grep_eq_seen pattern [] [] pieces hzero
  rw [List.nil_append, List.nil_append] at hlines
  refine ⟨hlines, hgrep, fun hall => ?_, fun hkeeps pattern => ?_⟩
  · -- The empty pattern matches every line.
    have hany : ∀ l, lineOut [] l = l ++ [NEWLINE] := fun l => by
      rw [lineOut, if_pos]
      cases l <;> rfl
    have heq := hall []
    rw [hgrep, wanted_eq, hlines, funext hany] at heq
    beta_reduce at heq
    exact (keepsLines_of_seen hne List.not_mem_nil
      ((length_seen _).2 (congrArg List.length heq))).1
  · have hnone := @seen_of_keepsLines [] pieces hkeeps List.not_mem_nil
    rw [hgrep, wanted_eq, hlines, List.flatMap_map]
    exact List.flatMap_congr fun l hl => by rw [hnone l hl, List.nil_append]

/-- The pattern `a` and the lines `ab`, `xa`, `q` and `a`, of which the second comes in two
pieces. -/
theorem grep_writes_three :
    Readable [97] [] [[97, 98, NEWLINE, 120, 97], [NEWLINE, 113, NEWLINE, 97, NEWLINE]] ∧
      grep [97] [] [[97, 98, NEWLINE, 120, 97], [NEWLINE, 113, NEWLINE, 97, NEWLINE]] =
        [97, 98, NEWLINE, 120, 97, NEWLINE, 97, NEWLINE] := by
  have hkept : kept [97] [97, 98, NEWLINE, 120, 97] = [120, 97] := by
    change kept [97] (joined NEWLINE [[97, 98]] ++ [120, 97]) = [120, 97]
    exact kept_joined (by decide) (by decide) (by decide)
  have hall := (grep_writes_iff [[97, 98, NEWLINE, 120, 97], [NEWLINE, 113, NEWLINE, 97, NEWLINE]]
    (by decide) (by decide)).2.2.mpr (by simp [KeepsLines])
  refine ⟨⟨by simp, by simp, by simp, ?_, trivial⟩, (hall [97]).trans (by decide)⟩
  simp [hkept]

/-- The pattern `a` and the input `ab`, newline: in one piece the line is written, and in the pieces
`a` and `b`, newline, nothing is. -/
theorem grep_loses_line :
    Readable [97] [] [[97, 98, NEWLINE]] ∧ Readable [97] [] [[97], [98, NEWLINE]] ∧
      wanted [97] [97, 98, NEWLINE] = [97, 98, NEWLINE] ∧
      grep [97] [] [[97, 98, NEWLINE]] = [97, 98, NEWLINE] ∧
      grep [97] [] [[97], [98, NEWLINE]] = [] := by
  have hkept : kept [97] [97] = [] := kept_rest (by decide)
  refine ⟨⟨by simp, by simp, trivial⟩, ⟨by simp, by simp, by simp, ?_, trivial⟩, by decide, ?_, ?_⟩
  · simp [hkept]
  · exact (grep_eq_seen (x := []) (by decide)).trans (by decide)
  · exact (grep_eq_seen (x := []) (by decide)).trans (by decide)

end KThreads.Grep
