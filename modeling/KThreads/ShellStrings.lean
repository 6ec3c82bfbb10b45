import KThreads.ShellGrammar

/-!
# The words of a parsed command as strings

`nulterminate` overwrites the byte behind every word of a command in the input. Such a byte is
never part of a word: it is whitespace, a symbol or the end of the input. So every pointer to a word
of the command points to a string that is the word.
-/

namespace KThreads.Shell

open Function (update)

variable {t : CString} {n : ℕ} {cmd : Cmd} {tok : Token} {us : List Token}

/-- The words of a command: the arguments and the files of redirections. -/
def Cmd.words : Cmd → List Span
  | exec args => args
  | redir cmd file _ _ => cmd.words ++ [file]
  | pipe left right => left.words ++ right.words
  | list left right => left.words ++ right.words
  | back cmd => cmd.words

/-- Reading a string at a position gives these bytes. -/
def StringIs (buf : ℕ → UInt8) (p : ℕ) (text : List UInt8) : Prop :=
  (∀ i (h : i < text.length), buf (p + i) = text[i] ∧ text[i] ≠ 0) ∧ buf (p + text.length) = 0

/-- The bytes of a token. -/
def Token.text (t : CString) (tok : Token) : List UInt8 := (t.chars.drop tok.q).take (tok.eq - tok.q)

/-- The words of these tokens. -/
def wordSpans (us : List Token) : List Span := (us.filter (·.kind = .word)).map Token.span

theorem mem_wordSpans {w : Span} : w ∈ wordSpans us ↔ ∃ tok ∈ us, tok.kind = .word ∧ tok.span = w := by
  simp [wordSpans, and_assoc]

theorem wordSpans_append {vs : List Token} : wordSpans (us ++ vs) = wordSpans us ++ wordSpans vs := by
  simp [wordSpans]

theorem words_backs (k : ℕ) : (Cmd.back^[k] cmd).words = cmd.words := by
  induction k generalizing cmd with
  | zero => rfl
  | succ k ih => exact ih

theorem words_wrap {rs : List Redirection} :
    (wrap rs cmd).words = cmd.words ++ rs.map Redirection.file := by
  induction rs generalizing cmd with
  | nil => exact (List.append_nil _).symm
  | cons r rs ih =>
    rw [List.map_cons, List.append_cons]
    exact ih

theorem Redirs.file_mem {rs : List Redirection} (h : Redirs us rs) :
    ∀ r ∈ rs, r.file ∈ wordSpans us := by
  induction h with
  | nil => nofun
  | @cons op file r us rs hop hword _ ih =>
    have hfile : r.file = file.span := by
      cases hk : op.kind <;> rw [hk] at hop <;> cases hop <;> rfl
    intro r' hr'
    rcases List.mem_cons.mp hr' with rfl | hr'
    · rw [hfile]
      exact mem_wordSpans.mpr ⟨file, by simp, hword, rfl⟩
    · obtain ⟨tok, htok, hkind, hspan⟩ := mem_wordSpans.mp (ih r' hr')
      exact mem_wordSpans.mpr ⟨tok, by simp [htok], hkind, hspan⟩

theorem Words.span_mem {ws : List Span} {rs : List Redirection} (h : Words us ws rs) :
    (∀ w ∈ ws, w ∈ wordSpans us) ∧ ∀ r ∈ rs, r.file ∈ wordSpans us := by
  induction h with
  | nil => exact ⟨nofun, nofun⟩
  | @cons w us vs ws rs rs' hword hredirs _ ih =>
    have hsub : ∀ x, x ∈ wordSpans us ∨ x ∈ wordSpans vs → x ∈ wordSpans (w :: (us ++ vs)) := by
      intro x hx
      rw [← List.singleton_append, wordSpans_append, wordSpans_append]
      exact List.mem_append_right _ (List.mem_append.mpr hx)
    constructor
    · intro x hx
      rcases List.mem_cons.mp hx with rfl | hx
      · exact mem_wordSpans.mpr ⟨w, List.mem_cons_self, hword, rfl⟩
      · exact hsub x (.inr (ih.1 x hx))
    · intro r hr
      rcases List.mem_append.mp hr with hr | hr
      · exact hsub _ (.inl (hredirs.file_mem r hr))
      · exact hsub _ (.inr (ih.2 r hr))

theorem Derives.words_mem {X : Nonterminal} (h : Derives X us cmd) :
    ∀ w ∈ cmd.words, w ∈ wordSpans us := by
  induction h with
  | line _ _ ih =>
    intro w hw
    rw [words_backs] at hw
    rw [wordSpans_append]
    exact List.mem_append_left _ (ih w hw)
  | @lines us amps vs semi c d _ _ _ _ ih ih' =>
    intro w hw
    rw [Cmd.words, words_backs] at hw
    rw [List.append_cons, wordSpans_append, wordSpans_append, wordSpans_append]
    rcases List.mem_append.mp hw with hw | hw
    · simp [ih w hw]
    · simp [ih' w hw]
  | pipe _ ih => exact ih
  | @pipes us vs bar c d _ _ _ ih ih' =>
    intro w hw
    rw [List.append_cons, wordSpans_append, wordSpans_append]
    rcases List.mem_append.mp hw with hw | hw
    · simp [ih w hw]
    · simp [ih' w hw]
  | @block us vs left right c rs _ _ _ hredirs ih =>
    intro w hw
    rw [words_wrap] at hw
    rw [← List.singleton_append, List.append_cons us, wordSpans_append, wordSpans_append, wordSpans_append]
    rcases List.mem_append.mp hw with hw | hw
    · simp [ih w hw]
    · obtain ⟨r, hr, rfl⟩ := List.mem_map.mp hw
      simp [hredirs.file_mem r hr]
  | @simple us vs ws rs rs' hredirs hwords _ =>
    intro w hw
    rw [words_wrap, Cmd.words, List.map_append] at hw
    rw [wordSpans_append]
    rcases List.mem_append.mp hw with hw | hw
    · exact List.mem_append_right _ (hwords.span_mem.1 w hw)
    · rcases List.mem_append.mp hw with hw | hw <;> obtain ⟨r, hr, rfl⟩ := List.mem_map.mp hw
      · exact List.mem_append_left _ (hredirs.file_mem r hr)
      · exact List.mem_append_right _ (hwords.span_mem.2 r hr)

section

variable {off : ℕ} {cs pre : List UInt8}

/-- A word of the text that begins at `off`: the byte behind it belongs to no word. -/
def WordIn (off : ℕ) (cs : List UInt8) (tok : Token) : Prop :=
  ∃ before word after, cs = before ++ (word ++ after) ∧ tok.q = off + before.length ∧
    tok.eq = tok.q + word.length ∧ (∀ c ∈ word, isWordChar c = true) ∧
    ∀ c ∈ after.head?, isWordChar c = false

theorem WordIn.shift (pre : List UInt8) (h : WordIn (off + pre.length) cs tok) : WordIn off (pre ++ cs) tok := by
  obtain ⟨before, word, after, rfl, hq, heq, hchars, hafter⟩ := h
  refine ⟨pre ++ before, word, after, by simp, ?_, heq, hchars, hafter⟩
  rw [hq, List.length_append]
  omega

theorem not_wordChar_head_dropWhile :
    ∀ c ∈ (cs.dropWhile isWordChar).head?, isWordChar c = false := by
  intro c hc
  obtain ⟨rest, hrest⟩ := List.head?_eq_some_iff.mp hc
  have hne : cs.dropWhile isWordChar ≠ [] := by simp [hrest]
  have hhead := List.head_dropWhile_not isWordChar hne
  simpa [hrest] using hhead

theorem mem_lex_word (htok : tok ∈ lex off cs) (hword : tok.kind = .word) : WordIn off cs tok := by
  induction off, cs using lex.induct with
  | case1 off =>
    rw [lex_nil] at htok
    exact absurd htok List.not_mem_nil
  | case2 off c cs hspace ih =>
    rw [lex_space off hspace] at htok
    exact (ih htok).shift [c]
  | case3 off c cs _ hgreater ih =>
    obtain ⟨rfl, hhead⟩ := hgreater
    obtain ⟨cs, rfl⟩ := List.head?_eq_some_iff.mp hhead
    rw [lex_append] at htok
    rcases List.mem_cons.mp htok with rfl | htok
    · cases hword
    · exact (ih htok).shift [GREATER, GREATER]
  | case4 off c cs hspace hgreater k hk ih =>
    rw [lex_symbol off hk (Bool.eq_false_iff.mpr hspace) hgreater] at htok
    rcases List.mem_cons.mp htok with rfl | htok
    · obtain rfl : k = .word := hword
      cases (first_of_symbolKind hk).1
    · exact (ih htok).shift [c]
  | case5 off c cs hspace _ hk ih =>
    have hspace' : isSpace c = false := Bool.eq_false_iff.mpr hspace
    have hchar : isWordChar c = true := by
      rw [isWordChar, ← isSpace, hspace']
      simpa using symbolKind_eq_none.mp hk
    have hsplit : c :: cs = c :: cs.takeWhile isWordChar ++ cs.dropWhile isWordChar := by
      rw [List.cons_append, List.takeWhile_append_dropWhile]
    rw [lex_word off hk hspace'] at htok
    rw [hsplit]
    rcases List.mem_cons.mp htok with rfl | htok
    · refine ⟨[], c :: cs.takeWhile isWordChar, _, rfl, rfl, ?_, ?_, not_wordChar_head_dropWhile⟩
      · simp only [List.length_cons]
        omega
      · intro d hd
        rcases List.mem_cons.mp hd with rfl | hd
        · exact hchar
        · exact List.mem_takeWhile_imp hd
    · refine WordIn.shift _ ?_
      rw [List.length_cons, ← Nat.add_assoc, Nat.add_right_comm]
      exact ih htok

theorem word_bytes (htok : tok ∈ tokens t) (hword : tok.kind = .word) :
    tok.q ≤ tok.eq ∧ (∀ i, tok.q ≤ i → i < tok.eq → i < t.chars.length ∧ isWordChar (t.byte i) = true) ∧
      (tok.eq < t.chars.length → isWordChar (t.byte tok.eq) = false) := by
  obtain ⟨before, word, after, hcs, hq, heq, hchars, hafter⟩ := mem_lex_word htok hword
  rw [Nat.zero_add] at hq
  have hlen : t.chars.length = before.length + (word.length + after.length) := by
    rw [hcs, List.length_append, List.length_append]
  refine ⟨by omega, fun i hi hi' => ⟨by omega, ?_⟩, fun hlt => ?_⟩
  · have hbyte : t.byte i = word.getD (i - before.length) 0 := by
      rw [CString.byte, hcs, List.getD_append_right _ _ _ _ (by omega), List.getD_append _ _ _ _ (by omega)]
    rw [hbyte, List.getD_eq_getElem _ _ (by omega)]
    exact hchars _ (List.getElem_mem _)
  · have hbyte : t.byte tok.eq = after.getD 0 0 := by
      rw [CString.byte, hcs, List.getD_append_right _ _ _ _ (by omega), List.getD_append_right _ _ _ _ (by omega)]
      congr 1
      omega
    cases after with
    | nil =>
      rw [List.length_nil] at hlen
      omega
    | cons c after =>
      rw [hbyte]
      exact hafter c rfl

end

section

variable {buf : ℕ → UInt8} {i : ℕ}

theorem clear_append {ws ws' : List Span} {b : UInt8} :
    (if ∃ w ∈ ws', w.eq = i then 0 else if ∃ w ∈ ws, w.eq = i then 0 else b) =
      if ∃ w ∈ ws ++ ws', w.eq = i then 0 else b := by
  by_cases h : ∃ w ∈ ws, w.eq = i <;> by_cases h' : ∃ w ∈ ws', w.eq = i <;>
    simp [or_and_right, exists_or, h, h']

theorem foldl_update_apply {ws : List Span} :
    ws.foldl (fun buf w => update buf w.eq 0) buf i = if ∃ w ∈ ws, w.eq = i then 0 else buf i := by
  induction ws generalizing buf with
  | nil => simp
  | cons w ws ih =>
    rw [List.foldl_cons, ih]
    by_cases hi : w.eq = i
    · subst hi
      simp
    · simp [hi, Ne.symm hi]

theorem nulterminate_apply :
    nulterminate cmd buf i = if ∃ w ∈ cmd.words, w.eq = i then 0 else buf i := by
  induction cmd generalizing buf with
  | exec args => exact foldl_update_apply
  | redir cmd file mode fd ih =>
    rw [nulterminate, Cmd.words]
    by_cases hi : file.eq = i
    · subst hi
      simp
    · simp [ih, hi, Ne.symm hi]
  | pipe left right ihl ihr => rw [nulterminate, Cmd.words, ihr, ihl, clear_append]
  | list left right ihl ihr => rw [nulterminate, Cmd.words, ihr, ihl, clear_append]
  | back cmd ih => exact ih

end

section

variable {s argc : ℕ}

/-- With more depth the parser does the same, unless it had not ended. -/
def Extends (r r' : Except Stop (Cmd × ℕ)) : Prop := r = .error .diverges ∨ r = r'

theorem Extends.bind {r r' : Except Stop (Cmd × ℕ)} {f f' : Cmd × ℕ → Except Stop (Cmd × ℕ)}
    (hr : Extends r r') (hf : ∀ x, Extends (f x) (f' x)) : Extends (r >>= f) (r' >>= f') := by
  rcases hr with rfl | rfl
  · exact .inl rfl
  · cases r with
    | error e => exact .inr rfl
    | ok x => exact hf x

theorem parseredirs_extends : Extends (parseredirs t n cmd s) (parseredirs t (n + 1) cmd s) := by
  induction n generalizing cmd s with
  | zero => exact .inl rfl
  | succ n ih =>
    rw [parseredirs, parseredirs]
    split
    · dsimp only
      split
      · exact .inr rfl
      · exact ih
    · exact .inr rfl

theorem parseargs_extends : Extends (parseargs t n cmd argc s) (parseargs t (n + 1) cmd argc s) := by
  induction n generalizing cmd argc s with
  | zero => exact .inl rfl
  | succ n ih =>
    rw [parseargs, parseargs]
    split
    · exact .inr rfl
    dsimp only
    split_ifs
    · exact .inr rfl
    · exact .inr rfl
    · exact .inr rfl
    · exact parseredirs_extends.bind fun _ => ih

theorem parsebacks_extends : Extends (parsebacks t n cmd s) (parsebacks t (n + 1) cmd s) := by
  induction n generalizing cmd s with
  | zero => exact .inl rfl
  | succ n ih =>
    rw [parsebacks, parsebacks]
    split
    · exact ih
    · exact .inr rfl

theorem parse_extends (n : ℕ) :
    (∀ s, Extends (parseline t n s) (parseline t (n + 1) s)) ∧
      (∀ s, Extends (parsepipe t n s) (parsepipe t (n + 1) s)) ∧
      (∀ s, Extends (parseblock t n s) (parseblock t (n + 1) s)) ∧
      ∀ s, Extends (parseexec t n s) (parseexec t (n + 1) s) := by
  induction n with
  | zero =>
    refine ⟨fun s => .inl ?_, fun s => .inl ?_, fun s => .inl ?_, fun s => .inl ?_⟩
    · rw [parseline]
    · rw [parsepipe]
    · rw [parseblock]
    · rw [parseexec]
  | succ n ih =>
    obtain ⟨hline, hpipe, hblock, hexec⟩ := ih
    refine ⟨fun s => ?_, fun s => ?_, fun s => ?_, fun s => ?_⟩
    · rw [parseline, parseline]
      refine (hpipe s).bind fun _ => parsebacks_extends.bind fun _ => ?_
      dsimp only
      split
      · exact (hline _).bind fun _ => .inr rfl
      · exact .inr rfl
    · rw [parsepipe, parsepipe]
      refine (hexec s).bind fun _ => ?_
      dsimp only
      split
      · exact (hpipe _).bind fun _ => .inr rfl
      · exact .inr rfl
    · rw [parseblock, parseblock]
      split
      · exact .inr rfl
      refine (hline _).bind fun _ => ?_
      dsimp only
      split
      · exact .inr rfl
      · exact parseredirs_extends
    · rw [parseexec, parseexec]
      split
      · exact hblock _
      · exact parseredirs_extends.bind fun _ => parseargs_extends

theorem parseline_mono {x : Cmd × ℕ} {k : ℕ} (h : parseline t n s = .ok x) : parseline t (n + k) s = .ok x := by
  induction k with
  | zero => exact h
  | succ k ih =>
    rcases (parse_extends (t := t) (n + k)).1 s with hdiv | hsame
    · rw [ih] at hdiv
      cases hdiv
    · exact hsame.symm.trans ih

end

theorem derives_of_parsecmd {buf : ℕ → UInt8} (h : parsecmd t n = .ok (cmd, buf)) :
    Derives .line (tokens t) cmd ∧ buf = nulterminate cmd t.byte := by
  cases hline : parseline t n 0 with
  | error e =>
    rw [parsecmd, hline] at h
    cases h
  | ok x =>
    obtain ⟨cmd', s⟩ := x
    rw [parsecmd_eq hline] at h
    split_ifs at h with hnil
    cases h
    have hends := (parse_ends (t := t) (n + (4 * (tokensFrom t 0).length + 4))).1 0 (by omega)
    rw [parseline_mono hline] at hends
    obtain ⟨us, htokens, hderives⟩ := hends
    rw [hnil, List.append_nil] at htokens
    exact ⟨by rwa [show tokens t = us from htokens], rfl⟩

/-- **The words of a command are its strings.** For every input string on which `parsecmd` returns a
command: every argument and every file name in it points to a word of the input, and read as a
string from the input afterwards it is the text of that word. -/
theorem parsecmd_strings {buf : ℕ → UInt8} (h : parsecmd t n = .ok (cmd, buf)) :
    ∀ w ∈ cmd.words, ∃ tok ∈ tokens t, tok.kind = .word ∧ tok.span = w ∧
      StringIs buf w.q (tok.text t) := by
  obtain ⟨hderives, rfl⟩ := derives_of_parsecmd h
  intro w hw
  obtain ⟨tok, htok, hword, rfl⟩ := mem_wordSpans.mp (hderives.words_mem w hw)
  obtain ⟨hle, hinside, -⟩ := word_bytes htok hword
  -- No word ends inside this one.
  have hkeep : ∀ i, tok.q ≤ i → i < tok.eq → ¬∃ w' ∈ cmd.words, w'.eq = i := by
    rintro i hi hi' ⟨w', hw', rfl⟩
    obtain ⟨tok', htok', hword', rfl⟩ := mem_wordSpans.mp (hderives.words_mem w' hw')
    obtain ⟨hlt, hchar⟩ := hinside _ hi hi'
    have hend := (word_bytes htok' hword').2.2 hlt
    rw [Token.span] at hchar
    rw [hchar] at hend
    cases hend
  have hlen : (tok.text t).length = tok.eq - tok.q := by
    rw [Token.text, List.length_take, List.length_drop]
    rcases Nat.eq_or_lt_of_le hle with heq | hlt
    · omega
    · have := (hinside (tok.eq - 1) (by omega) (by omega)).1
      omega
  refine ⟨tok, htok, hword, rfl, fun i hi => ?_, ?_⟩
  · rw [hlen] at hi
    obtain ⟨hlt, -⟩ := hinside (tok.q + i) (by omega) (by omega)
    have hbyte : (tok.text t)[i] = t.byte (tok.q + i) := by
      rw [CString.byte, List.getD_eq_getElem _ _ hlt]
      simp [Token.text]
    rw [nulterminate_apply, if_neg (hkeep _ (by simp [Token.span]) (by simp only [Token.span]; omega)), hbyte]
    exact ⟨rfl, fun hzero => absurd (List.drop_eq_nil_iff.mp (byte_eq_zero.mp hzero)) (by omega)⟩
  · rw [nulterminate_apply, if_pos]
    exact ⟨tok.span, hw, by simp only [Token.span]; omega⟩

/-- The command `a>b`. -/
theorem parsecmd_strings_redirected :
    ∃ cmd buf, parsecmd ⟨[97, GREATER, 98], by decide⟩ 16 = .ok (cmd, buf) ∧
      ∀ w ∈ cmd.words, ∃ tok ∈ tokens ⟨[97, GREATER, 98], by decide⟩, tok.kind = .word ∧ tok.span = w ∧
        StringIs buf w.q (tok.text ⟨[97, GREATER, 98], by decide⟩) := by
  have hparse : ∃ buf, parsecmd ⟨[97, GREATER, 98], by decide⟩ 16 =
      .ok (.redir (.exec [⟨0, 1⟩]) ⟨2, 3⟩ (O_WRONLY ||| O_CREATE) 1, buf) := ⟨_, rfl⟩
  obtain ⟨buf, hbuf⟩ := hparse
  exact ⟨_, buf, hbuf, parsecmd_strings hbuf⟩

end KThreads.Shell
