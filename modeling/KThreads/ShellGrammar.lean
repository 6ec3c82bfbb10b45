import KThreads.Shell.Parser

/-!
# The shell's parser and its grammar

The parser ends on every input, with a panic or with a command that the grammar derives for the
tokens it has taken; and a command that the grammar derives is found. The grammar can be parsed
with one token of look-ahead: what follows a line, a pipe or a simple command never begins with a
symbol that could continue it.
-/

namespace KThreads.Shell

variable {t : CString} {n s argc : ℕ} {cmd ret : Cmd} {tok : Token} {us rest : List Token}
  {k : Kind} {c : UInt8} {r : Except Stop (Cmd × ℕ)} {f : Cmd × ℕ → Except Stop (Cmd × ℕ)}
  {P Q : Cmd → ℕ → Prop}

/-! The parser sees of a position only the tokens from there on: what one round of each function does
with them. -/

@[simp] theorem headKind_nil : headKind [] = none := rfl

@[simp] theorem headKind_cons : headKind (tok :: rest) = some tok.kind := rfl

/-- The symbols of a redirection. -/
def Kind.opensFile (k : Kind) : Bool := k.among [LESS, GREATER]

/-- The symbols that end a simple command. -/
def Kind.endsExec (k : Kind) : Bool := k.among [BAR, RPAREN, AMP, SEMI]

theorem among_iff {k k' : Kind} (hk : symbolKind c = some k) (hc : c ≠ GREATER) :
    k'.among [c] = true ↔ k' = k := by
  rw [symbolKind] at hk
  split_ifs at hk <;> cases hk <;> subst c <;> first | exact absurd rfl hc | cases k' <;> decide

theorem singleton_subset (hk : symbolKind c = some k) : [c] ⊆ symbols := by
  simpa using (first_of_symbolKind hk).2.2

theorem take_symbol (hk : symbolKind c = some k) (hc : c ≠ GREATER)
    (htok : tokensFrom t s = tok :: rest) (hkind : tok.kind = k) :
    (peek t [c] s).1 = true ∧ tokensFrom t (gettoken t (peek t [c] s).2).ps = rest := by
  obtain ⟨hpeek, hsame⟩ := peek_spec (t := t) (s := s) (singleton_subset hk)
  rw [htok] at hpeek hsame
  have hyes : tok.kind.among [c] = true := (among_iff hk hc).mpr hkind
  exact ⟨by rw [hpeek, headKind_cons, Option.any_some, hyes], (gettoken_cons hsame).2.2.2⟩

theorem leave_symbol (hk : symbolKind c = some k) (hc : c ≠ GREATER)
    (hkind : headKind (tokensFrom t s) ≠ some k) :
    (peek t [c] s).1 = false ∧ tokensFrom t (peek t [c] s).2 = tokensFrom t s := by
  obtain ⟨hpeek, hsame⟩ := peek_spec (t := t) (s := s) (singleton_subset hk)
  refine ⟨hpeek.trans ?_, hsame⟩
  cases hhead : headKind (tokensFrom t s) with
  | none => rfl
  | some k' =>
    rw [hhead] at hkind
    exact Bool.eq_false_iff.mpr fun h => hkind (congrArg some ((among_iff hk hc).mp h))

theorem ret_eq_word : tok.kind.code = 97 ↔ tok.kind = .word := by
  cases tok.kind <;> decide

theorem code_ne_zero : tok.kind.code ≠ 0 := by
  cases tok.kind <;> decide

theorem redir_symbols : [LESS, GREATER] ⊆ symbols := by decide

theorem end_symbols : [BAR, RPAREN, AMP, SEMI] ⊆ symbols := by decide

theorem paren_symbol : [LPAREN] ⊆ symbols := by decide

theorem parseredirs_stop (h : (headKind (tokensFrom t s)).any Kind.opensFile = false) :
    ∃ s', tokensFrom t s' = tokensFrom t s ∧ parseredirs t (n + 1) cmd s = .ok (cmd, s') := by
  obtain ⟨hpeek, hsame⟩ := peek_spec (t := t) (s := s) redir_symbols
  have hno : (peek t [LESS, GREATER] s).1 = false := hpeek.trans h
  exact ⟨_, hsame, by rw [parseredirs, hno]; rfl⟩

theorem parseredirs_file {op file : Token} {r : Redirection}
    (htok : tokensFrom t s = op :: file :: rest) (hop : op.kind.redirection file.span = some r)
    (hfile : file.kind = .word) :
    ∃ s', tokensFrom t s' = rest ∧
      parseredirs t (n + 1) cmd s = parseredirs t n (.redir cmd r.file r.mode r.fd) s' := by
  obtain ⟨hpeek, hsame⟩ := peek_spec (t := t) (s := s) redir_symbols
  rw [htok] at hpeek hsame
  obtain ⟨hret, -, -, hnext⟩ := gettoken_cons hsame
  obtain ⟨hword, hq, heq, hrest⟩ := gettoken_cons hnext
  have hyes : (peek t [LESS, GREATER] s).1 = true ∧
      redirected cmd op.kind.code file.span = .redir cmd r.file r.mode r.fd := by
    rw [hpeek]
    cases hk : op.kind <;> rw [hk] at hop <;> cases hop <;> exact ⟨by simp [hk]; decide, rfl⟩
  refine ⟨_, hrest, ?_⟩
  rw [parseredirs, if_pos hyes.1]
  dsimp only
  rw [hword, hret, hq, heq, if_neg (not_not.mpr (ret_eq_word.mpr hfile))]
  exact congrArg (parseredirs t n · _) hyes.2

theorem parseredirs_panic {op : Token} (htok : tokensFrom t s = op :: rest)
    (hop : op.kind.opensFile = true) (hrest : headKind rest ≠ some .word) :
    parseredirs t (n + 1) cmd s = .error (.panic "missing file for redirection") := by
  obtain ⟨hpeek, hsame⟩ := peek_spec (t := t) (s := s) redir_symbols
  rw [htok] at hpeek hsame
  obtain ⟨-, -, -, hnext⟩ := gettoken_cons hsame
  have hfile : (gettoken t (gettoken t (peek t [LESS, GREATER] s).2).ps).ret ≠ 97 := by
    cases rest with
    | nil =>
      rw [(gettoken_nil hnext).1]
      decide
    | cons file rest =>
      rw [(gettoken_cons hnext).1]
      exact fun h => hrest (congrArg some (ret_eq_word.mp h))
  rw [parseredirs, if_pos (hpeek.trans hop)]
  exact if_pos hfile

theorem parseargs_stop
    (h : tokensFrom t s = [] ∨ (headKind (tokensFrom t s)).any Kind.endsExec = true) :
    ∃ s', tokensFrom t s' = tokensFrom t s ∧ parseargs t (n + 1) ret argc s = .ok (ret, s') := by
  obtain ⟨hpeek, hsame⟩ := peek_spec (t := t) (s := s) end_symbols
  rcases h with hnil | hend
  · rw [hnil] at hpeek hsame
    obtain ⟨hret, hps⟩ := gettoken_nil hsame
    refine ⟨_, hps.trans hnil.symm, ?_⟩
    rw [parseargs, hpeek]
    exact if_pos hret
  · exact ⟨_, hsame, by rw [parseargs, if_pos (hpeek.trans hend)]⟩

theorem parseargs_word (htok : tokensFrom t s = tok :: rest) (hword : tok.kind = .word) :
    ∃ s', tokensFrom t s' = rest ∧ parseargs t (n + 1) ret argc s =
      if argc + 1 ≥ MAXARGS then .error (.panic "too many args")
      else parseredirs t n (ret.addArg tok.span) s' >>= fun x => parseargs t n x.1 (argc + 1) x.2 := by
  obtain ⟨hpeek, hsame⟩ := peek_spec (t := t) (s := s) end_symbols
  rw [htok] at hpeek hsame
  obtain ⟨hret, hq, heq, hrest⟩ := gettoken_cons hsame
  have hno : (peek t [BAR, RPAREN, AMP, SEMI] s).1 = false := by
    rw [hpeek, headKind_cons, hword]
    decide
  refine ⟨_, hrest, ?_⟩
  rw [parseargs, hno]
  dsimp only
  rw [if_neg Bool.false_ne_true, hret, if_neg code_ne_zero, if_neg (not_not.mpr (ret_eq_word.mpr hword)), hq, heq]
  rfl

theorem parseargs_panic (htok : tokensFrom t s = tok :: rest) (hword : tok.kind ≠ .word)
    (hend : tok.kind.endsExec = false) :
    parseargs t (n + 1) ret argc s = .error (.panic "syntax") := by
  obtain ⟨hpeek, hsame⟩ := peek_spec (t := t) (s := s) end_symbols
  rw [htok] at hpeek hsame
  have hno : (peek t [BAR, RPAREN, AMP, SEMI] s).1 = false := hpeek.trans hend
  rw [parseargs, hno]
  dsimp only
  rw [if_neg Bool.false_ne_true, (gettoken_cons hsame).1, if_neg code_ne_zero,
    if_pos fun h => hword (ret_eq_word.mp h)]

theorem parsebacks_amp (htok : tokensFrom t s = tok :: rest) (hamp : tok.kind = .amp) :
    ∃ s', tokensFrom t s' = rest ∧ parsebacks t (n + 1) cmd s = parsebacks t n (.back cmd) s' := by
  obtain ⟨hpeek, hrest⟩ := take_symbol (c := AMP) rfl (by decide) htok hamp
  exact ⟨_, hrest, by rw [parsebacks, if_pos hpeek]⟩

theorem parsebacks_stop (h : headKind (tokensFrom t s) ≠ some .amp) :
    ∃ s', tokensFrom t s' = tokensFrom t s ∧ parsebacks t (n + 1) cmd s = .ok (cmd, s') := by
  obtain ⟨hpeek, hsame⟩ := leave_symbol (c := AMP) rfl (by decide) h
  exact ⟨_, hsame, by rw [parsebacks, hpeek]; rfl⟩

section

variable {rs rs' : List Redirection} {ws : List Span} {w : Span}

theorem wrap_append : wrap (rs ++ rs') cmd = wrap rs' (wrap rs cmd) := List.foldl_append

theorem addArg_wrap : (wrap rs (.exec ws)).addArg w = wrap rs (.exec (ws ++ [w])) := by
  have hadd : ∀ c : Cmd, (wrap rs c).addArg w = wrap rs (c.addArg w) := by
    induction rs with
    | nil => exact fun c => rfl
    | cons r rs ih => exact fun c => ih (.redir c r.file r.mode r.fd)
  exact hadd (.exec ws)

theorem opensFile_iff {file : Span} :
    k.opensFile = true ↔ ∃ r, k.redirection file = some r := by
  cases k <;> simp [Kind.opensFile, Kind.among, Kind.first, Kind.redirection] <;> decide

theorem headKind_eq_some : headKind us = some k ↔ ∃ tok rest, us = tok :: rest ∧ tok.kind = k := by
  cases us with
  | nil => simp
  | cons tok rest => simp

end

/-- The parser panics, or it returns a command and a position with this property. -/
def Ends (r : Except Stop (Cmd × ℕ)) (P : Cmd → ℕ → Prop) : Prop :=
  match r with
  | .ok (cmd, s) => P cmd s
  | .error (.panic _) => True
  | .error .diverges => False

theorem Ends.bind
    (hr : Ends r P) (hf : ∀ cmd s, P cmd s → Ends (f (cmd, s)) Q) :
    Ends (r >>= f) Q := by
  match r, hr with
  | .ok (cmd, s), hr => exact hf cmd s hr
  | .error (.panic _), _ => trivial

theorem Ends.mono (hr : Ends r P)
    (hPQ : ∀ cmd s, P cmd s → Q cmd s) : Ends r Q := by
  match r, hr with
  | .ok (cmd, s), hr => exact hPQ cmd s hr
  | .error (.panic _), _ => trivial

theorem parseredirs_ends (hn : (tokensFrom t s).length < n) :
    Ends (parseredirs t n cmd s) fun cmd' s' => ∃ us rs,
      tokensFrom t s = us ++ tokensFrom t s' ∧ Redirs us rs ∧ cmd' = wrap rs cmd := by
  induction n generalizing cmd s with
  | zero => exact absurd hn (Nat.not_lt_zero _)
  | succ n ih =>
    by_cases hop : (headKind (tokensFrom t s)).any Kind.opensFile = true
    · obtain ⟨k, hk, hopens⟩ := Option.any_eq_true _ _ |>.mp hop
      obtain ⟨op, tail, htok, rfl⟩ := headKind_eq_some.mp hk
      by_cases hfile : headKind tail = some .word
      · obtain ⟨file, rest, rfl, hword⟩ := headKind_eq_some.mp hfile
        obtain ⟨r, hr⟩ := opensFile_iff.mp hopens
        obtain ⟨s₁, hs₁, heq⟩ := parseredirs_file (n := n) htok hr hword
        rw [htok, List.length_cons, List.length_cons] at hn
        rw [heq]
        refine (ih (by rw [hs₁]; omega)).mono ?_
        rintro cmd' s' ⟨us, rs, htokens, hredirs, rfl⟩
        exact ⟨op :: file :: us, r :: rs, by rw [htok, ← hs₁, htokens]; rfl, .cons hr hword hredirs, rfl⟩
      · rw [parseredirs_panic htok hopens hfile]
        trivial
    · obtain ⟨s', hs', heq⟩ := parseredirs_stop (n := n) (Bool.eq_false_iff.mpr hop)
      rw [heq]
      exact ⟨[], [], hs'.symm, .nil, rfl⟩

theorem parseargs_ends {rs₀ : List Redirection} {ws₀ : List Span} (hn : (tokensFrom t s).length < n)
    (hargc : ws₀.length ≤ MAXARGS - 1) :
    Ends (parseargs t n (wrap rs₀ (.exec ws₀)) ws₀.length s) fun cmd' s' => ∃ us ws rs,
      tokensFrom t s = us ++ tokensFrom t s' ∧ Words us ws rs ∧
      cmd' = wrap (rs₀ ++ rs) (.exec (ws₀ ++ ws)) ∧ (ws₀ ++ ws).length ≤ MAXARGS - 1 := by
  induction n generalizing rs₀ ws₀ s with
  | zero => exact absurd hn (Nat.not_lt_zero _)
  | succ n ih =>
    have hstop (h : tokensFrom t s = [] ∨ (headKind (tokensFrom t s)).any Kind.endsExec = true) :
        Ends (parseargs t (n + 1) (wrap rs₀ (.exec ws₀)) ws₀.length s) fun cmd' s' => ∃ us ws rs,
          tokensFrom t s = us ++ tokensFrom t s' ∧ Words us ws rs ∧
          cmd' = wrap (rs₀ ++ rs) (.exec (ws₀ ++ ws)) ∧ (ws₀ ++ ws).length ≤ MAXARGS - 1 := by
      obtain ⟨s', hs', heq⟩ := parseargs_stop (n := n) h
      rw [heq]
      exact ⟨[], [], [], hs'.symm, .nil, by simp, by simpa using hargc⟩
    cases htok : tokensFrom t s with
    | nil =>
      rw [htok] at hstop
      exact hstop (.inl rfl)
    | cons tok rest =>
      rw [htok] at hstop hn
      by_cases hword : tok.kind = .word
      · obtain ⟨s₁, hs₁, heq⟩ :=
          parseargs_word (n := n) htok hword
        rw [heq]
        split_ifs with hmany
        · trivial
        rw [addArg_wrap]
        rw [List.length_cons] at hn
        refine (parseredirs_ends (by rw [hs₁]; omega)).bind ?_
        rintro _ s₂ ⟨us, rs, htokens, hredirs, rfl⟩
        have hlen : (tokensFrom t s₂).length ≤ rest.length := by
          rw [← hs₁, htokens, List.length_append]
          omega
        dsimp only
        rw [← wrap_append, show ws₀.length + 1 = (ws₀ ++ [tok.span]).length by simp]
        refine (ih (by omega) (by rw [List.length_append, List.length_singleton]; omega)).mono ?_
        rintro _ s₃ ⟨vs, ws, rs', htokens', hwords, rfl, hmax⟩
        refine ⟨tok :: (us ++ vs), tok.span :: ws, rs ++ rs', ?_, .cons hword hredirs hwords, ?_, ?_⟩
        · rw [← hs₁, htokens, htokens', List.cons_append, List.append_assoc]
        · rw [List.append_assoc, List.append_assoc]
          rfl
        · rwa [List.append_assoc] at hmax
      · by_cases hend : tok.kind.endsExec = true
        · exact hstop (.inr hend)
        · rw [parseargs_panic htok hword (Bool.eq_false_iff.mpr hend)]
          trivial

theorem parsebacks_ends (hn : (tokensFrom t s).length < n) :
    Ends (parsebacks t n cmd s) fun cmd' s' => ∃ amps,
      tokensFrom t s = amps ++ tokensFrom t s' ∧ (∀ a ∈ amps, a.kind = .amp) ∧
      cmd' = Cmd.back^[amps.length] cmd := by
  induction n generalizing cmd s with
  | zero => exact absurd hn (Nat.not_lt_zero _)
  | succ n ih =>
    by_cases hamp : headKind (tokensFrom t s) = some .amp
    · obtain ⟨tok, rest, htok, hkind⟩ := headKind_eq_some.mp hamp
      obtain ⟨s₁, rfl, heq⟩ := parsebacks_amp (n := n) htok hkind
      rw [htok, List.length_cons] at hn
      rw [heq]
      refine (ih (by omega)).mono ?_
      rintro _ s' ⟨amps, htokens, hamps, rfl⟩
      refine ⟨tok :: amps, by rw [htok, htokens]; rfl, ?_, rfl⟩
      intro a ha
      rcases List.mem_cons.mp ha with rfl | ha
      · exact hkind
      · exact hamps a ha
    · obtain ⟨s', hs', heq⟩ := parsebacks_stop (n := n) hamp
      rw [heq]
      exact ⟨[], hs'.symm, nofun, rfl⟩

/-- The tokens up to the new position derive the command. -/
def Took (t : CString) (X : Nonterminal) (s : ℕ) (cmd : Cmd) (s' : ℕ) : Prop :=
  ∃ us, tokensFrom t s = us ++ tokensFrom t s' ∧ Derives X us cmd

theorem Took.length_le {X : Nonterminal} {s' : ℕ} (h : Took t X s cmd s') :
    (tokensFrom t s').length ≤ (tokensFrom t s).length := by
  obtain ⟨us, htokens, -⟩ := h
  rw [htokens, List.length_append]
  omega

theorem parseblock_ends (hblock : headKind (tokensFrom t s) = some .lparen)
    (hn : 4 * (tokensFrom t s).length + 1 ≤ n + 1)
    (hline : ∀ s, 4 * (tokensFrom t s).length + 4 ≤ n → Ends (parseline t n s) (Took t .line s)) :
    Ends (parseblock t (n + 1) s) (Took t .exec s) := by
  obtain ⟨left, rest, htok, hleft⟩ := headKind_eq_some.mp hblock
  obtain ⟨hpeek, hrest⟩ := take_symbol (c := LPAREN) rfl (by decide) htok hleft
  rw [htok, List.length_cons] at hn
  rw [parseblock, hpeek]
  refine (hline _ (by rw [hrest]; omega)).bind ?_
  intro cmd s₁ htook
  have hle := htook.length_le
  obtain ⟨us, htokens, hderives⟩ := htook
  by_cases hclose : headKind (tokensFrom t s₁) = some .rparen
  · obtain ⟨right, rest', htok', hright⟩ := headKind_eq_some.mp hclose
    obtain ⟨hpeek', hrest'⟩ := take_symbol (c := RPAREN) rfl (by decide) htok' hright
    rw [htok', hrest, List.length_cons] at hle
    dsimp only
    rw [hpeek']
    refine (parseredirs_ends (by rw [hrest']; omega)).mono ?_
    rintro _ s₂ ⟨vs, rs, htokens', hredirs, rfl⟩
    refine ⟨left :: (us ++ right :: vs), ?_, .block hleft hderives hright hredirs⟩
    rw [htok, ← hrest, htokens, htok', ← hrest', htokens', List.cons_append, List.append_assoc,
      List.cons_append]
  · dsimp only
    rw [(leave_symbol (c := RPAREN) rfl (by decide) hclose).1]
    trivial

theorem parseexec_ends (hn : 4 * (tokensFrom t s).length + 2 ≤ n + 1)
    (hblock : ∀ s, headKind (tokensFrom t s) = some .lparen → 4 * (tokensFrom t s).length + 1 ≤ n →
      Ends (parseblock t n s) (Took t .exec s)) :
    Ends (parseexec t (n + 1) s) (Took t .exec s) := by
  rw [parseexec]
  by_cases hopen : headKind (tokensFrom t s) = some .lparen
  · obtain ⟨left, rest, htok, hleft⟩ := headKind_eq_some.mp hopen
    have hsame := (peek_spec (t := t) (s := s) paren_symbol).2
    rw [if_pos (take_symbol (c := LPAREN) rfl (by decide) htok hleft).1]
    refine (hblock _ (by rwa [hsame]) (by rw [hsame]; omega)).mono ?_
    rintro cmd s' ⟨us, htokens, hderives⟩
    exact ⟨us, hsame.symm.trans htokens, hderives⟩
  · obtain ⟨hpeek, hsame⟩ := leave_symbol (c := LPAREN) rfl (by decide) hopen
    rw [hpeek, if_neg Bool.false_ne_true]
    refine (parseredirs_ends (by rw [hsame]; omega)).bind ?_
    rintro _ s₁ ⟨us, rs, htokens, hredirs, rfl⟩
    have hlen : (tokensFrom t s).length = us.length + (tokensFrom t s₁).length := by
      rw [← hsame, htokens, List.length_append]
    dsimp only
    refine (parseargs_ends (by omega) (Nat.zero_le _)).mono ?_
    rintro _ s₂ ⟨vs, ws, rs', htokens', hwords, rfl, hmax⟩
    refine ⟨us ++ vs, ?_, .simple hredirs hwords hmax⟩
    rw [← hsame, htokens, htokens', List.append_assoc]

theorem parsepipe_ends (hn : 4 * (tokensFrom t s).length + 3 ≤ n + 1)
    (hexec : ∀ s, 4 * (tokensFrom t s).length + 2 ≤ n → Ends (parseexec t n s) (Took t .exec s))
    (hpipe : ∀ s, 4 * (tokensFrom t s).length + 3 ≤ n → Ends (parsepipe t n s) (Took t .pipe s)) :
    Ends (parsepipe t (n + 1) s) (Took t .pipe s) := by
  rw [parsepipe]
  refine (hexec s (by omega)).bind ?_
  intro cmd s₁ htook
  have hle := htook.length_le
  obtain ⟨us, htokens, hderives⟩ := htook
  dsimp only
  by_cases hbar : headKind (tokensFrom t s₁) = some .bar
  · obtain ⟨bar, rest, htok, hkind⟩ := headKind_eq_some.mp hbar
    obtain ⟨hpeek, hrest⟩ := take_symbol (c := BAR) rfl (by decide) htok hkind
    rw [htok, List.length_cons] at hle
    rw [hpeek, if_pos rfl]
    refine (hpipe _ (by rw [hrest]; omega)).bind ?_
    rintro right s₂ ⟨vs, htokens', hderives'⟩
    refine ⟨us ++ bar :: vs, ?_, .pipes hderives hkind hderives'⟩
    rw [htokens, htok, ← hrest, htokens', List.append_assoc, List.cons_append]
  · obtain ⟨hpeek, hsame⟩ := leave_symbol (c := BAR) rfl (by decide) hbar
    rw [hpeek, if_neg Bool.false_ne_true]
    exact ⟨us, by rw [htokens, hsame], .pipe hderives⟩

theorem parseline_ends (hn : 4 * (tokensFrom t s).length + 4 ≤ n + 1)
    (hpipe : ∀ s, 4 * (tokensFrom t s).length + 3 ≤ n → Ends (parsepipe t n s) (Took t .pipe s))
    (hline : ∀ s, 4 * (tokensFrom t s).length + 4 ≤ n → Ends (parseline t n s) (Took t .line s)) :
    Ends (parseline t (n + 1) s) (Took t .line s) := by
  rw [parseline]
  refine (hpipe s (by omega)).bind ?_
  intro cmd s₁ htook
  have hle := htook.length_le
  obtain ⟨us, htokens, hderives⟩ := htook
  dsimp only
  refine (parsebacks_ends (by omega)).bind ?_
  rintro _ s₂ ⟨amps, hamptokens, hamps, rfl⟩
  have hlen : (tokensFrom t s₁).length = amps.length + (tokensFrom t s₂).length := by
    rw [← List.length_append]
    exact congrArg List.length hamptokens
  dsimp only
  by_cases hsemi : headKind (tokensFrom t s₂) = some .semi
  · obtain ⟨semi, rest, htok, hkind⟩ := headKind_eq_some.mp hsemi
    obtain ⟨hpeek, hrest⟩ := take_symbol (c := SEMI) rfl (by decide) htok hkind
    rw [htok, List.length_cons] at hlen
    rw [hpeek, if_pos rfl]
    refine (hline _ (by rw [hrest]; omega)).bind ?_
    rintro right s₃ ⟨vs, htokens', hderives'⟩
    refine ⟨us ++ amps ++ semi :: vs, ?_, .lines hderives hamps hkind hderives'⟩
    rw [htokens, hamptokens, htok, ← hrest, htokens', List.append_assoc, List.append_assoc, List.cons_append]
  · obtain ⟨hpeek, hsame⟩ := leave_symbol (c := SEMI) rfl (by decide) hsemi
    rw [hpeek, if_neg Bool.false_ne_true]
    exact ⟨us ++ amps, by rw [htokens, hamptokens, hsame, List.append_assoc], .line hderives hamps⟩

theorem parse_ends (n : ℕ) :
    (∀ s, 4 * (tokensFrom t s).length + 4 ≤ n → Ends (parseline t n s) (Took t .line s)) ∧
      (∀ s, 4 * (tokensFrom t s).length + 3 ≤ n → Ends (parsepipe t n s) (Took t .pipe s)) ∧
      (∀ s, 4 * (tokensFrom t s).length + 2 ≤ n → Ends (parseexec t n s) (Took t .exec s)) ∧
      ∀ s, headKind (tokensFrom t s) = some .lparen → 4 * (tokensFrom t s).length + 1 ≤ n →
        Ends (parseblock t n s) (Took t .exec s) := by
  induction n with
  | zero =>
    refine ⟨fun s h => ?_, fun s h => ?_, fun s h => ?_, fun s _ h => ?_⟩ <;> exact absurd h (Nat.not_succ_le_zero _)
  | succ n ih =>
    obtain ⟨hline, hpipe, hexec, hblock⟩ := ih
    exact ⟨fun s h => parseline_ends h hpipe hline, fun s h => parsepipe_ends h hexec hpipe,
      fun s h => parseexec_ends h hblock, fun s hopen h => parseblock_ends hopen h hline⟩

section

variable {vs : List Token} {rs rs₀ : List Redirection} {ws ws₀ : List Span} {X : Nonterminal}

theorem ok_bind {x : Cmd × ℕ} :
    (Except.ok x >>= f) = f x := rfl

theorem parseredirs_finds (hredirs : Redirs us rs) (htok : tokensFrom t s = us ++ rest)
    (hrest : (headKind rest).any Kind.opensFile = false) (hn : (us ++ rest).length < n) :
    ∃ s', tokensFrom t s' = rest ∧ parseredirs t n cmd s = .ok (wrap rs cmd, s') := by
  induction hredirs generalizing n s cmd with
  | nil =>
    obtain ⟨n, rfl⟩ := Nat.exists_eq_add_one_of_ne_zero (by omega : n ≠ 0)
    rw [List.nil_append] at htok
    obtain ⟨s', hs', heq⟩ := parseredirs_stop (n := n) (by rwa [htok])
    exact ⟨s', hs'.trans htok, heq⟩
  | cons hop hword _ ih =>
    obtain ⟨n, rfl⟩ := Nat.exists_eq_add_one_of_ne_zero (by omega : n ≠ 0)
    obtain ⟨s₁, hs₁, heq⟩ := parseredirs_file (n := n) htok hop hword
    simp only [List.cons_append, List.length_cons] at hn
    obtain ⟨s', hs', hfinds⟩ := ih (n := n) hs₁ (by omega)
    exact ⟨s', hs', heq.trans hfinds⟩

/-- What may follow in the grammar. -/
def Nonterminal.follows : Nonterminal → Kind → Bool
  | line, k => k.among [RPAREN]
  | pipe, k => k.among [RPAREN, AMP, SEMI]
  | exec, k => k.among [RPAREN, AMP, SEMI, BAR]

/-- Nothing follows, or something that may. -/
def Follow (X : Nonterminal) (rest : List Token) : Prop := ∀ k ∈ headKind rest, X.follows k = true

theorem follow_nil : Follow X [] := nofun

theorem follow_cons : Follow X (tok :: rest) ↔ X.follows tok.kind = true := by
  simp [Follow]

theorem Follow.exec_cases (h : Follow .exec rest) :
    (rest = [] ∨ (headKind rest).any Kind.endsExec = true) ∧
      (headKind rest).any Kind.opensFile = false ∧ headKind rest ≠ some .lparen := by
  cases rest with
  | nil => exact ⟨.inl rfl, rfl, nofun⟩
  | cons tok rest =>
    rw [follow_cons] at h
    simp only [headKind_cons, Option.any_some, reduceCtorEq, false_or, ne_eq, Option.some.injEq]
    generalize tok.kind = k at h
    cases k <;> first | exact absurd h (by decide) | exact ⟨by decide, by decide, by decide⟩

theorem Follow.of_line (h : Follow .line rest) :
    Follow .pipe rest ∧ headKind rest ≠ some .amp ∧ headKind rest ≠ some .semi := by
  cases rest with
  | nil => exact ⟨follow_nil, nofun, nofun⟩
  | cons tok rest =>
    rw [follow_cons] at h ⊢
    simp only [headKind_cons, ne_eq, Option.some.injEq]
    generalize tok.kind = k at h
    cases k <;> first | exact absurd h (by decide) | exact ⟨by decide, by decide, by decide⟩

theorem Follow.of_pipe (h : Follow .pipe rest) : Follow .exec rest ∧ headKind rest ≠ some .bar := by
  cases rest with
  | nil => exact ⟨follow_nil, nofun⟩
  | cons tok rest =>
    rw [follow_cons] at h ⊢
    simp only [headKind_cons, ne_eq, Option.some.injEq]
    generalize tok.kind = k at h
    cases k <;> first | exact absurd h (by decide) | exact ⟨by decide, by decide⟩

theorem Follow.amps {amps : List Token} (h : Follow .pipe rest) (hamps : ∀ a ∈ amps, a.kind = .amp) :
    Follow .pipe (amps ++ rest) := by
  cases amps with
  | nil => exact h
  | cons a amps =>
    rw [List.cons_append, follow_cons, hamps a List.mem_cons_self]
    decide

theorem Words.headKind_append (hwords : Words us ws rs) (hrest : Follow .exec rest) :
    (headKind (us ++ rest)).any Kind.opensFile = false ∧ headKind (us ++ rest) ≠ some .lparen := by
  cases hwords with
  | nil => exact hrest.exec_cases.2
  | cons hword => simp [hword, Kind.opensFile, Kind.among, Kind.first]

theorem Redirs.headKind_append (hredirs : Redirs us rs) (hrest : headKind rest ≠ some .lparen) :
    headKind (us ++ rest) ≠ some .lparen := by
  cases hredirs with
  | nil => exact hrest
  | @cons op file r us rs hop =>
    rw [List.cons_append, headKind_cons]
    intro h
    rw [Option.some.inj h] at hop
    cases hop

theorem parseargs_finds (hwords : Words us ws rs) (htok : tokensFrom t s = us ++ rest)
    (hrest : Follow .exec rest) (hmax : (ws₀ ++ ws).length ≤ MAXARGS - 1)
    (hn : (us ++ rest).length < n) :
    ∃ s', tokensFrom t s' = rest ∧ parseargs t n (wrap rs₀ (.exec ws₀)) ws₀.length s =
      .ok (wrap (rs₀ ++ rs) (.exec (ws₀ ++ ws)), s') := by
  induction hwords generalizing n s rs₀ ws₀ with
  | nil =>
    obtain ⟨n, rfl⟩ := Nat.exists_eq_add_one_of_ne_zero (by omega : n ≠ 0)
    rw [List.nil_append] at htok
    obtain ⟨s', hs', heq⟩ := parseargs_stop (n := n)
      (by rw [htok]; exact hrest.exec_cases.1)
    refine ⟨s', hs'.trans htok, ?_⟩
    rw [heq, List.append_nil, List.append_nil]
  | @cons w us vs ws rs rs' hword hredirs hwords ih =>
    obtain ⟨n, rfl⟩ := Nat.exists_eq_add_one_of_ne_zero (by omega : n ≠ 0)
    rw [List.cons_append, List.append_assoc] at htok
    obtain ⟨s₁, hs₁, heq⟩ :=
      parseargs_word (n := n) htok hword
    simp only [List.length_append, List.length_cons, List.cons_append] at hmax hn
    obtain ⟨s₂, hs₂, hfiles⟩ := parseredirs_finds (n := n) hredirs hs₁
      (hwords.headKind_append hrest).1 (by simp only [List.length_append]; omega)
    obtain ⟨s₃, hs₃, hfinds⟩ := @ih n s₂ (rs₀ ++ rs) (ws₀ ++ [w.span]) hs₂
      (by simp only [List.length_append, List.length_singleton]; omega)
      (by simp only [List.length_append]; omega)
    refine ⟨s₃, hs₃, ?_⟩
    rw [heq, if_neg (by omega), addArg_wrap, hfiles, ok_bind]
    dsimp only
    rw [List.length_append, List.length_singleton, List.append_assoc ws₀, List.append_assoc rs₀] at hfinds
    rw [← wrap_append]
    exact hfinds

theorem parsebacks_finds {amps : List Token} (hamps : ∀ a ∈ amps, a.kind = .amp)
    (htok : tokensFrom t s = amps ++ rest) (hrest : headKind rest ≠ some .amp)
    (hn : (amps ++ rest).length < n) :
    ∃ s', tokensFrom t s' = rest ∧ parsebacks t n cmd s = .ok (Cmd.back^[amps.length] cmd, s') := by
  induction amps generalizing n s cmd with
  | nil =>
    obtain ⟨n, rfl⟩ := Nat.exists_eq_add_one_of_ne_zero (by omega : n ≠ 0)
    rw [List.nil_append] at htok
    obtain ⟨s', hs', heq⟩ := parsebacks_stop (n := n) (by rwa [htok])
    exact ⟨s', hs'.trans htok, heq⟩
  | cons a amps ih =>
    obtain ⟨n, rfl⟩ := Nat.exists_eq_add_one_of_ne_zero (by omega : n ≠ 0)
    obtain ⟨s₁, hs₁, heq⟩ := parsebacks_amp (n := n) htok (hamps a List.mem_cons_self)
    rw [List.cons_append, List.length_cons] at hn
    obtain ⟨s', hs', hfinds⟩ :=
      ih (n := n) (fun b hb => hamps b (List.mem_cons_of_mem a hb)) hs₁ (by omega)
    exact ⟨s', hs', heq.trans hfinds⟩

/-- The function for a nonterminal, and a depth that suffices for it. -/
def parse (t : CString) : Nonterminal → ℕ → ℕ → Except Stop (Cmd × ℕ)
  | .line => parseline t
  | .pipe => parsepipe t
  | .exec => parseexec t

def Nonterminal.depth : Nonterminal → ℕ → ℕ
  | line, len => 4 * len + 4
  | pipe, len => 4 * len + 3
  | exec, len => 4 * len + 2

/-- Wherever the parser meets these tokens, and behind them something that may follow, it returns this
command and stops behind them. -/
def Finds (t : CString) (X : Nonterminal) (us : List Token) (cmd : Cmd) : Prop :=
  ∀ s rest n, tokensFrom t s = us ++ rest → Follow X rest → X.depth (us ++ rest).length ≤ n →
    ∃ s', tokensFrom t s' = rest ∧ parse t X n s = .ok (cmd, s')

theorem Finds.line {amps : List Token} (ih : Finds t .pipe us cmd) (hamps : ∀ a ∈ amps, a.kind = .amp) :
    Finds t .line (us ++ amps) (Cmd.back^[amps.length] cmd) := by
  intro s rest n htok hrest hn
  obtain ⟨hfollow, hamp, hsemi⟩ := hrest.of_line
  obtain ⟨n, rfl⟩ := Nat.exists_eq_add_one_of_ne_zero (by simp only [Nonterminal.depth] at hn; omega : n ≠ 0)
  simp only [Nonterminal.depth, List.append_assoc, List.length_append] at htok hn
  have hnext := hfollow.amps hamps
  obtain ⟨s₁, hs₁, hpipe⟩ :=
    ih s _ n htok hnext (by simp only [Nonterminal.depth, List.length_append]; omega)
  obtain ⟨s₂, hs₂, hback⟩ :=
    parsebacks_finds (n := n) hamps hs₁ hamp (by simp only [List.length_append]; omega)
  rw [← hs₂] at hsemi
  obtain ⟨hpeek, hsame⟩ := leave_symbol (c := SEMI) rfl (by decide) hsemi
  refine ⟨_, hsame.trans hs₂, ?_⟩
  simp only [parse] at hpipe ⊢
  rw [parseline, hpipe, ok_bind]
  dsimp only
  rw [hback, ok_bind]
  dsimp only
  rw [hpeek]
  rfl

theorem Finds.lines {amps : List Token} {semi : Token} {right : Cmd} (ih : Finds t .pipe us cmd)
    (hamps : ∀ a ∈ amps, a.kind = .amp) (hsemi : semi.kind = .semi) (ih' : Finds t .line vs right) :
    Finds t .line (us ++ amps ++ semi :: vs) (.list (Cmd.back^[amps.length] cmd) right) := by
  intro s rest n htok hrest hn
  obtain ⟨n, rfl⟩ := Nat.exists_eq_add_one_of_ne_zero (by simp only [Nonterminal.depth] at hn; omega : n ≠ 0)
  simp only [Nonterminal.depth, List.append_assoc, List.cons_append, List.length_append, List.length_cons] at htok hn
  have hfollow : Follow .pipe (semi :: (vs ++ rest)) := by
    rw [follow_cons, hsemi]
    decide
  have hnext := hfollow.amps hamps
  obtain ⟨s₁, hs₁, hpipe⟩ := ih s _ n htok hnext
    (by simp only [Nonterminal.depth, List.length_append, List.length_cons]; omega)
  obtain ⟨s₂, hs₂, hback⟩ := parsebacks_finds (n := n) hamps hs₁
    (by rw [headKind_cons, hsemi]; decide) (by simp only [List.length_append, List.length_cons]; omega)
  obtain ⟨hpeek, hrest'⟩ := take_symbol (c := SEMI) rfl (by decide) hs₂ hsemi
  obtain ⟨s₃, hs₃, hline⟩ := ih' _ _ n hrest' hrest
    (by simp only [Nonterminal.depth, List.length_append]; omega)
  refine ⟨s₃, hs₃, ?_⟩
  simp only [parse] at hpipe hline ⊢
  rw [parseline, hpipe, ok_bind]
  dsimp only
  rw [hback, ok_bind]
  dsimp only
  rw [hpeek, if_pos rfl, hline]
  rfl

theorem Finds.pipe (ih : Finds t .exec us cmd) : Finds t .pipe us cmd := by
  intro s rest n htok hrest hn
  obtain ⟨hfollow, hbar⟩ := hrest.of_pipe
  obtain ⟨n, rfl⟩ := Nat.exists_eq_add_one_of_ne_zero (by simp only [Nonterminal.depth] at hn; omega : n ≠ 0)
  simp only [Nonterminal.depth] at hn
  obtain ⟨s₁, hs₁, hexec⟩ := ih s _ n htok hfollow (by simp only [Nonterminal.depth]; omega)
  rw [← hs₁] at hbar
  obtain ⟨hpeek, hsame⟩ := leave_symbol (c := BAR) rfl (by decide) hbar
  refine ⟨_, hsame.trans hs₁, ?_⟩
  simp only [parse] at hexec ⊢
  rw [parsepipe, hexec, ok_bind]
  dsimp only
  rw [hpeek]
  rfl

theorem Finds.pipes {bar : Token} {right : Cmd} (ih : Finds t .exec us cmd) (hbar : bar.kind = .bar)
    (ih' : Finds t .pipe vs right) : Finds t .pipe (us ++ bar :: vs) (.pipe cmd right) := by
  intro s rest n htok hrest hn
  obtain ⟨n, rfl⟩ := Nat.exists_eq_add_one_of_ne_zero (by simp only [Nonterminal.depth] at hn; omega : n ≠ 0)
  simp only [Nonterminal.depth, List.append_assoc, List.cons_append, List.length_append, List.length_cons] at htok hn
  obtain ⟨s₁, hs₁, hexec⟩ := ih s _ n htok (by rw [follow_cons, hbar]; decide)
    (by simp only [Nonterminal.depth, List.length_append, List.length_cons]; omega)
  obtain ⟨hpeek, hrest'⟩ := take_symbol (c := BAR) rfl (by decide) hs₁ hbar
  obtain ⟨s₂, hs₂, hpipe⟩ := ih' _ _ n hrest' hrest
    (by simp only [Nonterminal.depth, List.length_append]; omega)
  refine ⟨s₂, hs₂, ?_⟩
  simp only [parse] at hexec hpipe ⊢
  rw [parsepipe, hexec, ok_bind]
  dsimp only
  rw [hpeek, if_pos rfl, hpipe]
  rfl

theorem Finds.block {left right : Token} (hleft : left.kind = .lparen) (ih : Finds t .line us cmd)
    (hright : right.kind = .rparen) (hredirs : Redirs vs rs) :
    Finds t .exec (left :: (us ++ right :: vs)) (wrap rs cmd) := by
  intro s rest n htok hrest hn
  obtain ⟨n, rfl⟩ : ∃ m, n = m + 2 := ⟨n - 2, by simp only [Nonterminal.depth] at hn; omega⟩
  simp only [Nonterminal.depth, List.append_assoc, List.cons_append, List.length_append, List.length_cons] at htok hn
  have hsame := (peek_spec (t := t) (s := s) paren_symbol).2
  have hpeek := (take_symbol (c := LPAREN) rfl (by decide) htok hleft).1
  obtain ⟨hpeek', hs₁⟩ := take_symbol (c := LPAREN) rfl (by decide) (hsame.trans htok) hleft
  obtain ⟨s₂, hs₂, hline⟩ := ih _ _ n hs₁ (by rw [follow_cons, hright]; decide)
    (by simp only [Nonterminal.depth, List.length_append, List.length_cons]; omega)
  obtain ⟨hclose, hs₃⟩ := take_symbol (c := RPAREN) rfl (by decide) hs₂ hright
  obtain ⟨s₄, hs₄, hfiles⟩ := parseredirs_finds (n := n) hredirs hs₃ hrest.exec_cases.2.1
    (by simp only [List.length_append]; omega)
  refine ⟨s₄, hs₄, ?_⟩
  simp only [parse] at hline ⊢
  rw [parseexec, if_pos hpeek, parseblock, hpeek', Bool.not_true, if_neg Bool.false_ne_true, hline, ok_bind]
  dsimp only
  rw [hclose, Bool.not_true, if_neg Bool.false_ne_true, hfiles]

theorem Finds.simple {rs' : List Redirection} (hredirs : Redirs us rs) (hwords : Words vs ws rs')
    (hmax : ws.length ≤ MAXARGS - 1) :
    Finds t .exec (us ++ vs) (wrap (rs ++ rs') (.exec ws)) := by
  intro s rest n htok hrest hn
  obtain ⟨n, rfl⟩ := Nat.exists_eq_add_one_of_ne_zero (by simp only [Nonterminal.depth] at hn; omega : n ≠ 0)
  simp only [Nonterminal.depth, List.append_assoc, List.length_append] at htok hn
  obtain ⟨hopens, hparen⟩ := hwords.headKind_append hrest
  have hopen : headKind (tokensFrom t s) ≠ some .lparen := by
    rw [htok]
    exact hredirs.headKind_append hparen
  obtain ⟨hpeek, hsame⟩ := leave_symbol (c := LPAREN) rfl (by decide) hopen
  obtain ⟨s₁, hs₁, hfiles⟩ := parseredirs_finds (n := n) hredirs (hsame.trans htok) hopens
    (by simp only [List.length_append]; omega)
  obtain ⟨s₂, hs₂, hargs⟩ := @parseargs_finds t n _ _ _ _ rs _ [] hwords hs₁ hrest hmax
    (by simp only [List.length_append]; omega)
  refine ⟨s₂, hs₂, ?_⟩
  rw [parse, parseexec, hpeek, if_neg Bool.false_ne_true, hfiles, ok_bind]
  exact hargs

theorem Derives.finds (h : Derives X us cmd) : Finds t X us cmd := by
  induction h with
  | line _ hamps ih => exact ih.line hamps
  | lines _ hamps hsemi _ ih ih' => exact ih.lines hamps hsemi ih'
  | pipe _ ih => exact ih.pipe
  | pipes _ hbar _ ih ih' => exact ih.pipes hbar ih'
  | block hleft _ hright hredirs ih => exact Finds.block hleft ih hright hredirs
  | simple hredirs hwords hmax => exact Finds.simple hredirs hwords hmax

end

section

variable {toks : List UInt8}

/-- The position that a function returns lies in the string or at its end. -/
def Stays (t : CString) (r : Except Stop (Cmd × ℕ)) : Prop := ∀ x, r = .ok x → x.2 ≤ t.chars.length

theorem Stays.ok (hs : s ≤ t.chars.length) : Stays t (.ok (cmd, s)) := by
  rintro _ ⟨⟩
  exact hs

theorem Stays.error {e : Stop} : Stays t (.error e) := nofun

theorem Stays.bind (hr : Stays t r)
    (hf : ∀ cmd s, s ≤ t.chars.length → Stays t (f (cmd, s))) : Stays t (r >>= f) := by
  match r with
  | .ok (cmd, s) => exact hf cmd s (hr (cmd, s) rfl)
  | .error e => exact Stays.error

theorem peek_le (hs : s ≤ t.chars.length) : (peek t toks s).2 ≤ t.chars.length := skip_le hs

theorem parseredirs_stays (hs : s ≤ t.chars.length) : Stays t (parseredirs t n cmd s) := by
  induction n generalizing cmd s with
  | zero => exact Stays.error
  | succ n ih =>
    rw [parseredirs]
    split
    · dsimp only
      split
      · exact Stays.error
      · exact ih (gettoken_le (gettoken_le (peek_le hs)))
    · exact Stays.ok (peek_le hs)

theorem parseargs_stays (hs : s ≤ t.chars.length) : Stays t (parseargs t n cmd argc s) := by
  induction n generalizing cmd argc s with
  | zero => exact Stays.error
  | succ n ih =>
    rw [parseargs]
    split
    · exact Stays.ok (peek_le hs)
    dsimp only
    split_ifs
    · exact Stays.ok (gettoken_le (peek_le hs))
    · exact Stays.error
    · exact Stays.error
    · exact (parseredirs_stays (gettoken_le (peek_le hs))).bind fun _ _ hs' => ih hs'

theorem parsebacks_stays (hs : s ≤ t.chars.length) : Stays t (parsebacks t n cmd s) := by
  induction n generalizing cmd s with
  | zero => exact Stays.error
  | succ n ih =>
    rw [parsebacks]
    split
    · exact ih (gettoken_le (peek_le hs))
    · exact Stays.ok (peek_le hs)

theorem parse_stays (n : ℕ) :
    (∀ s ≤ t.chars.length, Stays t (parseline t n s)) ∧
      (∀ s ≤ t.chars.length, Stays t (parsepipe t n s)) ∧
      (∀ s ≤ t.chars.length, Stays t (parseblock t n s)) ∧
      ∀ s ≤ t.chars.length, Stays t (parseexec t n s) := by
  induction n with
  | zero =>
    refine ⟨fun s _ => ?_, fun s _ => ?_, fun s _ => ?_, fun s _ => ?_⟩
    · rw [parseline]
      exact Stays.error
    · rw [parsepipe]
      exact Stays.error
    · rw [parseblock]
      exact Stays.error
    · rw [parseexec]
      exact Stays.error
  | succ n ih =>
    obtain ⟨hline, hpipe, hblock, hexec⟩ := ih
    refine ⟨fun s hs => ?_, fun s hs => ?_, fun s hs => ?_, fun s hs => ?_⟩
    · rw [parseline]
      refine (hpipe s hs).bind fun _ s₁ hs₁ => (parsebacks_stays hs₁).bind fun _ s₂ hs₂ => ?_
      dsimp only
      split
      · exact (hline _ (gettoken_le (peek_le hs₂))).bind fun _ _ hs₃ => Stays.ok hs₃
      · exact Stays.ok (peek_le hs₂)
    · rw [parsepipe]
      refine (hexec s hs).bind fun _ s₁ hs₁ => ?_
      dsimp only
      split
      · exact (hpipe _ (gettoken_le (peek_le hs₁))).bind fun _ _ hs₂ => Stays.ok hs₂
      · exact Stays.ok (peek_le hs₁)
    · rw [parseblock]
      split
      · exact Stays.error
      refine (hline _ (gettoken_le (peek_le hs))).bind fun _ s₁ hs₁ => ?_
      dsimp only
      split
      · exact Stays.error
      · exact parseredirs_stays (gettoken_le (peek_le hs₁))
    · rw [parseexec]
      split
      · exact hblock _ (peek_le hs)
      · exact (parseredirs_stays (peek_le hs)).bind fun _ _ hs₁ => parseargs_stays hs₁

end

theorem parsecmd_eq (h : parseline t n 0 = .ok (cmd, s)) :
    parsecmd t n = if tokensFrom t s = [] then .ok (cmd, nulterminate cmd t.byte)
      else .error (.panic "syntax") := by
  have hs : s ≤ t.chars.length := (parse_stays n).1 0 (Nat.zero_le _) _ h
  have hend : (peek t [] s).2 = t.chars.length ↔ tokensFrom t s = [] := skip_eq_length hs
  rw [parsecmd, h]
  change (if (peek t [] s).2 ≠ t.chars.length then _ else _) = _
  by_cases hnil : tokensFrom t s = []
  · rw [if_neg (not_not.mpr (hend.mpr hnil)), if_pos hnil]
    rfl
  · rw [if_pos (mt hend.mp hnil), if_neg hnil]

/-- **The shell parses its grammar.** For every input string: `parsecmd` ends, with a panic or with a
command, and it returns a command exactly when the token sequence of the string derives it. -/
theorem parsecmd_iff (t : CString) : ∃ depth, ∀ n ≥ depth,
    ((∃ message, parsecmd t n = .error (.panic message)) ∨
      ∃ cmd buf, parsecmd t n = .ok (cmd, buf)) ∧
    ∀ cmd, (∃ buf, parsecmd t n = .ok (cmd, buf)) ↔ Derives .line (tokens t) cmd := by
  refine ⟨4 * (tokens t).length + 4, fun n hn => ?_⟩
  have hends : Ends (parseline t n 0) (Took t .line 0) := (parse_ends n).1 0 hn
  -- A derivation of the whole sequence is what `parseline` finds.
  have hfinds : ∀ cmd, Derives .line (tokens t) cmd → ∃ s, tokensFrom t s = [] ∧ parseline t n 0 = .ok (cmd, s) := by
    intro cmd hderives
    refine hderives.finds 0 [] n (List.append_nil _).symm follow_nil ?_
    rw [List.append_nil]
    exact hn
  cases hline : parseline t n 0 with
  | error e =>
    have hcmd : parsecmd t n = .error e := by
      rw [parsecmd, hline]
      rfl
    rw [hline] at hends
    cases e with
    | diverges => exact absurd hends id
    | panic message =>
      refine ⟨.inl ⟨message, hcmd⟩, fun cmd => ⟨?_, fun hderives => ?_⟩⟩
      · rintro ⟨buf, hbuf⟩
        rw [hcmd] at hbuf
        cases hbuf
      · obtain ⟨s, -, hok⟩ := hfinds cmd hderives
        rw [hline] at hok
        cases hok
  | ok x =>
    obtain ⟨cmd, s⟩ := x
    rw [hline] at hends
    obtain ⟨us, htokens, hderives⟩ := hends
    rw [parsecmd_eq hline]
    by_cases hnil : tokensFrom t s = []
    · rw [hnil, List.append_nil] at htokens
      rw [if_pos hnil]
      refine ⟨.inr ⟨cmd, _, rfl⟩, fun cmd' => ⟨?_, fun hderives' => ?_⟩⟩
      · rintro ⟨buf, ⟨⟩⟩
        rw [show tokens t = us from htokens]
        exact hderives
      · obtain ⟨s', -, hok⟩ := hfinds cmd' hderives'
        rw [hline] at hok
        cases hok
        exact ⟨_, rfl⟩
    · rw [if_neg hnil]
      refine ⟨.inl ⟨_, rfl⟩, fun cmd' => ⟨nofun, fun hderives' => ?_⟩⟩
      obtain ⟨s', hs', hok⟩ := hfinds cmd' hderives'
      rw [hline] at hok
      cases hok
      exact absurd hs' hnil

end KThreads.Shell
