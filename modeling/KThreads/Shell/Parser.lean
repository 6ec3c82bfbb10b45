import Mathlib

/-!
# The shell's parser

The functions of the recursive descent on positions in the input, with a bound on the depth of the
calls and on the rounds of each loop. A command node is a value of `Cmd`; pointers to the
beginning and the end of a word are positions.
-/

namespace KThreads.Shell

/-- The bytes of a string before its terminating zero. -/
structure CString where
  chars : List UInt8
  nonzero : 0 ∉ chars

/-- The byte at a position; behind the end there is the zero. -/
def CString.byte (t : CString) (s : ℕ) : UInt8 := t.chars.getD s 0

/-- The characters `<`, `|`, `>`, `&`, `;`, `(` and `)`. -/
abbrev LESS : UInt8 := 60
abbrev BAR : UInt8 := 124
abbrev GREATER : UInt8 := 62
abbrev AMP : UInt8 := 38
abbrev SEMI : UInt8 := 59
abbrev LPAREN : UInt8 := 40
abbrev RPAREN : UInt8 := 41

/-- `whitespace`: blank, tab, carriage return, newline, vertical tab. -/
def whitespace : List UInt8 := [32, 9, 13, 10, 11]

/-- `symbols`. -/
def symbols : List UInt8 := [LESS, BAR, GREATER, AMP, SEMI, LPAREN, RPAREN]

/-- `strchr(whitespace, c)`. -/
def isSpace (c : UInt8) : Bool := whitespace.contains c

/-- `!strchr(whitespace, c) && !strchr(symbols, c)`. -/
def isWordChar (c : UInt8) : Bool := !whitespace.contains c && !symbols.contains c

section

variable (t : CString)

/-- At most `k` rounds of `while(p(*s)) s++`. -/
def skipLoop (p : UInt8 → Bool) : ℕ → ℕ → ℕ
  | 0, s => s
  | k + 1, s => if p (t.byte s) then skipLoop p k (s + 1) else s

/-- `while(s < es && p(*s)) s++`. -/
def skip (p : UInt8 → Bool) (s : ℕ) : ℕ := skipLoop t p (t.chars.length - s) s

/-- What `gettoken` returns and leaves in `*q`, `*eq` and `*ps`. -/
structure Lexed where
  ret : UInt8
  q : ℕ
  eq : ℕ
  ps : ℕ

/-- The `switch` of `gettoken`: the value returned and the end of the token that begins at `s`. -/
def tokenAt (s : ℕ) : UInt8 × ℕ :=
  if t.byte s = 0 then (0, s)
  else if t.byte s ∈ [BAR, LPAREN, RPAREN, SEMI, AMP, LESS] then (t.byte s, s + 1)
  else if t.byte s = GREATER then
    if t.byte (s + 1) = GREATER then (43, s + 2) else (GREATER, s + 1)
  else (97, skip t isWordChar s)

/-- `gettoken(ps, es, q, eq)`. -/
def gettoken (s : ℕ) : Lexed :=
  let q := skip t isSpace s
  let (ret, eq) := tokenAt t q
  ⟨ret, q, eq, skip t isSpace eq⟩

/-- `peek(ps, es, toks)`: what is returned and left in `*ps`. -/
def peek (toks : List UInt8) (s : ℕ) : Bool × ℕ :=
  let s := skip t isSpace s
  (t.byte s ≠ 0 && toks.contains (t.byte s), s)

end

inductive Kind where
  | less | bar | greater | append | amp | semi | lparen | rparen | word
  deriving DecidableEq

/-- A token and the positions of its first byte and of the byte behind it. -/
structure Token where
  kind : Kind
  q : ℕ
  eq : ℕ

/-- What `gettoken` returns for a token. -/
def Kind.code : Kind → UInt8
  | less => LESS
  | bar => BAR
  | greater => GREATER
  | append => 43
  | amp => AMP
  | semi => SEMI
  | lparen => LPAREN
  | rparen => RPAREN
  | word => 97

/-- The first byte of a symbol. -/
def Kind.first : Kind → Option UInt8
  | less => some LESS
  | bar => some BAR
  | greater => some GREATER
  | append => some GREATER
  | amp => some AMP
  | semi => some SEMI
  | lparen => some LPAREN
  | rparen => some RPAREN
  | word => none

/-- The symbols of one byte. -/
def symbolKind (c : UInt8) : Option Kind :=
  if c = LESS then some .less
  else if c = BAR then some .bar
  else if c = GREATER then some .greater
  else if c = AMP then some .amp
  else if c = SEMI then some .semi
  else if c = LPAREN then some .lparen
  else if c = RPAREN then some .rparen
  else none

/-- The tokens of a text that begins at the position `off`. -/
def lex (off : ℕ) (cs : List UInt8) : List Token :=
  match cs with
  | [] => []
  | c :: cs =>
    if isSpace c then lex (off + 1) cs
    else if c = GREATER ∧ cs.head? = some GREATER then ⟨.append, off, off + 2⟩ :: lex (off + 2) cs.tail
    else match symbolKind c with
      | some k => ⟨k, off, off + 1⟩ :: lex (off + 1) cs
      | none => ⟨.word, off, off + 1 + (cs.takeWhile isWordChar).length⟩ ::
          lex (off + 1 + (cs.takeWhile isWordChar).length) (cs.dropWhile isWordChar)
termination_by cs.length
decreasing_by
  · exact Nat.lt_succ_self _
  · exact Nat.lt_succ_of_le (List.tail_sublist cs).length_le
  · exact Nat.lt_succ_self _
  · exact Nat.lt_succ_of_le (List.dropWhile_sublist _).length_le

/-- The tokens of a string. -/
def tokens (t : CString) : List Token := lex 0 t.chars

/-- The tokens of a string from a position on. -/
def tokensFrom (t : CString) (s : ℕ) : List Token := lex s (t.chars.drop s)

section

variable {t : CString} {s k : ℕ} {p : UInt8 → Bool} {c : UInt8} {cs : List UInt8}

theorem drop_eq_cons (hs : s < t.chars.length) :
    t.chars.drop s = t.byte s :: t.chars.drop (s + 1) := by
  rw [List.drop_eq_getElem_cons hs, CString.byte, List.getD_eq_getElem _ _ hs]

theorem byte_of_drop (h : t.chars.drop s = c :: cs) : t.byte s = c ∧ t.chars.drop (s + 1) = cs := by
  have hs : s < t.chars.length := by
    by_contra hge
    rw [List.drop_eq_nil_of_le (not_lt.mp hge)] at h
    cases h
  rw [drop_eq_cons hs] at h
  exact List.cons.inj h

theorem byte_eq_zero : t.byte s = 0 ↔ t.chars.drop s = [] := by
  rw [List.drop_eq_nil_iff]
  constructor
  · intro hzero
    by_contra hlt
    rw [not_le] at hlt
    rw [CString.byte, List.getD_eq_getElem _ _ hlt] at hzero
    exact t.nonzero (hzero ▸ List.getElem_mem hlt)
  · exact List.getD_eq_default _ _

theorem skipLoop_eq (hk : t.chars.length - s = k) :
    skipLoop t p k s = s + ((t.chars.drop s).takeWhile p).length := by
  induction k generalizing s with
  | zero =>
    rw [List.drop_eq_nil_of_le (Nat.le_of_sub_eq_zero hk)]
    rfl
  | succ k ih =>
    rw [drop_eq_cons (by omega), skipLoop, List.takeWhile_cons]
    split
    · rw [ih (by omega), List.length_cons]
      omega
    · rfl

theorem skip_eq : skip t p s = s + ((t.chars.drop s).takeWhile p).length := skipLoop_eq rfl

theorem drop_skip : t.chars.drop (skip t p s) = (t.chars.drop s).dropWhile p := by
  have happend := List.takeWhile_append_dropWhile (p := p) (l := t.chars.drop s)
  rw [skip_eq, ← List.drop_drop]
  exact (congrArg _ happend.symm).trans List.drop_left

theorem lex_nil (off : ℕ) : lex off [] = [] := by rw [lex]

theorem lex_space (off : ℕ) (hc : isSpace c = true) : lex off (c :: cs) = lex (off + 1) cs := by
  rw [lex, if_pos hc]

theorem lex_append (off : ℕ) :
    lex off (GREATER :: GREATER :: cs) = ⟨.append, off, off + 2⟩ :: lex (off + 2) cs := by
  rw [lex, if_neg (by decide), if_pos ⟨rfl, rfl⟩]
  rfl

theorem lex_symbol {k : Kind} (off : ℕ) (hk : symbolKind c = some k) (hspace : isSpace c = false)
    (hgreater : ¬(c = GREATER ∧ cs.head? = some GREATER)) :
    lex off (c :: cs) = ⟨k, off, off + 1⟩ :: lex (off + 1) cs := by
  rw [lex, if_neg (by simp [hspace]), if_neg hgreater, hk]

theorem lex_word (off : ℕ) (hk : symbolKind c = none) (hspace : isSpace c = false) :
    lex off (c :: cs) = ⟨.word, off, off + 1 + (cs.takeWhile isWordChar).length⟩ ::
      lex (off + 1 + (cs.takeWhile isWordChar).length) (cs.dropWhile isWordChar) := by
  have hgreater : ¬(c = GREATER ∧ cs.head? = some GREATER) := by
    rintro ⟨rfl, -⟩
    cases hk
  rw [lex, if_neg (by simp [hspace]), if_neg hgreater, hk]

theorem lex_skip (off : ℕ) :
    lex (off + (cs.takeWhile isSpace).length) (cs.dropWhile isSpace) = lex off cs := by
  induction cs generalizing off with
  | nil => rfl
  | cons c cs ih =>
    by_cases hc : isSpace c = true
    · rw [List.takeWhile_cons_of_pos hc, List.dropWhile_cons_of_pos hc, lex_space off hc, ← ih,
        List.length_cons]
      congr 1
      omega
    · rw [List.takeWhile_cons_of_neg hc, List.dropWhile_cons_of_neg hc]
      rfl

theorem tokensFrom_skip : tokensFrom t (skip t isSpace s) = tokensFrom t s := by
  rw [tokensFrom, drop_skip, skip_eq, lex_skip, tokensFrom]

theorem symbolKind_eq_none : symbolKind c = none ↔ c ∉ symbols := by
  simp only [symbols, List.mem_cons, List.not_mem_nil, or_false, symbolKind]
  constructor
  · intro h
    split_ifs at h
    simp_all
  · intro h
    simp only [not_or] at h
    simp [h]

theorem first_of_symbolKind {k : Kind} (h : symbolKind c = some k) :
    k.first = some c ∧ k.code = c ∧ c ∈ symbols := by
  rw [symbolKind] at h
  split_ifs at h <;> cases h <;> subst c <;> decide

/-- What stands at a position that is not in whitespace: the end of the text or a token. -/
inductive Stands (t : CString) (s : ℕ) : Prop
  | done (byte : t.byte s = 0) (token : tokenAt t s = (0, s)) (tokens : tokensFrom t s = [])
  | symbol (k : Kind) (eq : ℕ) (byte : t.byte s ≠ 0) (first : k.first = some (t.byte s))
      (token : tokenAt t s = (k.code, eq)) (tokens : tokensFrom t s = ⟨k, s, eq⟩ :: tokensFrom t eq)
  | word (eq : ℕ) (byte : t.byte s ≠ 0) (char : t.byte s ∉ symbols)
      (token : tokenAt t s = (97, eq)) (tokens : tokensFrom t s = ⟨.word, s, eq⟩ :: tokensFrom t eq)

theorem stands_symbol {k : Kind} (hdrop : t.chars.drop s = c :: cs) (hspace : isSpace c = false)
    (hk : symbolKind c = some k) : Stands t s := by
  obtain ⟨rfl, rfl⟩ := byte_of_drop hdrop
  have hbyte : t.byte s ≠ 0 := fun h => by simp [byte_eq_zero.mp h] at hdrop
  obtain ⟨hfirst, hcode, hsym⟩ := first_of_symbolKind hk
  by_cases hgreater : t.byte s = GREATER
  · have hmem : t.byte s ∉ [BAR, LPAREN, RPAREN, SEMI, AMP, LESS] := by
      rw [hgreater]
      decide
    by_cases hnext : t.byte (s + 1) = GREATER
    · refine .symbol .append (s + 2) hbyte (by rw [hgreater]; rfl) ?_ ?_
      · rw [tokenAt, if_neg hbyte, if_neg hmem, if_pos hgreater, if_pos hnext]
        rfl
      · have hdrop' : t.chars.drop (s + 1) = GREATER :: t.chars.drop (s + 2) := by
          rw [drop_eq_cons, hnext]
          by_contra hlen
          rw [byte_eq_zero.mpr (List.drop_eq_nil_of_le (not_lt.mp hlen))] at hnext
          cases hnext
        rw [tokensFrom, hdrop, hdrop', hgreater, lex_append, tokensFrom]
    · refine .symbol k (s + 1) hbyte hfirst ?_ ?_
      · rw [tokenAt, if_neg hbyte, if_neg hmem, if_pos hgreater, if_neg hnext, hcode, hgreater]
      · rw [tokensFrom, hdrop, lex_symbol s hk hspace, tokensFrom]
        rintro ⟨-, hhead⟩
        obtain ⟨cs, hcs⟩ := List.head?_eq_some_iff.mp hhead
        exact hnext (byte_of_drop hcs).1
  · have hmem : t.byte s ∈ [BAR, LPAREN, RPAREN, SEMI, AMP, LESS] := by
      simp only [symbols, List.mem_cons, List.not_mem_nil, or_false] at hsym ⊢
      tauto
    refine .symbol k (s + 1) hbyte hfirst ?_ ?_
    · rw [tokenAt, if_neg hbyte, if_pos hmem, hcode]
    · rw [tokensFrom, hdrop, lex_symbol s hk hspace fun h => hgreater h.1, tokensFrom]

theorem stands_word (hdrop : t.chars.drop s = c :: cs) (hspace : isSpace c = false)
    (hk : symbolKind c = none) : Stands t s := by
  obtain ⟨rfl, rfl⟩ := byte_of_drop hdrop
  have hbyte : t.byte s ≠ 0 := fun h => by simp [byte_eq_zero.mp h] at hdrop
  have hchar : t.byte s ∉ symbols := symbolKind_eq_none.mp hk
  have hword : isWordChar (t.byte s) = true := by
    rw [isWordChar, ← isSpace, hspace]
    simpa using hchar
  have hmem : t.byte s ∉ [BAR, LPAREN, RPAREN, SEMI, AMP, LESS] := by
    simp only [symbols, List.mem_cons, List.not_mem_nil, or_false] at hchar ⊢
    tauto
  have hgreater : t.byte s ≠ GREATER := by
    intro h
    exact hchar (by rw [h]; decide)
  have hskip : skip t isWordChar s = s + 1 + ((t.chars.drop (s + 1)).takeWhile isWordChar).length := by
    rw [skip_eq, hdrop, List.takeWhile_cons_of_pos hword, List.length_cons]
    omega
  refine .word (skip t isWordChar s) hbyte hchar ?_ ?_
  · rw [tokenAt, if_neg hbyte, if_neg hmem, if_neg hgreater]
  · have hrest : t.chars.drop (skip t isWordChar s) = (t.chars.drop (s + 1)).dropWhile isWordChar := by
      rw [drop_skip, hdrop, List.dropWhile_cons_of_pos hword]
    rw [tokensFrom, hdrop, lex_word s hk hspace, tokensFrom, hrest, hskip]

theorem stands (hspace : isSpace (t.byte s) = false) : Stands t s := by
  cases hdrop : t.chars.drop s with
  | nil =>
    have hbyte : t.byte s = 0 := byte_eq_zero.mpr hdrop
    refine .done hbyte ?_ ?_
    · rw [tokenAt, if_pos hbyte]
    · rw [tokensFrom, hdrop, lex_nil]
  | cons c cs =>
    rw [(byte_of_drop hdrop).1] at hspace
    cases hk : symbolKind c with
    | none => exact stands_word hdrop hspace hk
    | some k => exact stands_symbol hdrop hspace hk

theorem isSpace_byte_skip : isSpace (t.byte (skip t isSpace s)) = false := by
  have hdrop := drop_skip (t := t) (p := isSpace) (s := s)
  cases hrest : (t.chars.drop s).dropWhile isSpace with
  | nil =>
    rw [hrest] at hdrop
    rw [byte_eq_zero.mpr hdrop]
    decide
  | cons c cs =>
    rw [hrest] at hdrop
    rw [(byte_of_drop hdrop).1]
    have hne : (t.chars.drop s).dropWhile isSpace ≠ [] := by simp [hrest]
    have hhead := List.head_dropWhile_not isSpace hne
    simpa [hrest] using hhead

theorem gettoken_nil (h : tokensFrom t s = []) :
    (gettoken t s).ret = 0 ∧ tokensFrom t (gettoken t s).ps = [] := by
  have hstands := stands (t := t) isSpace_byte_skip (s := skip t isSpace s)
  rw [← tokensFrom_skip] at h
  cases hstands with
  | done _ htoken htokens => simp [gettoken, htoken, tokensFrom_skip, htokens]
  | symbol k eq _ _ _ htokens => simp [htokens] at h
  | word eq _ _ _ htokens => simp [htokens] at h

theorem gettoken_cons {tok : Token} {rest : List Token} (h : tokensFrom t s = tok :: rest) :
    (gettoken t s).ret = tok.kind.code ∧ (gettoken t s).q = tok.q ∧ (gettoken t s).eq = tok.eq ∧
      tokensFrom t (gettoken t s).ps = rest := by
  have hstands := stands (t := t) isSpace_byte_skip (s := skip t isSpace s)
  rw [← tokensFrom_skip] at h
  cases hstands with
  | done _ _ htokens => simp [htokens] at h
  | symbol k eq _ _ htoken htokens =>
    rw [htokens] at h
    obtain ⟨rfl, rfl⟩ := List.cons.inj h
    simp [gettoken, htoken, tokensFrom_skip]
  | word eq _ _ htoken htokens =>
    rw [htokens] at h
    obtain ⟨rfl, rfl⟩ := List.cons.inj h
    simp [gettoken, htoken, tokensFrom_skip, Kind.code]

/-- The kind of the first token. -/
def headKind (us : List Token) : Option Kind := us.head?.map Token.kind

/-- A symbol that begins with one of these bytes. -/
def Kind.among (toks : List UInt8) (k : Kind) : Bool := k.first.any toks.contains

theorem peek_spec {toks : List UInt8} (htoks : toks ⊆ symbols) :
    (peek t toks s).1 = (headKind (tokensFrom t s)).any (Kind.among toks) ∧
      tokensFrom t (peek t toks s).2 = tokensFrom t s := by
  have hstands := stands (t := t) isSpace_byte_skip (s := skip t isSpace s)
  refine ⟨?_, tokensFrom_skip⟩
  rw [← tokensFrom_skip]
  cases hstands with
  | done hbyte _ htokens => simp [peek, hbyte, htokens, headKind]
  | symbol k eq hbyte hfirst _ htokens => simp [peek, hbyte, htokens, headKind, Kind.among, hfirst]
  | word eq hbyte hchar _ htokens =>
    have hnot : t.byte (skip t isSpace s) ∉ toks := fun h => hchar (htoks h)
    simp [peek, hbyte, htokens, headKind, Kind.among, Kind.first, hnot]

theorem skip_le (hs : s ≤ t.chars.length) : skip t p s ≤ t.chars.length := by
  have hle := (List.takeWhile_sublist p (l := t.chars.drop s)).length_le
  rw [List.length_drop] at hle
  rw [skip_eq]
  omega

theorem lt_of_byte_ne (h : t.byte s ≠ 0) : s < t.chars.length := by
  by_contra hge
  exact h (byte_eq_zero.mpr (List.drop_eq_nil_of_le (not_lt.mp hge)))

theorem tokenAt_le (hs : s ≤ t.chars.length) : (tokenAt t s).2 ≤ t.chars.length := by
  rw [tokenAt]
  split_ifs with hzero _ _ hnext
  · exact hs
  · exact lt_of_byte_ne hzero
  · have hne : t.byte (s + 1) ≠ 0 := by
      rw [hnext]
      decide
    exact lt_of_byte_ne hne
  · exact lt_of_byte_ne hzero
  · exact skip_le hs

theorem gettoken_le (hs : s ≤ t.chars.length) : (gettoken t s).ps ≤ t.chars.length :=
  skip_le (tokenAt_le (skip_le hs))

theorem skip_eq_length (hs : s ≤ t.chars.length) :
    skip t isSpace s = t.chars.length ↔ tokensFrom t s = [] := by
  rw [← tokensFrom_skip]
  constructor
  · intro h
    rw [h, tokensFrom, List.drop_length, lex_nil]
  · intro h
    have hle : skip t isSpace s ≤ t.chars.length := skip_le hs
    cases stands (t := t) isSpace_byte_skip (s := skip t isSpace s) with
    | done hbyte _ _ => exact hle.antisymm (List.drop_eq_nil_iff.mp (byte_eq_zero.mp hbyte))
    | symbol k eq _ _ _ htokens => simp [htokens] at h
    | word eq _ _ _ htokens => simp [htokens] at h

end

open Function (update)

abbrev MAXARGS : ℕ := 10
abbrev O_RDONLY : ℕ := 0x000
abbrev O_WRONLY : ℕ := 0x001
abbrev O_CREATE : ℕ := 0x200

/-- The two pointers to a word: `argv[i]` and `eargv[i]`, or `file` and `efile`. -/
structure Span where
  q : ℕ
  eq : ℕ
  deriving DecidableEq

/-- `struct cmd`; the list of an `execcmd` are the entries of `argv` and `eargv` before the null
pointer. -/
inductive Cmd where
  | exec (args : List Span)
  | redir (cmd : Cmd) (file : Span) (mode fd : ℕ)
  | pipe (left right : Cmd)
  | list (left right : Cmd)
  | back (cmd : Cmd)

inductive Stop where
  | panic (message : String)
  | diverges

/-- Append to the arguments of the `execcmd` that a chain of redirections ends with. `parseexec` keeps a
pointer to that node while `ret` points to the chain. -/
def Cmd.addArg (w : Span) : Cmd → Cmd
  | exec args => exec (args ++ [w])
  | redir cmd file mode fd => redir (cmd.addArg w) file mode fd
  | cmd => cmd

/-- The `switch` of `parseredirs`. -/
def redirected (cmd : Cmd) (tok : UInt8) (file : Span) : Cmd :=
  if tok = LESS then .redir cmd file O_RDONLY 0
  else if tok = GREATER then .redir cmd file (O_WRONLY ||| O_CREATE) 1
  else if tok = 43 then .redir cmd file (O_WRONLY ||| O_CREATE) 1
  else cmd

section

variable (t : CString)

/-- `parseredirs(cmd, ps, es)`. -/
def parseredirs : ℕ → Cmd → ℕ → Except Stop (Cmd × ℕ)
  | 0, _, _ => .error .diverges
  | n + 1, cmd, s =>
    if (peek t [LESS, GREATER] s).1 then
      let tok := gettoken t (peek t [LESS, GREATER] s).2
      let file := gettoken t tok.ps
      if file.ret ≠ 97 then .error (.panic "missing file for redirection")
      else parseredirs n (redirected cmd tok.ret ⟨file.q, file.eq⟩) file.ps
    else .ok (cmd, (peek t [LESS, GREATER] s).2)

/-- The loop over the words of `parseexec`. -/
def parseargs : ℕ → Cmd → ℕ → ℕ → Except Stop (Cmd × ℕ)
  | 0, _, _, _ => .error .diverges
  | n + 1, ret, argc, s =>
    if (peek t [BAR, RPAREN, AMP, SEMI] s).1 then .ok (ret, (peek t [BAR, RPAREN, AMP, SEMI] s).2)
    else
      let tok := gettoken t (peek t [BAR, RPAREN, AMP, SEMI] s).2
      if tok.ret = 0 then .ok (ret, tok.ps)
      else if tok.ret ≠ 97 then .error (.panic "syntax")
      else if argc + 1 ≥ MAXARGS then .error (.panic "too many args")
      else do
        let (ret, s) ← parseredirs t n (ret.addArg ⟨tok.q, tok.eq⟩) tok.ps
        parseargs n ret (argc + 1) s

/-- The loop of `parseline`. -/
def parsebacks : ℕ → Cmd → ℕ → Except Stop (Cmd × ℕ)
  | 0, _, _ => .error .diverges
  | n + 1, cmd, s =>
    if (peek t [AMP] s).1 then parsebacks n (.back cmd) (gettoken t (peek t [AMP] s).2).ps
    else .ok (cmd, (peek t [AMP] s).2)

mutual

/-- `parseline(ps, es)`. -/
def parseline : ℕ → ℕ → Except Stop (Cmd × ℕ)
  | 0, _ => .error .diverges
  | n + 1, s => do
    let (cmd, s) ← parsepipe n s
    let (cmd, s) ← parsebacks t n cmd s
    if (peek t [SEMI] s).1 then
      let (right, s) ← parseline n (gettoken t (peek t [SEMI] s).2).ps
      return (.list cmd right, s)
    else return (cmd, (peek t [SEMI] s).2)
termination_by structural n => n

/-- `parsepipe(ps, es)`. -/
def parsepipe : ℕ → ℕ → Except Stop (Cmd × ℕ)
  | 0, _ => .error .diverges
  | n + 1, s => do
    let (cmd, s) ← parseexec n s
    if (peek t [BAR] s).1 then
      let (right, s) ← parsepipe n (gettoken t (peek t [BAR] s).2).ps
      return (.pipe cmd right, s)
    else return (cmd, (peek t [BAR] s).2)
termination_by structural n => n

/-- `parseblock(ps, es)`. -/
def parseblock : ℕ → ℕ → Except Stop (Cmd × ℕ)
  | 0, _ => .error .diverges
  | n + 1, s =>
    if !(peek t [LPAREN] s).1 then .error (.panic "parseblock")
    else do
      let (cmd, s) ← parseline n (gettoken t (peek t [LPAREN] s).2).ps
      if !(peek t [RPAREN] s).1 then .error (.panic "syntax - missing )")
      else parseredirs t n cmd (gettoken t (peek t [RPAREN] s).2).ps
termination_by structural n => n

/-- `parseexec(ps, es)`. -/
def parseexec : ℕ → ℕ → Except Stop (Cmd × ℕ)
  | 0, _ => .error .diverges
  | n + 1, s =>
    if (peek t [LPAREN] s).1 then parseblock n (peek t [LPAREN] s).2
    else do
      let (ret, s) ← parseredirs t n (.exec []) (peek t [LPAREN] s).2
      parseargs t n ret 0 s
termination_by structural n => n

end

/-- `nulterminate(cmd)` on the bytes of the input. -/
def nulterminate : Cmd → (ℕ → UInt8) → ℕ → UInt8
  | .exec args, buf => args.foldl (fun buf w => update buf w.eq 0) buf
  | .redir cmd file _ _, buf => update (nulterminate cmd buf) file.eq 0
  | .pipe left right, buf => nulterminate right (nulterminate left buf)
  | .list left right, buf => nulterminate right (nulterminate left buf)
  | .back cmd, buf => nulterminate cmd buf

/-- `parsecmd(s)`: the command and the bytes of the input afterwards. -/
def parsecmd (n : ℕ) : Except Stop (Cmd × (ℕ → UInt8)) := do
  let (cmd, s) ← parseline t n 0
  if (peek t [] s).2 ≠ t.chars.length then .error (.panic "syntax")
  else return (cmd, nulterminate cmd t.byte)

end

/-- A redirection: the file, the mode and the descriptor. -/
structure Redirection where
  file : Span
  mode : ℕ
  fd : ℕ

def Token.span (w : Token) : Span := ⟨w.q, w.eq⟩

/-- What the symbol of a redirection means. -/
def Kind.redirection (file : Span) : Kind → Option Redirection
  | less => some ⟨file, O_RDONLY, 0⟩
  | greater => some ⟨file, O_WRONLY ||| O_CREATE, 1⟩
  | append => some ⟨file, O_WRONLY ||| O_CREATE, 1⟩
  | _ => none

/-- The redirections around a command, the first one innermost. -/
def wrap (rs : List Redirection) (cmd : Cmd) : Cmd :=
  rs.foldl (fun cmd r => .redir cmd r.file r.mode r.fd) cmd

/-- `{redir}`, `redir ::= ('<' | '>' | '>>') word`. -/
inductive Redirs : List Token → List Redirection → Prop
  | nil : Redirs [] []
  | cons {op file : Token} {r : Redirection} {us : List Token} {rs : List Redirection} :
      op.kind.redirection file.span = some r → file.kind = .word → Redirs us rs →
      Redirs (op :: file :: us) (r :: rs)

/-- `{word {redir}}`. -/
inductive Words : List Token → List Span → List Redirection → Prop
  | nil : Words [] [] []
  | cons {w : Token} {us vs : List Token} {ws : List Span} {rs rs' : List Redirection} :
      w.kind = .word → Redirs us rs → Words vs ws rs' →
      Words (w :: (us ++ vs)) (w.span :: ws) (rs ++ rs')

inductive Nonterminal where
  | line | pipe | exec
  deriving DecidableEq

/-- The grammar: which command a sequence of tokens derives. -/
inductive Derives : Nonterminal → List Token → Cmd → Prop
  /-- `line ::= pipe {'&'}` -/
  | line {us amps : List Token} {c : Cmd} :
      Derives .pipe us c → (∀ a ∈ amps, a.kind = .amp) →
      Derives .line (us ++ amps) (Cmd.back^[amps.length] c)
  /-- `line ::= pipe {'&'} ';' line` -/
  | lines {us amps vs : List Token} {semi : Token} {c d : Cmd} :
      Derives .pipe us c → (∀ a ∈ amps, a.kind = .amp) → semi.kind = .semi → Derives .line vs d →
      Derives .line (us ++ amps ++ semi :: vs) (.list (Cmd.back^[amps.length] c) d)
  /-- `pipe ::= exec` -/
  | pipe {us : List Token} {c : Cmd} : Derives .exec us c → Derives .pipe us c
  /-- `pipe ::= exec '|' pipe` -/
  | pipes {us vs : List Token} {bar : Token} {c d : Cmd} :
      Derives .exec us c → bar.kind = .bar → Derives .pipe vs d →
      Derives .pipe (us ++ bar :: vs) (.pipe c d)
  /-- `exec ::= '(' line ')' {redir}` -/
  | block {us vs : List Token} {left right : Token} {c : Cmd} {rs : List Redirection} :
      left.kind = .lparen → Derives .line us c → right.kind = .rparen → Redirs vs rs →
      Derives .exec (left :: (us ++ right :: vs)) (wrap rs c)
  /-- `exec ::= {redir} {word {redir}}`, with at most `MAXARGS - 1` words -/
  | simple {us vs : List Token} {ws : List Span} {rs rs' : List Redirection} :
      Redirs us rs → Words vs ws rs' → ws.length ≤ MAXARGS - 1 →
      Derives .exec (us ++ vs) (wrap (rs ++ rs') (.exec ws))

end KThreads.Shell
