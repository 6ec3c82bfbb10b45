import KThreads.Paging
import KThreads.Exec
import KThreads.Access.Sections

/-!
# The kernel and user memory

A thread may shrink the memory of its process while another one is in a system
call. Calls that check an address in the section in which they dereference it are
not affected. `fstat`, `pipe` and `clone` store through an address that was
checked in an earlier section, and `exec` reads the strings of its argument vector
long after it has found their ends; their accesses stay below the size of the
process only if no other thread takes away what they rely on.
-/

namespace KThreads.Access

namespace Pc

/-- The ends of the ranges that a thread has checked and dereferences later. -/
def claims : Pc → List ℕ
  | filestat st => [st + STATSIZE]
  | pipe p => [p + 8]
  | cloneStack _ _ stack => [stack]
  | _ => []

/-- The strings that `exec` has checked and reads later. -/
def strings : Pc → List (ℕ × ℕ)
  | execArgv _ _ strs | execArg _ _ _ strs | execMark strs | execWait strs | execLoad strs => strs
  | execStr p z rest => (p, z) :: rest
  | _ => []

/-- What was checked still holds. -/
structure Checked (mem : Bytes) (sz : ℕ) (pc : Pc) : Prop where
  claims : ∀ n ∈ pc.claims, n ≤ sz
  strings : ∀ x ∈ pc.strings, x.1 ≤ x.2 ∧ x.2 < sz ∧ mem x.2 = 0

/-- The thread relies on nothing that was checked. -/
structure Plain (pc : Pc) : Prop where
  claims : pc.claims = []
  strings : pc.strings = []

theorem checked_iff {mem : Bytes} {sz : ℕ} {pc : Pc} : pc.Checked mem sz ↔
    (∀ n ∈ pc.claims, n ≤ sz) ∧ ∀ x ∈ pc.strings, x.1 ≤ x.2 ∧ x.2 < sz ∧ mem x.2 = 0 :=
  ⟨fun h => ⟨h.claims, h.strings⟩, fun h => ⟨h.1, h.2⟩⟩

instance (mem : Bytes) (sz : ℕ) (pc : Pc) : Decidable (pc.Checked mem sz) :=
  decidable_of_iff _ checked_iff.symm

theorem Plain.checked {pc : Pc} (h : pc.Plain) {mem : Bytes} {sz : ℕ} : pc.Checked mem sz :=
  ⟨by simp [h.claims], by simp [h.strings]⟩

/-- What is known of a thread whatever the others do: its arguments are those of
its call, and lengths that were checked are not negative. -/
def Wf : Pc → Prop
  | args c _ todo vals => c.args.drop vals.length = todo
  | check c _ a _ todo vals => c.args.drop vals.length = a :: todo
  | paths _ next => next.Wf ∧ next.Plain
  | chunks _ ops next => (∀ op ∈ ops, op.2 < 2 ^ 31) ∧ next.Wf ∧ next.Plain
  | fileread _ n | piperead _ n | consoleread _ n _ | filewrite _ n | pipewrite _ _ n => n < 2 ^ 31
  | writei _ _ _ next => next.Wf ∧ next.Plain
  | consolewrite _ n next => n < 2 ^ 31 ∧ next.Wf ∧ next.Plain
  | cloneStack _ _ stack => 12 ≤ stack
  | _ => True

end Pc

section

variable {mem : Bytes} {sz a b n : ℕ}

theorem mem_span : a ∈ span b n ↔ b ≤ a ∧ a < b + n := by
  simp only [span, List.mem_map, List.mem_range]
  exact ⟨by rintro ⟨i, hi, rfl⟩; omega, fun h => ⟨a - b, by omega, by omega⟩⟩

theorem add_le_of_mod (ha : a < sz) (hn : n < 2 ^ 31) (hsz : sz < KERNBASE)
    (h : (a + n) % 2 ^ 32 ≤ sz) : a + n ≤ sz := by
  rwa [Nat.mod_eq_of_lt (by simp only [KERNBASE] at hsz; omega)] at h

theorem fetchint_lt (hsz : sz < KERNBASE) {addr : ℕ} (h : a ∈ (fetchint mem sz addr).1) :
    a < sz := by
  unfold fetchint at h
  split_ifs at h with hc
  · simp at h
  · obtain ⟨h1, h2⟩ := not_or.mp hc
    have := add_le_of_mod (not_le.mp h1) (by omega) hsz (not_lt.mp h2)
    have := (mem_span.mp h).2
    omega

theorem strlenWithin_spec {len : ℕ} (h : strlenWithin mem n a = some len) :
    len < n ∧ mem (a + len) = 0 := by
  induction n generalizing a len with
  | zero => cases h
  | succ n ih =>
    unfold strlenWithin at h
    split_ifs at h with h0
    · cases h
      exact ⟨n.succ_pos, h0⟩
    · obtain ⟨l, hl, rfl⟩ := Option.map_eq_some_iff.mp h
      obtain ⟨hlt, hmem⟩ := ih hl
      exact ⟨by omega, by rwa [show a + (l + 1) = a + 1 + l by omega]⟩

theorem fetchstr_lt {addr : ℕ} (h : a ∈ (fetchstr mem sz addr).1) : a < sz := by
  unfold fetchstr at h
  split_ifs at h with hc
  · simp at h
  · split at h
    · next len hlen =>
      have := (strlenWithin_spec hlen).1
      have := (mem_span.mp h).2
      omega
    · have := (mem_span.mp h).2
      omega

theorem fetchstr_some {addr len : ℕ} (h : (fetchstr mem sz addr).2 = some len) :
    addr + len < sz ∧ mem (addr + len) = 0 := by
  unfold fetchstr at h
  split_ifs at h with hc
  · split at h
    · next len' hlen =>
      cases h
      obtain ⟨hlt, hmem⟩ := strlenWithin_spec hlen
      exact ⟨by omega, hmem⟩
    · cases h

theorem of_argptrChecks (hsz : sz < KERNBASE) (h : argptrChecks sz a n = true) :
    n < 2 ^ 31 ∧ a + n ≤ sz := by
  simp only [argptrChecks, not_or, not_le, not_lt, decide_eq_true_eq, ge_iff_le, gt_iff_lt] at h
  exact ⟨h.1, add_le_of_mod h.2.1 h.1 hsz h.2.2⟩

theorem copyUser_lt (hsz : sz < KERNBASE) (hn : n < 2 ^ 31) (h : a ∈ (copyUser sz b n).1) :
    a < sz := by
  unfold copyUser at h
  split_ifs at h with hc
  · simp at h
  · obtain ⟨h1, h2⟩ := not_or.mp hc
    have := add_le_of_mod (not_le.mp h1) hn hsz (by rw [Nat.mod_add_mod]; omega)
    have := (mem_span.mp h).2
    omega

theorem copyStrLoop_lt {limit src : ℕ} (h : a ∈ (copyStrLoop mem sz limit src).1) : a < sz := by
  induction limit generalizing src with
  | zero => simp [copyStrLoop] at h
  | succ limit ih =>
    unfold copyStrLoop at h
    split_ifs at h with hs h0
    · rwa [List.mem_singleton.mp h]
    · rcases List.mem_cons.mp h with rfl | h
      · exact hs
      · exact ih h
    · simp at h

theorem piece_lt (left off : ℕ) : min left (BSIZE - off % BSIZE) < 2 ^ 31 :=
  (min_le_right _ _).trans_lt ((Nat.sub_le _ _).trans_lt (by decide))

theorem consoleTake_length (cs : List UInt8) : (consoleTake n cs).1.length ≤ n := by
  induction n generalizing cs with
  | zero => simp [consoleTake]
  | succ n ih =>
    cases cs with
    | nil => simp [consoleTake]
    | cons c cs =>
      unfold consoleTake
      split_ifs
      · simp
      · simp
      · simpa using ih cs

theorem pipeChunks_le (pos bytes : ℕ) :
    (pipeChunks pos bytes).1 ≤ bytes ∧ (pipeChunks pos bytes).2 ≤ bytes := by
  unfold pipeChunks
  dsimp only
  split_ifs <;> omega

theorem lt_of_mem_statBytes {st : ℕ} (h : a ∈ statBytes st) : a < st + STATSIZE := by
  simp only [statBytes, List.mem_append, mem_span, STATSIZE] at h ⊢
  omega

theorem growSize_lt (hsz : sz < KERNBASE) {ok : Bool} {n : ℤ} {r : ℕ}
    (h : growSize sz ok n = some r) : r < KERNBASE := by
  unfold growSize at h
  dsimp only at h
  split_ifs at h <;> cases h <;> omega

end

variable {τ : Type*}

/-- What a section guarantees, some of it only if what its thread relies on holds
when it starts. -/
structure Section.Sound (s : Shared τ) (relied : Prop) (x : Section τ) : Prop where
  size : x.sz < KERNBASE
  wf : x.next.Wf
  touched : relied → ∀ a ∈ x.touched, a < s.sz
  checked : relied → x.next.Checked x.mem x.sz

variable {s : Shared τ} {e : Env τ} {next : Pc} {touched : List ℕ} {mem : Bytes} {R : Prop}

namespace Shared

theorem goto_sound (hsz : s.sz < KERNBASE) (hw : next.Wf) (ht : R → ∀ a ∈ touched, a < s.sz)
    (hc : R → next.Checked s.mem s.sz) : (s.goto touched next).Sound s R :=
  ⟨hsz, hw, ht, hc⟩

theorem storing_plain (hsz : s.sz < KERNBASE) (h : next.Wf ∧ next.Plain)
    (ht : R → ∀ a ∈ touched, a < s.sz) : (s.storing touched mem next).Sound s R :=
  ⟨hsz, h.1, ht, fun _ => h.2.checked⟩

theorem claimed_sound {pc : Pc} {n : ℕ} (hsz : s.sz < KERNBASE) (h : next.Wf ∧ next.Plain)
    (hn : n ∈ pc.claims) (ht : ∀ a ∈ touched, a < n) :
    (s.storing touched mem next).Sound s (pc.Checked s.mem s.sz) :=
  storing_plain hsz h fun hc a ha => (ht a ha).trans_le (hc.claims n hn)

theorem goto_plain (hsz : s.sz < KERNBASE) (h : next.Wf ∧ next.Plain)
    (ht : ∀ a ∈ touched, a < s.sz) : (s.goto touched next).Sound s R :=
  storing_plain hsz h fun _ => ht

theorem pass_sound (hsz : s.sz < KERNBASE) (h : next.Wf ∧ next.Plain) : (s.goto [] next).Sound s R :=
  goto_plain hsz h (by simp)

theorem fetch_sound {β : Type*} {r : List ℕ × Option β} {k : β → Pc} (hsz : s.sz < KERNBASE)
    (ht : ∀ a ∈ r.1, a < s.sz)
    (hk : ∀ v, r.2 = some v → (k v).Wf ∧ (R → (k v).Checked s.mem s.sz)) :
    (s.fetch r k).Sound s R := by
  unfold fetch
  split
  · exact goto_plain hsz ⟨trivial, rfl, rfl⟩ ht
  · next v hv => exact goto_sound hsz (hk v hv).1 (fun _ => ht) (hk v hv).2

end Shared

/-- What has been checked of an argument when the next one is fetched. -/
def Arg.Passed (sz v : ℕ) (vals : List ℕ) : Arg → Prop
  | ptr _ size => v + size ≤ sz
  | buf _ j => vals.getD j 0 < 2 ^ 31
  | int _ | fd _ | str _ => True

namespace SysCall

variable {c : SysCall} {a : Arg} {todo : List Arg} {vals : List ℕ} {esp sz v : ℕ}

theorem body_spec (h : c.args.drop vals.length = [a]) (hp : a.Passed sz v vals) :
    (c.body (vals ++ [v])).Wf ∧ (R → (c.body (vals ++ [v])).Checked mem sz) := by
  have hlen : vals.length = c.args.length - 1 := by
    have := congrArg List.length h
    rw [List.length_drop, List.length_singleton] at this
    omega
  cases c with
  | sysRead | sysWrite =>
    obtain ⟨v₁, v₂, rfl⟩ := List.length_eq_two.mp hlen
    cases h
    exact ⟨hp, fun _ => Pc.Plain.checked ⟨rfl, rfl⟩⟩
  | sysFstat =>
    obtain ⟨v₁, rfl⟩ := List.length_eq_one_iff.mp hlen
    cases h
    exact ⟨trivial, fun _ => ⟨List.forall_mem_singleton.mpr hp, by simp [body, Pc.strings]⟩⟩
  | sysPipe =>
    obtain rfl := List.length_eq_zero_iff.mp hlen
    cases h
    exact ⟨trivial, fun _ => ⟨List.forall_mem_singleton.mpr hp, by simp [body, Pc.strings]⟩⟩
  | sysOpen | sysLink =>
    obtain ⟨v₁, rfl⟩ := List.length_eq_one_iff.mp hlen
    exact ⟨⟨trivial, rfl, rfl⟩, fun _ => Pc.Plain.checked ⟨rfl, rfl⟩⟩
  | sysExec =>
    obtain ⟨v₁, rfl⟩ := List.length_eq_one_iff.mp hlen
    exact ⟨⟨trivial, rfl, rfl⟩, fun _ => Pc.Plain.checked ⟨rfl, rfl⟩⟩
  | sysUnlink | sysMkdir | sysChdir =>
    obtain rfl := List.length_eq_zero_iff.mp hlen
    exact ⟨⟨trivial, rfl, rfl⟩, fun _ => Pc.Plain.checked ⟨rfl, rfl⟩⟩
  | sysMknod =>
    obtain ⟨v₁, v₂, rfl⟩ := List.length_eq_two.mp hlen
    exact ⟨⟨trivial, rfl, rfl⟩, fun _ => Pc.Plain.checked ⟨rfl, rfl⟩⟩
  | sysClone =>
    rcases vals with _ | ⟨v₁, _ | ⟨v₂, _ | ⟨v₃, _ | ⟨v₄, _ | ⟨v₅, vals⟩⟩⟩⟩⟩ <;> try cases hlen
    exact ⟨trivial, fun _ => Pc.Plain.checked ⟨rfl, rfl⟩⟩
  | sysSbrk =>
    obtain rfl := List.length_eq_zero_iff.mp hlen
    exact ⟨trivial, fun _ => Pc.Plain.checked ⟨rfl, rfl⟩⟩

theorem proceed_spec (h : c.args.drop vals.length = a :: todo) (hp : a.Passed sz v vals) :
    (c.proceed esp todo (vals ++ [v])).Wf ∧
      (R → (c.proceed esp todo (vals ++ [v])).Checked mem sz) := by
  unfold proceed
  split_ifs with htodo
  · exact body_spec (htodo ▸ h) hp
  · refine ⟨?_, fun _ => Pc.Plain.checked ⟨rfl, rfl⟩⟩
    change c.args.drop (vals ++ [v]).length = todo
    rw [List.length_append, ← List.drop_drop, h]
    rfl

end SysCall

namespace Shared

variable {c : SysCall} {a : Arg} {todo : List Arg} {vals : List ℕ} {esp v : ℕ} {x : Section τ}

theorem fetchArg_sound (hsz : s.sz < KERNBASE) (h : c.args.drop vals.length = a :: todo) :
    (s.fetchArg e c esp todo vals a).Sound s R := by
  refine fetch_sound hsz (fun _ => fetchint_lt hsz) fun v _ => ?_
  cases a with
  | int i => exact SysCall.proceed_spec h trivial
  | fd i =>
    dsimp only
    split
    · exact SysCall.proceed_spec h trivial
    · exact ⟨trivial, fun _ => Pc.Plain.checked ⟨rfl, rfl⟩⟩
  | _ => exact ⟨h, fun _ => Pc.Plain.checked ⟨rfl, rfl⟩⟩

theorem checkArg_sound (hsz : s.sz < KERNBASE) (h : c.args.drop vals.length = a :: todo)
    (hx : s.checkArg c esp v todo vals a = some x) : x.Sound s R := by
  have hproceed (hp : a.Passed s.sz v vals) :
      (s.goto [] (c.proceed esp todo (vals ++ [v]))).Sound s R := by
    obtain ⟨hw, hc⟩ := SysCall.proceed_spec h hp
    exact goto_sound hsz hw (by simp) hc
  cases a with
  | int i | fd i => cases hx
  | ptr i size =>
    cases hx
    split
    · next hp => exact hproceed (of_argptrChecks hsz hp).2
    · exact pass_sound hsz ⟨trivial, rfl, rfl⟩
  | buf i j =>
    cases hx
    split
    · next hp => exact hproceed (of_argptrChecks hsz hp).1
    · exact pass_sound hsz ⟨trivial, rfl, rfl⟩
  | str i =>
    cases hx
    exact fetch_sound hsz (fun _ => fetchstr_lt) fun _ _ => SysCall.proceed_spec h trivial

theorem moveChunk_sound {toUser : Bool} {b m : ℕ} (hsz : s.sz < KERNBASE) (hm : m < 2 ^ 31)
    (h : next.Wf ∧ next.Plain) : (s.moveChunk e toUser b m next).Sound s R := by
  unfold moveChunk
  dsimp only
  split
  · exact pass_sound hsz h
  · generalize (if toUser then _ else _) = mem'
    split
    · exact storing_plain hsz h fun _ _ => copyUser_lt hsz hm
    · exact pass_sound hsz ⟨trivial, rfl, rfl⟩

theorem consoleRead_sound {dst n target : ℕ} (hsz : s.sz < KERNBASE) (hn : n < 2 ^ 31) :
    (s.consoleRead e dst n target).Sound s R := by
  unfold consoleRead
  split
  · exact pass_sound hsz ⟨trivial, rfl, rfl⟩
  · next hc =>
    have hlen := consoleTake_length (n := n) e.input
    refine storing_plain hsz ?_ fun _ a ha => ?_
    · split_ifs
      · exact ⟨trivial, rfl, rfl⟩
      · exact ⟨(Nat.sub_le _ _).trans_lt hn, rfl, rfl⟩
      · exact ⟨trivial, rfl, rfl⟩
    · obtain ⟨h1, h2⟩ := not_or.mp hc
      have := add_le_of_mod (not_le.mp h1) hn hsz (by rw [Nat.mod_add_mod]; omega)
      have := (mem_span.mp ha).2
      omega

theorem cloneRejects_eq_false {stack : ℕ} (h : s.cloneRejects stack = false) :
    12 ≤ stack ∧ stack ≤ s.sz := by
  have h := of_decide_eq_false h
  simp only [not_or, toUint, KERNBASE] at h
  omega

end Shared

namespace Env

variable {p i n : ℕ}

theorem fileread_spec (hn : n < 2 ^ 31) : (e.fileread p n).Wf ∧ (e.fileread p n).Plain := by
  unfold fileread
  split
  · split
    · exact ⟨hn, rfl, rfl⟩
    · exact ⟨hn, rfl, rfl⟩
    · exact ⟨trivial, rfl, rfl⟩
    · split <;> exact ⟨trivial, rfl, rfl⟩
  · exact ⟨trivial, rfl, rfl⟩

theorem piperead_spec (hn : n < 2 ^ 31) : (e.piperead p n).Wf ∧ (e.piperead p n).Plain := by
  unfold piperead
  split_ifs
  · exact ⟨hn, rfl, rfl⟩
  · exact ⟨trivial, rfl, rfl⟩
  · obtain ⟨h1, h2⟩ := pipeChunks_le e.nread (min (e.nwrite - e.nread) n)
    refine ⟨⟨?_, trivial, rfl, rfl⟩, rfl, rfl⟩
    simp only [List.forall_mem_cons, List.not_mem_nil, false_imp_iff, implies_true, and_true]
    omega

theorem pipewrite_spec (hn : n < 2 ^ 31) : (e.pipewrite p i n).Wf ∧ (e.pipewrite p i n).Plain := by
  unfold pipewrite
  split_ifs
  · exact ⟨hn, rfl, rfl⟩
  · exact ⟨trivial, rfl, rfl⟩
  · obtain ⟨h1, h2⟩ := pipeChunks_le e.nwrite (min (e.nread + PIPESIZE - e.nwrite) (n - i))
    refine ⟨⟨?_, hn, rfl, rfl⟩, rfl, rfl⟩
    simp only [List.forall_mem_cons, List.not_mem_nil, false_imp_iff, implies_true, and_true]
    omega
  · exact ⟨trivial, rfl, rfl⟩

theorem filewrite_spec : (e.filewrite p i n).Wf ∧ (e.filewrite p i n).Plain := by
  unfold filewrite
  split_ifs
  · dsimp only
    split
    · refine ⟨⟨?_, trivial, rfl, rfl⟩, rfl, rfl⟩
      exact (min_le_right _ _).trans_lt (by decide)
    · exact ⟨trivial, rfl, rfl⟩
    all_goals split_ifs
    all_goals first | exact ⟨trivial, rfl, rfl⟩ | exact ⟨⟨trivial, rfl, rfl⟩, rfl, rfl⟩
  · exact ⟨trivial, rfl, rfl⟩

end Env

section

variable [DecidableEq τ] [Fintype τ] {t : τ} {pc : Pc} {x : Section τ} {strs : List (ℕ × ℕ)}

theorem Pc.execNext_wf : (execNext strs).Wf := by
  cases strs <;> trivial

theorem Pc.execNext_checked {sz : ℕ} (h : ∀ x ∈ strs, x.1 ≤ x.2 ∧ x.2 < sz ∧ mem x.2 = 0) :
    (execNext strs).Checked mem sz := by
  cases strs with
  | nil => exact Plain.checked ⟨rfl, rfl⟩
  | cons x strs => exact ⟨by simp [execNext, claims], h⟩

namespace Shared

theorem execStr_sound {p z : ℕ} (hsz : s.sz < KERNBASE)
    (hx : s.run t e (.execStr p z strs) = some x) :
    x.Sound s ((Pc.execStr p z strs).Checked s.mem s.sz) := by
  cases hx
  have htouched (hc : (Pc.execStr p z strs).Checked s.mem s.sz) : ∀ a ∈ [p], a < s.sz := by
    obtain ⟨hle, hlt, -⟩ := (List.forall_mem_cons.mp hc.strings).1
    exact List.forall_mem_singleton.mpr (hle.trans_lt hlt)
  split
  · split
    · exact goto_sound hsz Pc.execNext_wf htouched fun hc =>
        Pc.execNext_checked (List.forall_mem_cons.mp hc.strings).2
    · exact goto_sound hsz trivial htouched fun _ => Pc.Plain.checked ⟨rfl, rfl⟩
  · next hp =>
    refine goto_sound hsz trivial htouched fun hc => ⟨hc.claims, ?_⟩
    obtain ⟨⟨hle, hlt, h0⟩, hstrs⟩ := List.forall_mem_cons.mp hc.strings
    -- the byte is not the terminator, so the terminator stands behind it
    have hpz : p < z := lt_of_le_of_ne hle fun h => hp (h ▸ h0)
    have hmod : (p + 1) % 2 ^ 32 = p + 1 :=
      Nat.mod_eq_of_lt (by simp only [KERNBASE] at hsz hlt; omega)
    exact List.forall_mem_cons.mpr ⟨⟨hmod.trans_le hpz, hlt, h0⟩, hstrs⟩

theorem execArg_sound {i uargv uarg : ℕ} (hsz : s.sz < KERNBASE)
    (hx : s.run t e (.execArg i uargv uarg strs) = some x) :
    x.Sound s ((Pc.execArg i uargv uarg strs).Checked s.mem s.sz) := by
  cases hx
  refine fetch_sound hsz (fun _ => fetchstr_lt) fun len hlen =>
    ⟨trivial, fun hc => ⟨hc.claims, List.forall_mem_append.mpr ⟨hc.strings, ?_⟩⟩⟩
  exact List.forall_mem_singleton.mpr ⟨Nat.le_add_right _ _, fetchstr_some hlen⟩

theorem run_sound (hsz : s.sz < KERNBASE) (hw : pc.Wf) (hx : s.run t e pc = some x) :
    x.Sound s (pc.Checked s.mem s.sz) := by
  cases pc with
  | user => cases hx
  | ret r | fs | sbrk n => cases hx; exact pass_sound hsz ⟨trivial, rfl, rfl⟩
  | args c esp todo vals =>
    cases todo with
    | nil => cases hx
    | cons a todo => cases hx; exact fetchArg_sound hsz hw
  | check c esp a v todo vals => exact checkArg_sound hsz hw hx
  | paths ps next =>
    cases ps with
    | nil => cases hx; exact pass_sound hsz hw
    | cons p ps =>
      cases hx
      split
      · exact goto_plain hsz ⟨trivial, rfl, rfl⟩ fun _ => copyStrLoop_lt
      · exact goto_plain hsz ⟨hw, rfl, rfl⟩ fun _ => copyStrLoop_lt
  | chunks toUser ops next =>
    cases ops with
    | nil => cases hx; exact pass_sound hsz hw.2
    | cons op ops =>
      cases hx
      obtain ⟨hm, hops⟩ := List.forall_mem_cons.mp hw.1
      exact moveChunk_sound hsz hm ⟨⟨hops, hw.2⟩, rfl, rfl⟩
  | fileread p n => cases hx; exact pass_sound hsz (Env.fileread_spec hw)
  | piperead p n => cases hx; exact pass_sound hsz (Env.piperead_spec hw)
  | pipewrite p i n => cases hx; exact pass_sound hsz (Env.pipewrite_spec hw)
  | blocks p i n => cases hx; exact pass_sound hsz Env.filewrite_spec
  | readi dst off left n =>
    rw [run] at hx
    split at hx <;> cases hx
    · exact pass_sound hsz ⟨trivial, rfl, rfl⟩
    · exact pass_sound hsz
        ⟨⟨List.forall_mem_singleton.mpr (piece_lt left off), trivial, rfl, rfl⟩, rfl, rfl⟩
  | writei src off left next =>
    rw [run] at hx
    split at hx <;> cases hx
    · exact pass_sound hsz hw
    · exact pass_sound hsz
        ⟨⟨List.forall_mem_singleton.mpr (piece_lt left off), hw, rfl, rfl⟩, rfl, rfl⟩
  | consoleread dst n target => cases hx; exact consoleRead_sound hsz hw
  | filewrite p n =>
    cases hx
    split_ifs
    · exact pass_sound hsz ⟨hw, rfl, rfl⟩
    all_goals exact pass_sound hsz ⟨trivial, rfl, rfl⟩
  | consolewrite buf n next =>
    cases hx
    split
    · exact goto_plain hsz hw.2 fun _ => copyUser_lt hsz hw.1
    · exact goto_plain hsz ⟨trivial, rfl, rfl⟩ fun _ => copyUser_lt hsz hw.1
  | filestat st =>
    rw [run] at hx
    split at hx <;> cases hx
    · exact claimed_sound hsz ⟨trivial, rfl, rfl⟩ (List.mem_singleton_self _) fun _ =>
        lt_of_mem_statBytes
    · exact pass_sound hsz ⟨trivial, rfl, rfl⟩
  | pipe p =>
    rw [run] at hx
    split at hx <;> cases hx
    · exact claimed_sound hsz ⟨trivial, rfl, rfl⟩ (List.mem_singleton_self _) fun _ ha =>
        (mem_span.mp ha).2
    · exact pass_sound hsz ⟨trivial, rfl, rfl⟩
  | clone arg1 arg2 stack =>
    cases hx
    split
    · exact pass_sound hsz ⟨trivial, rfl, rfl⟩
    · next h =>
      obtain ⟨h12, hle⟩ := cloneRejects_eq_false (Bool.eq_false_of_not_eq_true h)
      exact goto_sound hsz h12 (by simp) fun _ =>
        ⟨List.forall_mem_singleton.mpr hle, by simp [Pc.strings]⟩
  | cloneStack arg1 arg2 stack =>
    have h12 : 12 ≤ stack := hw
    rw [run] at hx
    split at hx <;> cases hx
    · refine claimed_sound hsz ⟨trivial, rfl, rfl⟩ (List.mem_singleton_self _) fun a ha => ?_
      have := (mem_span.mp ha).2
      omega
    · exact pass_sound hsz ⟨trivial, rfl, rfl⟩
  | clonePublish =>
    cases hx
    exact ⟨hsz, trivial, by simp [goto], fun _ => Pc.Plain.checked ⟨rfl, rfl⟩⟩
  | execArgv i uargv strs =>
    rw [run] at hx
    split at hx <;> cases hx
    · exact pass_sound hsz ⟨trivial, rfl, rfl⟩
    · refine fetch_sound hsz (fun _ => fetchint_lt hsz) fun uarg _ => ?_
      split <;> exact ⟨trivial, fun hc => ⟨hc.claims, hc.strings⟩⟩
  | execArg i uargv uarg strs => exact execArg_sound hsz hx
  | execMark strs =>
    cases hx
    split
    · exact goto_sound hsz trivial (by simp) fun hc => ⟨hc.claims, hc.strings⟩
    · exact pass_sound hsz ⟨trivial, rfl, rfl⟩
  | execWait strs =>
    rw [run] at hx
    split at hx <;> cases hx
    exact goto_sound hsz trivial (by simp) fun hc => ⟨hc.claims, hc.strings⟩
  | execLoad strs =>
    cases hx
    split
    · exact goto_sound hsz Pc.execNext_wf (by simp) fun hc => Pc.execNext_checked hc.strings
    · exact pass_sound hsz ⟨trivial, rfl, rfl⟩
  | execStr p z rest => exact execStr_sound hsz hx
  | execCommit =>
    cases hx
    refine ⟨?_, trivial, by simp, fun _ => Pc.Plain.checked ⟨rfl, rfl⟩⟩
    dsimp only
    split
    · exact e.image.isLt
    · exact hsz
  | growproc n addr =>
    rw [run] at hx
    split at hx <;> cases hx
    · exact pass_sound hsz ⟨trivial, rfl, rfl⟩
    · next sz hgrow =>
      exact ⟨growSize_lt hsz hgrow, trivial, by simp [goto], fun _ => Pc.Plain.checked ⟨rfl, rfl⟩⟩

theorem step_sound {ev : Event τ} (hsz : s.sz < KERNBASE) (hw : pc.Wf)
    (hx : s.step t pc ev = some x) : x.Sound s (pc.Checked s.mem s.sz) := by
  cases ev with
  | run e => exact run_sound hsz hw hx
  | call c esp =>
    rw [step] at hx
    split at hx <;> cases hx
    exact pass_sound hsz ⟨rfl, rfl, rfl⟩
  | store a v =>
    rw [step] at hx
    split at hx <;> cases hx
    exact storing_plain hsz ⟨trivial, rfl, rfl⟩ (by simp)
  | exit =>
    rw [step] at hx
    split at hx <;> cases hx
    exact ⟨hsz, trivial, by simp [goto], fun _ => Pc.Plain.checked ⟨rfl, rfl⟩⟩

end Shared

end

end KThreads.Access

namespace KThreads.Access

open Transition (Reach anyStep)

variable {τ : Type*} [DecidableEq τ] [Fintype τ] {c : Process τ}

/-- A step takes away nothing that another thread relies on: the size that it
leaves is above every checked range that is still to be used, and the strings that
`exec` is to read keep their terminators. -/
def keepsChecked (c : Process τ) (l : τ × Event τ) : Prop :=
  ∀ x ∈ c.shared.step l.1 (c.loc l.1) l.2, ∀ u, u ≠ l.1 → (c.loc u).Checked x.mem x.sz

instance (c : Process τ) (l : τ × Event τ) : Decidable (keepsChecked c l) :=
  inferInstanceAs (Decidable (∀ _ ∈ c.shared.step l.1 (c.loc l.1) l.2, _))

theorem exists_section {s s' : Shared τ} {t : τ} {pc pc' : Pc} {ev : Event τ}
    (h : act s t pc ev = some (s', pc')) :
    ∃ x, s.step t pc ev = some x ∧ pc' = x.next ∧ s'.mem = x.mem ∧ s'.sz = x.sz ∧
      s'.derefs = s.derefs ++ x.touched.map fun a => (a, s.sz) := by
  unfold act at h
  split at h
  · obtain ⟨x, hx, heq⟩ := Option.map_eq_some_iff.mp h
    cases heq
    exact ⟨x, hx, rfl, rfl, rfl, rfl⟩
  · cases h

/-- **Check and use.** In a run in which no step takes away what another thread
relies on, every user address was below the size of the process when the kernel
dereferenced it. -/
theorem derefs_below_size (h : Reach (process τ) keepsChecked c) :
    ∀ d ∈ c.shared.derefs, d.1 < d.2 := by
  have hinv := Interleaving.invariant
    (I := fun s => s.sz < KERNBASE ∧ ∀ d ∈ s.derefs, d.1 < d.2)
    (A := fun s _ pc => pc.Wf ∧ pc.Checked s.mem s.sz) ?_ ?_ ?_ h
  · exact hinv.1.2
  · intro c hc
    refine ⟨⟨hc.1, by simp [hc.2.1]⟩, fun t => ?_⟩
    rw [hc.2.2 t]
    exact ⟨trivial, Pc.Plain.checked ⟨rfl, rfl⟩⟩
  · rintro c t ev s' pc' ⟨hsz, hd⟩ ⟨hw, hc⟩ - hact
    obtain ⟨x, hx, rfl, hmem, hsz', hd'⟩ := exists_section hact
    have hsound := Shared.step_sound hsz hw hx
    refine ⟨⟨hsz' ▸ hsound.size, ?_⟩, hsound.wf, hmem ▸ hsz' ▸ hsound.checked hc⟩
    rw [hd']
    refine List.forall_mem_append.mpr ⟨hd, List.forall_mem_map.mpr ?_⟩
    exact hsound.touched hc
  · rintro c t u ev s' pc' hu - - ⟨hw, -⟩ hok hact
    obtain ⟨x, hx, -, hmem, hsz', -⟩ := exists_section hact
    exact ⟨hw, hmem ▸ hsz' ▸ hok x hx u hu⟩

/-- Two threads of a process with 8192 bytes, in which the words given stand at
their addresses. -/
def twoThreads (words : List (ℕ × ℕ)) : Process (Fin 2) where
  shared :=
    { mem := words.foldl (fun mem x => storeWord mem x.1 x.2) fun _ => 0
      sz := 8192
      alive := fun _ => true
      leader := 0
      derefs := [] }
  loc _ := .user

/-- A thread makes the next `n` steps of its call. -/
def runs (t : Fin 2) (n : ℕ) : List (Fin 2 × Event (Fin 2)) := List.replicate n (t, .run {})

/-- A thread makes a system call with its stack at `esp`, and the next `n` steps. -/
def calls (t : Fin 2) (sc : SysCall) (esp n : ℕ) : List (Fin 2 × Event (Fin 2)) :=
  (t, .call sc esp) :: runs t n

theorem initial_twoThreads (words : List (ℕ × ℕ)) : (twoThreads words).initial :=
  ⟨(by decide : 8192 < KERNBASE), rfl, fun _ => rfl⟩

/-- A thread shrinks the process from two pages to one while another one is in
`pipe`: the descriptors are stored, in the page that is left. -/
theorem derefs_below_size_pipe :
    ∃ c : Process (Fin 2), c.shared.sz = 4096 ∧ (1000, 4096) ∈ c.shared.derefs ∧
      ∀ d ∈ c.shared.derefs, d.1 < d.2 := by
  obtain ⟨c, -, hr, hsz, hd⟩ := Interleaving.exists_of_scriptWhile act
    (initial_twoThreads [(4, 1000), (68, 2 ^ 32 - 4096)]) keepsChecked
    (calls 0 .sysPipe 0 2 ++ calls 1 .sysSbrk 64 3 ++ runs 0 1)
    (fun c => c.shared.sz = 4096 ∧ (1000, 4096) ∈ c.shared.derefs) (by decide)
  exact ⟨c, hsz, hd, derefs_below_size hr⟩

/-- `pipe`, `fstat`, `clone` and `exec` check an address in the second page; another
thread gives the page back; and the kernel dereferences the address. -/
theorem derefs_beyond_size :
    [(SysCall.sysPipe, 5000), (.sysFstat, 5000), (.sysClone, 8180), (.sysExec, 5000)].Forall
      fun x => ∃ words n rest c, Transition.exec (Interleaving.next act) (twoThreads words)
          (calls 0 x.1 0 n ++ calls 1 .sysSbrk 64 4 ++ rest) = some c ∧
        Reach (process (Fin 2)) anyStep c ∧ (x.2, 4096) ∈ c.shared.derefs := by
  refine ⟨?_, ?_, ?_, ?_⟩
  · exact ⟨[(4, 5000), (68, 2 ^ 32 - 4096)], 2, runs 0 1,
      Interleaving.exists_of_script act (initial_twoThreads _) _
        (fun c => (5000, 4096) ∈ c.shared.derefs) (by decide)⟩
  · exact ⟨[(8, 5000), (68, 2 ^ 32 - 4096)], 3, runs 0 1,
      Interleaving.exists_of_script act (initial_twoThreads _) _
        (fun c => (5000, 4096) ∈ c.shared.derefs) (by decide)⟩
  · exact ⟨[(16, 8192), (68, 2 ^ 32 - 4096)], 9, runs 0 1,
      Interleaving.exists_of_script act (initial_twoThreads _) _
        (fun c => (8180, 4096) ∈ c.shared.derefs) (by decide)⟩
  · exact ⟨[(4, 100), (8, 200), (200, 5000), (68, 2 ^ 32 - 4096)], 9, (1, .exit) :: runs 0 3,
      Interleaving.exists_of_script act (initial_twoThreads _) _
        (fun c => (5000, 4096) ∈ c.shared.derefs) (by decide +kernel)⟩

end KThreads.Access
