import KThreads.Lib.Interleaving
import KThreads.Basic

/-!
# Access to user memory

The system calls of the threads of one process, as far as they dereference user
addresses. A section under the `vlock` of the process is one step, and so is a
stretch without the lock. The size of the process and the bytes of its memory
are shared; descriptors, pipes, inodes, the console and the page allocator enter
through the outcome they have.

Every address that the kernel dereferences is recorded together with the size of
the process at that moment.
-/

namespace KThreads.Access

open Function (update)

/-- `NUSERSTRING`: the size of the kernel's copy of a path. -/
abbrev NUSERSTRING : ℕ := 512

/-- `BSIZE`: bytes of a disk block. -/
abbrev BSIZE : ℕ := 512

/-- `PIPESIZE`: bytes of the buffer of a pipe. -/
abbrev PIPESIZE : ℕ := 512

/-- `MAXFILE`: blocks of a file. -/
abbrev MAXFILE : ℕ := 140

/-- `MAXARG`: arguments of `exec`. -/
abbrev MAXARG : ℕ := 32

/-- `sizeof(struct stat)` -/
abbrev STATSIZE : ℕ := 20

/-- The most that `filewrite` passes to one `writei`. -/
abbrev WRITEMAX : ℕ := (10 - 1 - 1 - 2) / 2 * 512

/-- The bytes of user memory. -/
abbrev Bytes := ℕ → UInt8

section

variable (mem : Bytes) (sz : ℕ)

/-- The addresses of `n` bytes. -/
def span (a n : ℕ) : List ℕ := (List.range n).map fun i => a + i

/-- The word at an address. -/
def word (a : ℕ) : ℕ :=
  (mem a).toNat + 256 * (mem (a + 1)).toNat + 65536 * (mem (a + 2)).toNat +
    16777216 * (mem (a + 3)).toNat

/-- Store a word. -/
def storeWord (a w : ℕ) : Bytes :=
  update (update (update (update mem a (.ofNat w)) (a + 1) (.ofNat (w / 256))) (a + 2)
    (.ofNat (w / 65536))) (a + 3) (.ofNat (w / 16777216))

/-- Store data at the given addresses. -/
def store (as : List ℕ) (data : Bytes) : Bytes := fun a => if a ∈ as then data a else mem a

/-- `fetchint`: the addresses dereferenced and the word fetched. -/
def fetchint (addr : ℕ) : List ℕ × Option ℕ :=
  if addr ≥ sz ∨ (addr + 4) % 2 ^ 32 > sz then ([], none) else (span addr 4, some (word mem addr))

/-- The length of the string at an address, if its NUL is one of `n` bytes. -/
def strlenWithin : ℕ → ℕ → Option ℕ
  | 0, _ => none
  | n + 1, a => if mem a = 0 then some 0 else (strlenWithin n (a + 1)).map (· + 1)

/-- `fetchstr`: the addresses dereferenced and the length of the string. -/
def fetchstr (addr : ℕ) : List ℕ × Option ℕ :=
  if addr ≥ sz then ([], none)
  else
    match strlenWithin mem (sz - addr) addr with
    | some len => (span addr (len + 1), some len)
    | none => (span addr (sz - addr), none)

/-- The check of `argptr`. -/
def argptrChecks (i size : ℕ) : Bool := ¬(2 ^ 31 ≤ size ∨ i ≥ sz ∨ (i + size) % 2 ^ 32 > sz)

/-- `copy_from_user` and `copy_to_user`: the addresses that `memmove` dereferences
in user memory, and whether the check succeeds. -/
def copyUser (a n : ℕ) : List ℕ × Bool :=
  if a % 2 ^ 32 ≥ sz ∨ (a + n) % 2 ^ 32 > sz then ([], false) else (span (a % 2 ^ 32) n, true)

/-- The loop of `copy_str_from_user`: the addresses it dereferences, and its
counter. -/
def copyStrLoop : ℕ → ℕ → List ℕ × ℕ
  | 0, _ => ([], 0)
  | limit + 1, src =>
      if src < sz then
        if mem src = 0 then ([src], 0)
        else (src :: (copyStrLoop limit (src + 1)).1, (copyStrLoop limit (src + 1)).2 + 1)
      else ([], 0)

/-- `copy_str_from_user`: the addresses dereferenced, and the counter returned. -/
def copyStrFromUser (src limit : ℕ) : List ℕ × Option ℕ :=
  let r := copyStrLoop mem sz limit src
  -- `src` is advanced past every byte that is copied, the NUL included
  (r.1, if src + r.1.length = sz then none else some r.2)

/-- The characters that `consoleread` delivers from the committed input, and
whether it is done with them. -/
def consoleTake : ℕ → List UInt8 → List UInt8 × Bool
  | 0, _ => ([], true)
  | _ + 1, [] => ([], false)
  | n + 1, c :: cs =>
      if c = 4 then ([], true)
      else if c = 10 then ([c], true)
      else (c :: (consoleTake n cs).1, (consoleTake n cs).2)

/-- The two pieces in which `bytes` bytes of a pipe's buffer are moved, from the
counter `pos` on. -/
def pipeChunks (pos bytes : ℕ) : ℕ × ℕ :=
  let chunk1 := if bytes > PIPESIZE - pos % PIPESIZE then PIPESIZE - pos % PIPESIZE else bytes
  (chunk1, bytes - chunk1)

/-- The bytes of `*st` that `stati` assigns. -/
def statBytes (st : ℕ) : List ℕ :=
  span st 2 ++ span (st + 4) 4 ++ span (st + 8) 4 ++ span (st + 12) 2 ++ span (st + 16) 4

/-- An `int` argument from the word that was fetched. -/
def toInt (v : ℕ) : ℤ := if v < 2 ^ 31 then v else v - 2 ^ 32

/-- The size that `growproc(n)` gives the process, `none` where it fails: what
`allocuvm` returns, when there is memory or not, and what `deallocuvm` returns. -/
def growSize (ok : Bool) (n : ℤ) : Option ℕ :=
  let newsz := toUint (sz + n)
  if n > 0 then
    if newsz ≥ KERNBASE then none
    else if newsz < sz then some sz
    else if ok then some newsz else none
  else if n < 0 then
    let r := if newsz ≥ sz then sz else newsz
    if r = 0 then none else some r
  else some sz

end

/-- The system calls that dereference user addresses, and `sbrk`. -/
inductive SysCall
  | sysRead | sysWrite | sysFstat | sysPipe | sysOpen | sysLink | sysUnlink | sysMkdir | sysMknod
  | sysChdir | sysExec | sysClone | sysSbrk
  deriving DecidableEq

/-- The functions that fetch argument `i`. -/
inductive Arg
  | int (i : ℕ)
  | fd (i : ℕ)
  | ptr (i size : ℕ)
  /-- A pointer to as many bytes as the `j`th argument fetched before it says. -/
  | buf (i j : ℕ)
  | str (i : ℕ)
  deriving DecidableEq

/-- The position of an argument on the user stack. -/
def Arg.pos : Arg → ℕ
  | int i | fd i | ptr i _ | buf i _ | str i => i

/-- The arguments of a call, in the order in which it fetches them. -/
def SysCall.args : SysCall → List Arg
  | sysRead | sysWrite => [.fd 0, .int 2, .buf 1 1]
  | sysFstat => [.fd 0, .ptr 1 STATSIZE]
  | sysPipe => [.ptr 0 8]
  | sysOpen => [.str 0, .int 1]
  | sysLink => [.str 0, .str 1]
  | sysUnlink | sysMkdir | sysChdir => [.str 0]
  | sysMknod => [.str 0, .int 1, .int 2]
  | sysExec => [.str 0, .int 1]
  | sysClone => [.ptr 0 0, .ptr 1 0, .ptr 2 0, .int 3, .int 4]
  | sysSbrk => [.int 0]

/-- Where a thread is. A string of `exec` is kept as its address and, as a
history, the address of the NUL that `fetchstr` has found. -/
inductive Pc
  | user
  | ret (r : ℤ)
  /-- Fetching arguments, with the values fetched so far. -/
  | args (c : SysCall) (esp : ℕ) (todo : List Arg) (vals : List ℕ)
  /-- In the second section of `argptr` or `argstr`. -/
  | check (c : SysCall) (esp : ℕ) (a : Arg) (v : ℕ) (todo : List Arg) (vals : List ℕ)
  /-- Copying paths into the kernel. -/
  | paths (ps : List ℕ) (next : Pc)
  /-- In the file system, with kernel copies of the paths. -/
  | fs
  /-- Moving pieces of data from or to user memory. -/
  | chunks (toUser : Bool) (ops : List (ℕ × ℕ)) (next : Pc)
  | fileread (p n : ℕ)
  | piperead (p n : ℕ)
  | readi (dst off left n : ℕ)
  | consoleread (dst n target : ℕ)
  | filewrite (p n : ℕ)
  | pipewrite (p i n : ℕ)
  /-- In the loop of `filewrite`. -/
  | blocks (p i n : ℕ)
  | writei (src off left : ℕ) (next : Pc)
  | consolewrite (buf n : ℕ) (next : Pc)
  | filestat (st : ℕ)
  | pipe (p : ℕ)
  | clone (arg1 arg2 stack : ℕ)
  | cloneStack (arg1 arg2 stack : ℕ)
  | clonePublish
  /-- Fetching the argument vector of `exec`. -/
  | execArgv (i uargv : ℕ) (strs : List (ℕ × ℕ))
  | execArg (i uargv uarg : ℕ) (strs : List (ℕ × ℕ))
  | execMark (strs : List (ℕ × ℕ))
  | execWait (strs : List (ℕ × ℕ))
  | execLoad (strs : List (ℕ × ℕ))
  /-- Reading the string at `p`, whose NUL was at `z`. -/
  | execStr (p z : ℕ) (rest : List (ℕ × ℕ))
  | execCommit
  | sbrk (n : ℕ)
  | growproc (n addr : ℕ)
  deriving DecidableEq

/-- Where a call goes on when its arguments have been fetched. -/
def SysCall.body : SysCall → List ℕ → Pc
  | sysRead, [_, n, p] => .fileread p n
  | sysWrite, [_, n, p] => .filewrite p n
  | sysFstat, [_, st] => .filestat st
  | sysPipe, [p] => .pipe p
  | sysOpen, [path, _] => .paths [path] .fs
  | sysLink, [old, new] => .paths [old, new] .fs
  | sysUnlink, [path] | sysMkdir, [path] | sysChdir, [path] => .paths [path] .fs
  | sysMknod, [path, _, _] => .paths [path] .fs
  | sysExec, [path, uargv] => .paths [path] (.execArgv 0 uargv [])
  | sysClone, [_, arg1, arg2, stack, _] => .clone arg1 arg2 stack
  | sysSbrk, [n] => .sbrk n
  | _, _ => .ret (-1)

/-- Go on with the next argument, or with the call. -/
def SysCall.proceed (c : SysCall) (esp : ℕ) (todo : List Arg) (vals : List ℕ) : Pc :=
  if todo = [] then c.body vals else .args c esp todo vals

/-- What the threads of a process share. -/
structure Shared (τ : Type*) where
  mem : Bytes
  sz : ℕ
  alive : τ → Bool
  leader : τ
  /-- The user addresses dereferenced so far, each with the size at that moment. -/
  derefs : List (ℕ × ℕ)

/-- The kind of file behind a descriptor. -/
inductive FileKind
  | pipe | inode | console
  /-- A device without the function asked for. -/
  | device
  deriving DecidableEq

/-- What a step takes from outside the model. -/
structure Env (τ : Type*) where
  /-- Whether what the step asks the rest of the kernel for succeeds: an open
  descriptor, memory, a slot, a program, not having been killed. -/
  ok : Bool := true
  kind : FileKind := .inode
  /-- The counters of the pipe, and whether its write end is open. -/
  nread : ℕ := 0
  nwrite : ℕ := 0
  writeopen : Bool := true
  /-- The offset in the file, and its size. -/
  off : ℕ := 0
  size : ℕ := 0
  /-- The committed console input. -/
  input : List UInt8 := []
  /-- What the kernel stores, by address. -/
  data : Bytes := fun _ => 0
  result : ℤ := 0
  /-- The slot of the thread that `clone` creates. -/
  child : Option τ := none
  /-- The size of the image of `exec`. -/
  image : Fin KERNBASE := ⟨0, by decide⟩

/-- What one step of a thread does. -/
structure Section (τ : Type*) where
  touched : List ℕ
  mem : Bytes
  sz : ℕ
  alive : τ → Bool
  next : Pc

/-- Go on with the next argument string of `exec`. -/
def Pc.execNext : List (ℕ × ℕ) → Pc
  | [] => .execCommit
  | (p, z) :: rest => .execStr p z rest

variable {τ : Type*}

namespace Env

variable (e : Env τ)

/-- `fileread` up to the copies of a pipe, the console, or the loop of `readi`. -/
def fileread (p n : ℕ) : Pc :=
  if e.ok then
    match e.kind with
    | .pipe => .piperead p n
    | .console => .consoleread p n n
    | .device => .ret (-1)
    | .inode =>
        if e.off > e.size ∨ (e.off + n) % 2 ^ 32 < e.off then .ret (-1)
        else
          let n := if (e.off + n) % 2 ^ 32 > e.size then e.size - e.off else n
          .readi p e.off n n
  else .ret (-1)

/-- `piperead` up to a sleep or to the copies. -/
def piperead (p n : ℕ) : Pc :=
  if e.nread = e.nwrite ∧ e.writeopen then if e.ok then .piperead p n else .ret (-1)
  else
    let bytes := min (e.nwrite - e.nread) n
    let r := pipeChunks e.nread bytes
    .chunks true [(p, r.1), (p + r.1, r.2)] (.ret bytes)

/-- One iteration of the loop of `pipewrite`, up to a sleep or to the copies. -/
def pipewrite (p i n : ℕ) : Pc :=
  if i < n then
    if e.nwrite = e.nread + PIPESIZE then if e.ok then .pipewrite p i n else .ret (-1)
    else
      let bytes := min (e.nread + PIPESIZE - e.nwrite) (n - i)
      let r := pipeChunks e.nwrite bytes
      .chunks false [(p + i, r.1), (p + i + r.1, r.2)] (.pipewrite p (i + bytes) n)
  else .ret n

/-- One iteration of the loop of `filewrite`, up to the loop of `writei`. -/
def filewrite (p i n : ℕ) : Pc :=
  if i < n then
    let n1 := min (n - i) WRITEMAX
    match e.kind with
    | .console => .consolewrite (p + i) n1 (.blocks p (i + n1) n)
    | .device => .ret (-1)
    | .pipe | .inode =>
        if e.off > e.size ∨ (e.off + n1) % 2 ^ 32 < e.off ∨ e.off + n1 > MAXFILE * BSIZE then
          .ret (-1)
        else .writei (p + i) e.off n1 (.blocks p (i + n1) n)
  else .ret n

end Env

namespace Shared

variable (s : Shared τ)

/-- A step that changes nothing but the point of the thread. -/
def goto (touched : List ℕ) (next : Pc) : Section τ := ⟨touched, s.mem, s.sz, s.alive, next⟩

/-- A step that stores into user memory. -/
def storing (touched : List ℕ) (mem : Bytes) (next : Pc) : Section τ :=
  ⟨touched, mem, s.sz, s.alive, next⟩

/-- A step with a value that is fetched, which fails without one. -/
def fetch {β : Type*} (r : List ℕ × Option β) (next : β → Pc) : Section τ :=
  match r.2 with
  | none => s.goto r.1 (.ret (-1))
  | some v => s.goto r.1 (next v)

/-- The section behind `argint` in `argptr` and `argstr`. -/
def checkArg (c : SysCall) (esp : ℕ) (v : ℕ) (todo : List Arg) (vals : List ℕ) :
    Arg → Option (Section τ)
  | .int _ | .fd _ => none
  | .ptr _ size =>
      some (s.goto [] (if argptrChecks s.sz v size then c.proceed esp todo (vals ++ [v])
        else .ret (-1)))
  | .buf _ j =>
      some (s.goto [] (if argptrChecks s.sz v (vals.getD j 0) then c.proceed esp todo (vals ++ [v])
        else .ret (-1)))
  | .str _ => some (s.fetch (fetchstr s.mem s.sz v) fun _ => c.proceed esp todo (vals ++ [v]))

/-- `argint`, and what `argfd`, `argptr` and `argstr` do next. -/
def fetchArg (e : Env τ) (c : SysCall) (esp : ℕ) (todo : List Arg) (vals : List ℕ) (a : Arg) :
    Section τ :=
  s.fetch (fetchint s.mem s.sz ((esp + 4 + 4 * a.pos) % 2 ^ 32)) fun v =>
    match a with
    | .int _ => c.proceed esp todo (vals ++ [v])
    | .fd _ => if e.ok then c.proceed esp todo (vals ++ [v]) else .ret (-1)
    | .ptr _ _ | .buf _ _ | .str _ => .check c esp a v todo vals

/-- The next piece of data that is moved. -/
def moveChunk (e : Env τ) (toUser : Bool) (a m : ℕ) (next : Pc) : Section τ :=
  let r := copyUser s.sz a m
  if m = 0 then s.goto [] next
  else if r.2 then s.storing r.1 (if toUser then store s.mem r.1 e.data else s.mem) next
  else s.goto [] (.ret (-1))

/-- `consoleread` from the first check, or from a wake-up, to its end or to the
next sleep. -/
def consoleRead (e : Env τ) (dst n target : ℕ) : Section τ :=
  if dst % 2 ^ 32 ≥ s.sz ∨ (dst + n) % 2 ^ 32 > s.sz then s.goto [] (.ret (-1))
  else
    let r := consoleTake n e.input
    let touched := span (dst % 2 ^ 32) r.1.length
    s.storing touched (fun a => if a ∈ touched then r.1.getD (a - dst % 2 ^ 32) 0 else s.mem a)
      (if r.2 then .ret (target - (n - r.1.length))
       else if e.ok then .consoleread (dst + r.1.length) (n - r.1.length) target
       else .ret (-1))

/-- The stack check of `sys_clone` and `clone`. -/
def cloneRejects (stack : ℕ) : Bool :=
  stack > KERNBASE ∨ toUint (stack - 4096) ≥ KERNBASE ∨ toUint (stack - 4096) ≥ s.sz ∨ stack > s.sz

/-- The bytes of the memory behind the stores of `clone`. -/
def cloneStores (arg1 arg2 stack : ℕ) : Bytes :=
  storeWord (storeWord (storeWord s.mem (stack - 4) arg2) (stack - 8) arg1) (stack - 12) 0xffffffff

variable [DecidableEq τ] [Fintype τ]

/-- The next step of the call that the thread `t` is in, `none` where it waits. -/
def run (t : τ) (e : Env τ) : Pc → Option (Section τ)
  | .user => none
  | .ret _ => some (s.goto [] .user)
  | .args _ _ [] _ => none
  | .args c esp (a :: todo) vals => some (s.fetchArg e c esp todo vals a)
  | .check c esp a v todo vals => s.checkArg c esp v todo vals a
  | .paths [] next => some (s.goto [] next)
  | .paths (p :: ps) next =>
      let r := copyStrFromUser s.mem s.sz p NUSERSTRING
      some (s.goto r.1 (if r.2 = none then .ret (-1) else .paths ps next))
  | .fs => some (s.goto [] (.ret e.result))
  | .chunks _ [] next => some (s.goto [] next)
  | .chunks toUser ((a, m) :: ops) next => some (s.moveChunk e toUser a m (.chunks toUser ops next))
  | .fileread p n => some (s.goto [] (e.fileread p n))
  | .piperead p n => some (s.goto [] (e.piperead p n))
  | .readi dst off left n =>
      if left = 0 then some (s.goto [] (.ret n))
      else
        let m := min left (BSIZE - off % BSIZE)
        some (s.goto [] (.chunks true [(dst, m)] (.readi (dst + m) (off + m) (left - m) n)))
  | .consoleread dst n target => some (s.consoleRead e dst n target)
  | .filewrite p n =>
      some (s.goto [] (if e.ok then if e.kind = .pipe then .pipewrite p 0 n else .blocks p 0 n
        else .ret (-1)))
  | .pipewrite p i n => some (s.goto [] (e.pipewrite p i n))
  | .blocks p i n => some (s.goto [] (e.filewrite p i n))
  | .writei src off left next =>
      if left = 0 then some (s.goto [] next)
      else
        let m := min left (BSIZE - off % BSIZE)
        some (s.goto [] (.chunks false [(src, m)] (.writei (src + m) (off + m) (left - m) next)))
  | .consolewrite buf n next =>
      let r := copyUser s.sz buf n
      some (s.goto r.1 (if r.2 then next else .ret (-1)))
  | .filestat st =>
      if e.kind ≠ .pipe then some (s.storing (statBytes st) (store s.mem (statBytes st) e.data) (.ret 0))
      else some (s.goto [] (.ret (-1)))
  | .pipe p =>
      if e.ok then some (s.storing (span p 8) (store s.mem (span p 8) e.data) (.ret 0))
      else some (s.goto [] (.ret (-1)))
  | .clone arg1 arg2 stack =>
      some (s.goto [] (if s.cloneRejects stack then .ret (-1) else .cloneStack arg1 arg2 stack))
  | .cloneStack arg1 arg2 stack =>
      if e.ok then
        some (s.storing (span (stack - 12) 12) (s.cloneStores arg1 arg2 stack) .clonePublish)
      else some (s.goto [] (.ret (-1)))
  | .clonePublish =>
      some { s.goto [] (.ret e.result) with
        alive := fun u => s.alive u || (e.ok && e.child = some u) }
  | .execArgv i uargv strs =>
      if i ≥ MAXARG then some (s.goto [] (.ret (-1)))
      else
        some (s.fetch (fetchint s.mem s.sz ((uargv + 4 * i) % 2 ^ 32)) fun uarg =>
          if uarg = 0 then .execMark strs else .execArg i uargv uarg strs)
  | .execArg i uargv uarg strs =>
      some (s.fetch (fetchstr s.mem s.sz uarg) fun len =>
        .execArgv (i + 1) uargv (strs ++ [(uarg, uarg + len)]))
  | .execMark strs => some (s.goto [] (if e.ok then .execWait strs else .ret (-1)))
  | .execWait strs =>
      if ∀ u, u ≠ t → s.alive u = false then some (s.goto [] (.execLoad strs)) else none
  | .execLoad strs => some (s.goto [] (if e.ok then .execNext strs else .ret (-1)))
  | .execStr p z rest =>
      some (s.goto [p] (if s.mem p = 0 then if e.ok then .execNext rest else .ret (-1)
        else .execStr ((p + 1) % 2 ^ 32) z rest))
  | .execCommit =>
      some ⟨[], e.data, if t = s.leader then e.image else s.sz, s.alive, .ret 0⟩
  | .sbrk n => some (s.goto [] (.growproc n s.sz))
  | .growproc n addr =>
      match growSize s.sz e.ok (toInt n) with
      | none => some (s.goto [] (.ret (-1)))
      | some sz => some { s.goto [] (.ret addr) with sz := sz }

end Shared

/-- What happens to a thread next: it traps into the kernel with a call, stores
into its memory, exits, or makes the next step of its call. -/
inductive Event (τ : Type*)
  | call (c : SysCall) (esp : ℕ)
  | store (a : ℕ) (v : UInt8)
  | exit
  | run (e : Env τ)

variable [DecidableEq τ] [Fintype τ]

/-- The step of a thread. -/
def Shared.step (s : Shared τ) (t : τ) (pc : Pc) : Event τ → Option (Section τ)
  | .call c esp => if pc = .user then some (s.goto [] (.args c esp c.args [])) else none
  | .store a v => if pc = .user then some (s.storing [] (update s.mem a v) .user) else none
  | .exit =>
      if pc = .user then some { s.goto [] .user with alive := update s.alive t false } else none
  | .run e => s.run t e pc

/-- The effect of a step on the shared state and on the point of its thread. -/
def act (s : Shared τ) (t : τ) (pc : Pc) (ev : Event τ) : Option (Shared τ × Pc) :=
  if s.alive t then
    (s.step t pc ev).map fun x =>
      ({ s with
          mem := x.mem
          sz := x.sz
          alive := x.alive
          derefs := s.derefs ++ x.touched.map fun a => (a, s.sz) }, x.next)
  else none

/-- The threads of a process. -/
abbrev Process (τ : Type*) := Interleaving.Config τ (Shared τ) Pc

/-- A process with any memory, all of whose threads are in user space. -/
def Process.initial (c : Process τ) : Prop :=
  c.shared.sz < KERNBASE ∧ c.shared.derefs = [] ∧ ∀ t, c.loc t = .user

/-- The process as a transition system. -/
abbrev process (τ : Type*) [DecidableEq τ] [Fintype τ] :
    Transition.System (Process τ) (τ × Event τ) :=
  Interleaving.system Process.initial act

end KThreads.Access
