import KThreads.Inode.Held
import KThreads.Pipe.Calls

/-!
# System calls that fail

When `pipe`, `dup` or `open` returns -1, the descriptors, the counters of the file table and of the inode
cache and the free pages are what they were. A file that was allocated and not yet opened has the type
`FD_NONE`, so that `fileclose` gives back nothing else; the page of a pipe comes back with the second of
its ends.
-/

namespace KThreads.Objects

open Function (update)
open Inode (FileType Layout)

inductive FileKind
  | FD_NONE
  | FD_PIPE
  | FD_INODE
  deriving DecidableEq

/-- `struct file`. A pipe is the number of its page. A file without references has the type `FD_NONE`:
the table is zero at the start, `filealloc` finds the file so, and the last `fileclose` leaves it so. -/
structure OpenFile where
  type : FileKind
  ref : ℕ
  readable : Bool
  writable : Bool
  pipe : ℕ
  ip : Inode.Slot
  off : ℕ
  idle : ref = 0 → type = .FD_NONE

/-- `f->type = type`, by the owner of a reference. -/
def OpenFile.setType (x : OpenFile) (type : FileKind) : OpenFile :=
  if h : x.ref = 0 then x else { x with type, idle := fun h' => absurd h' h }

abbrev FileIndex := Fin NFILE

abbrev Fd := Fin NOFILE

/-- The caller's `ofile`, the file table, the free pages, what each page is as a `struct pipe`, and the
inodes. -/
structure State where
  ofile : Fd → Option FileIndex
  file : FileIndex → OpenFile
  free : List ℕ
  pipe : ℕ → Pipe.Buffer
  inode : Inode.State

abbrev O_RDONLY : ℕ := 0x000
abbrev O_WRONLY : ℕ := 0x001
abbrev O_RDWR : ℕ := 0x002
abbrev O_CREATE : ℕ := 0x200

namespace State

variable (s : State)

def setFile (f : FileIndex) (x : OpenFile) : State := { s with file := update s.file f x }

def setFd (fd : Fd) (f : Option FileIndex) : State := { s with ofile := update s.ofile fd f }

def kalloc : Option (State × ℕ) :=
  match s.free with
  | [] => none
  | p :: free => some ({ s with free }, p)

/-- A page that is filled with ones, as a `struct pipe`. -/
def junk : Pipe.Buffer := ⟨fun _ => 1, 0x01010101, 0x01010101, true, true⟩

def kfree (p : ℕ) : State := { s with free := p :: s.free, pipe := update s.pipe p junk }

def filealloc : Option (State × FileIndex) :=
  ((List.finRange NFILE).find? fun f => (s.file f).ref = 0).map fun f =>
    (s.setFile f { s.file f with ref := 1, idle := nofun }, f)

def filedup (f : FileIndex) : Option State :=
  if (s.file f).ref < 1 then none
  else some (s.setFile f { s.file f with ref := (s.file f).ref + 1, idle := nofun })

/-- The page is given back when both ends are closed. -/
def pipeclose (p : ℕ) (writable : Bool) : State :=
  let b := if writable then { s.pipe p with writeopen := false } else { s.pipe p with readopen := false }
  let s := { s with pipe := update s.pipe p b }
  if b.readopen = false ∧ b.writeopen = false then s.kfree p else s

def fileclose (f : FileIndex) : Option State :=
  if (s.file f).ref < 1 then none
  else if h : (s.file f).ref - 1 > 0 then
    some (s.setFile f { s.file f with ref := (s.file f).ref - 1, idle := fun h' => absurd h' h.ne' })
  else
    let ff := s.file f
    let s := s.setFile f { s.file f with ref := 0, type := .FD_NONE, idle := fun _ => rfl }
    match ff.type with
    | .FD_PIPE => some (s.pipeclose ff.pipe ff.writable)
    | .FD_INODE => (s.inode.iput ff.ip).map fun inode => { s with inode }
    | .FD_NONE => some s

def fdalloc (f : FileIndex) : Option (State × Fd) :=
  ((List.finRange NOFILE).find? fun fd => s.ofile fd = none).map fun fd => (s.setFd fd (some f), fd)

theorem toNat_lt_nofile {fd : ℤ} (h : 0 ≤ fd ∧ fd < NOFILE) : fd.toNat < NOFILE := by omega

/-- `argfd`, for an argument that has been fetched. -/
def argfd (fd : Option ℤ) : Option FileIndex :=
  fd.bind fun fd => if h : 0 ≤ fd ∧ fd < NOFILE then s.ofile ⟨fd.toNat, toNat_lt_nofile h⟩ else none

/-- The files of the two ends, or none for -1. -/
def pipealloc : Option (State × Option (FileIndex × FileIndex)) :=
  match s.filealloc with
  | none => some (s, none)
  | some (s, f0) =>
    match s.filealloc with
    | none => (s.fileclose f0).map (·, none)
    | some (s, f1) =>
      match s.kalloc with
      | none => (s.fileclose f0).bind fun s => (s.fileclose f1).map (·, none)
      | some (s, p) =>
        let s := { s with
          pipe := update s.pipe p { s.pipe p with readopen := true, writeopen := true, nwrite := 0, nread := 0 } }
        let s := s.setFile f0 { (s.file f0).setType .FD_PIPE with readable := true, writable := false, pipe := p }
        let s := s.setFile f1 { (s.file f1).setType .FD_PIPE with readable := false, writable := true, pipe := p }
        some (s, some (f0, f1))

/-- `argptr` says whether the argument of the call is in the memory of the process. -/
def sysPipe (argptr : Bool) : Option (State × ℤ) :=
  if argptr = false then some (s, -1)
  else
    s.pipealloc.bind fun x =>
      match x with
      | (s, none) => some (s, -1)
      | (s, some (rf, wf)) =>
        match s.fdalloc rf with
        | none => (s.fileclose rf).bind fun s => (s.fileclose wf).map (·, -1)
        | some (s, fd0) =>
          match s.fdalloc wf with
          | none =>
            let s := s.setFd fd0 none
            (s.fileclose rf).bind fun s => (s.fileclose wf).map (·, -1)
          | some (s, _) => some (s, 0)

def sysDup (fd : Option ℤ) : Option (State × ℤ) :=
  match s.argfd fd with
  | none => some (s, -1)
  | some f =>
    match s.fdalloc f with
    | none => some (s, -1)
    | some (s, fd) => (s.filedup f).map (·, fd.val)

end State

/-- `create`: the inode, which is locked, or none. -/
def create (L : Layout) (cwd : Inode.Slot) (s : Inode.State) (path : List UInt8) (type : FileType)
    (major minor : ℤ) : Option (Inode.State × Option Inode.Slot) :=
  (s.nameiparent L cwd path).bind fun x =>
    match x with
    | (s, none) => some (s, none)
    | (s, some (dp, name)) =>
      (s.ilock dp).bind fun s =>
        (s.dirlookup L dp name).bind fun x =>
          match x with
          | (s, some (ip, _)) =>
            (s.iput dp).bind fun s =>
              (s.ilock ip).bind fun s =>
                if type = .file ∧ (s.entry ip).din.type = .file then some (s, some ip)
                else (s.iput ip).map (·, none)
          | (s, none) =>
            (s.ialloc L type).bind fun (s, ip) =>
              (s.ilock ip).bind fun s =>
                let s := (s.setDin ip { (s.entry ip).din with major, minor, nlink := 1 }).iupdate ip
                (if type = .dir then
                  let s := (s.setDin dp { (s.entry dp).din with nlink := (s.entry dp).din.nlink + 1 }).iupdate dp
                  (s.dirlink L ip [46] (s.entry ip).inum).bind fun (s, r) =>
                    if r < 0 then none
                    else
                      (s.dirlink L ip [46, 46] (s.entry dp).inum).bind fun (s, r) =>
                        if r < 0 then none else some s
                else some s).bind fun s =>
                  (s.dirlink L dp name (s.entry ip).inum).bind fun (s, r) =>
                    if r < 0 then none else (s.iput dp).map (·, some ip)

/-- The inode that `sys_open` opens, which is locked, or none. -/
def openInode (L : Layout) (cwd : Inode.Slot) (s : Inode.State) (path : List UInt8) (omode : ℕ) :
    Option (Inode.State × Option Inode.Slot) :=
  if omode &&& O_CREATE ≠ 0 then create L cwd s path .file 0 0
  else
    (s.namei L cwd path).bind fun x =>
      match x with
      | (s, none) => some (s, none)
      | (s, some ip) =>
        (s.ilock ip).bind fun s =>
          if (s.entry ip).din.type = .dir ∧ omode ≠ O_RDONLY then (s.iput ip).map (·, none)
          else some (s, some ip)

namespace State

/-- `sys_open`, for a path and the bits of a mode that have been copied from the user. -/
def sysOpen (s : State) (L : Layout) (cwd : Inode.Slot) (args : Option (List UInt8 × ℕ)) : Option (State × ℤ) :=
  match args with
  | none => some (s, -1)
  | some (path, omode) =>
    (openInode L cwd s.inode path omode).bind fun x =>
      match x with
      | (inode, none) => some ({ s with inode }, -1)
      | (inode, some ip) =>
        let s := { s with inode }
        match s.filealloc with
        | none => (s.inode.iput ip).map fun inode => ({ s with inode }, -1)
        | some (s, f) =>
          match s.fdalloc f with
          | none => (s.fileclose f).bind fun s => (s.inode.iput ip).map fun inode => ({ s with inode }, -1)
          | some (s, fd) =>
            let file := { (s.file f).setType .FD_INODE with
              ip := ip, off := 0
              readable := omode &&& O_WRONLY = 0
              writable := omode &&& O_WRONLY ≠ 0 ∨ omode &&& O_RDWR ≠ 0 }
            some (s.setFile f file, fd.val)

/-- The system calls, with the arguments that were fetched. -/
inductive Call
  | sysPipe (argptr : Bool)
  | sysDup (fd : Option ℤ)
  | sysOpen (args : Option (List UInt8 × ℕ))

def call (s : State) (L : Layout) (cwd : Inode.Slot) : Call → Option (State × ℤ)
  | .sysPipe argptr => s.sysPipe argptr
  | .sysDup fd => s.sysDup fd
  | .sysOpen args => s.sysOpen L cwd args

end State

open Function (update update_eq_self update_idem update_of_ne update_self)
open Inode (Layout Holds)

/-- What a failing call leaves: the descriptors, the counters and the open files, the counters of the
inode cache, the free pages, and the pipes of all other pages. -/
structure Unchanged (s s' : State) : Prop where
  ofile : s'.ofile = s.ofile
  ref : ∀ f, (s'.file f).ref = (s.file f).ref
  opened : ∀ f, (s.file f).ref ≠ 0 → s'.file f = s.file f
  inode : ∀ e, (s'.inode.entry e).ref = (s.inode.entry e).ref
  free : s'.free = s.free
  pipe : ∀ p, p ∉ s.free → s'.pipe p = s.pipe p

section

variable {s₀ s s' : State} {f : FileIndex} {fs : List FileIndex} {fd : Fd} {x : OpenFile}

theorem OpenFile.setType_ref {kind : FileKind} : (x.setType kind).ref = x.ref := by
  rw [OpenFile.setType]
  split <;> rfl

theorem OpenFile.setType_type {kind : FileKind} (href : x.ref = 1) : (x.setType kind).type = kind := by
  rw [OpenFile.setType, dif_neg (by omega)]

@[simp] theorem State.setFile_self : (s.setFile f x).file f = x := update_self ..

theorem State.setFile_of_ne {g : FileIndex} (hg : g ≠ f) : (s.setFile f x).file g = s.file g :=
  update_of_ne hg _ _

theorem State.filealloc_eq (h : s.filealloc = some (s', f)) :
    (s.file f).ref = 0 ∧ s' = s.setFile f { s.file f with ref := 1, idle := nofun } := by
  rw [State.filealloc] at h
  obtain ⟨f', hfind, heq⟩ := Option.map_eq_some_iff.mp h
  cases heq
  exact ⟨by simpa using List.find?_some hfind, rfl⟩

theorem State.fdalloc_eq (h : s.fdalloc f = some (s', fd)) : s.ofile fd = none ∧ s' = s.setFd fd (some f) := by
  rw [State.fdalloc] at h
  obtain ⟨fd', hfind, heq⟩ := Option.map_eq_some_iff.mp h
  cases heq
  exact ⟨by simpa using List.find?_some hfind, rfl⟩

theorem State.kalloc_eq {p : ℕ} (h : s.kalloc = some (s', p)) :
    ∃ free, s.free = p :: free ∧ s' = { s with free } := by
  rw [State.kalloc] at h
  split at h
  · cases h
  · next p' free hfree =>
    cases h
    exact ⟨free, hfree, rfl⟩

theorem State.setFd_setFd (h : s.ofile fd = none) : ((s.setFd fd (some f)).setFd fd none).ofile = s.ofile := by
  rw [State.setFd, State.setFd]
  dsimp only
  rw [update_idem, ← h, update_eq_self]

/-- The file table after the last `fileclose` of a file. -/
def State.closed (s : State) (f : FileIndex) : State :=
  s.setFile f { s.file f with ref := 0, type := .FD_NONE, idle := fun _ => rfl }

theorem State.fileclose_of_none (href : (s.file f).ref = 1) (htype : (s.file f).type = .FD_NONE) :
    s.fileclose f = some (s.closed f) := by
  rw [State.fileclose, if_neg (by omega), dif_neg (by omega)]
  dsimp only
  rw [htype]
  rfl

theorem State.fileclose_of_pipe (href : (s.file f).ref = 1) (htype : (s.file f).type = .FD_PIPE) :
    s.fileclose f = some ((s.closed f).pipeclose (s.file f).pipe (s.file f).writable) := by
  rw [State.fileclose, if_neg (by omega), dif_neg (by omega)]
  dsimp only
  rw [htype]
  rfl

/-- The file table during a call that has allocated the files `fs`. -/
structure During (s₀ s : State) (fs : List FileIndex) : Prop where
  own : ∀ f ∈ fs, (s₀.file f).ref = 0 ∧ (s.file f).ref = 1
  ref : ∀ f, f ∉ fs → (s.file f).ref = (s₀.file f).ref
  opened : ∀ f, f ∉ fs → (s₀.file f).ref ≠ 0 → s.file f = s₀.file f

namespace During

theorem refl (s : State) : During s s [] := ⟨nofun, fun _ _ => rfl, fun _ _ _ => rfl⟩

theorem congr (h : During s₀ s fs) (hfile : s'.file = s.file) : During s₀ s' fs := by
  refine ⟨?_, ?_, ?_⟩ <;> rw [hfile]
  · exact h.own
  · exact h.ref
  · exact h.opened

theorem perm {fs' : List FileIndex} (h : During s₀ s fs) (hperm : fs.Perm fs') : During s₀ s fs' :=
  ⟨fun f hf => h.own f (hperm.mem_iff.mpr hf), fun f hf => h.ref f (hf ∘ hperm.mem_iff.mp),
    fun f hf => h.opened f (hf ∘ hperm.mem_iff.mp)⟩

theorem filealloc (h : During s₀ s fs) (halloc : s.filealloc = some (s', f)) :
    During s₀ s' (f :: fs) ∧ f ∉ fs ∧ (s'.file f).type = .FD_NONE := by
  obtain ⟨hfree, rfl⟩ := State.filealloc_eq halloc
  have hnew : f ∉ fs := by
    intro hmem
    have := (h.own f hmem).2
    omega
  have hfree₀ : (s₀.file f).ref = 0 := (h.ref f hnew).symm.trans hfree
  have hout : ∀ {g}, g ∉ f :: fs → g ≠ f ∧ g ∉ fs := fun hg => not_or.mp fun h => hg (List.mem_cons.mpr h)
  refine ⟨⟨fun g hg => ?_, fun g hg => ?_, fun g hg => ?_⟩, hnew, ?_⟩
  · rcases List.mem_cons.mp hg with rfl | hg
    · exact ⟨hfree₀, by rw [State.setFile_self]⟩
    · have hne : g ≠ f := fun heq => hnew (heq ▸ hg)
      rw [State.setFile_of_ne hne]
      exact h.own g hg
  · rw [State.setFile_of_ne (hout hg).1]
    exact h.ref g (hout hg).2
  · rw [State.setFile_of_ne (hout hg).1]
    exact h.opened g (hout hg).2
  · rw [State.setFile_self]
    exact (s.file f).idle hfree

theorem setFile (h : During s₀ s fs) (hf : f ∈ fs) (hx : x.ref = (s.file f).ref) : During s₀ (s.setFile f x) fs := by
  have hother : ∀ g, g ∉ fs → (s.setFile f x).file g = s.file g := by
    intro g hg
    have hne : g ≠ f := fun heq => hg (heq ▸ hf)
    exact State.setFile_of_ne hne
  refine ⟨fun g hg => ?_, fun g hg => ?_, fun g hg => ?_⟩
  · by_cases hgf : g = f
    · rw [hgf, State.setFile_self, hx]
      exact h.own f hf
    · rw [State.setFile_of_ne hgf]
      exact h.own g hg
  · rw [hother g hg]
    exact h.ref g hg
  · rw [hother g hg]
    exact h.opened g hg

theorem closed (h : During s₀ s (f :: fs)) (hnew : f ∉ fs) : During s₀ (s.closed f) fs := by
  have hfree := (h.own f List.mem_cons_self).1
  have hself : (s.closed f).file f = { s.file f with ref := 0, type := .FD_NONE, idle := fun _ => rfl } :=
    State.setFile_self
  have hother : ∀ g, g ≠ f → (s.closed f).file g = s.file g := fun g hg => State.setFile_of_ne hg
  have hout : ∀ {g}, g ≠ f → g ∉ fs → g ∉ f :: fs := fun hg hg' hmem => (List.mem_cons.mp hmem).elim hg hg'
  refine ⟨fun g hg => ?_, fun g hg => ?_, fun g hg => ?_⟩
  · have hne : g ≠ f := fun heq => hnew (heq ▸ hg)
    rw [hother g hne]
    exact h.own g (List.mem_cons_of_mem f hg)
  · by_cases hgf : g = f
    · rw [hgf, hself, hfree]
    · rw [hother g hgf]
      exact h.ref g (hout hgf hg)
  · by_cases hgf : g = f
    · rw [hgf]
      exact fun hne => absurd hfree hne
    · rw [hother g hgf]
      exact h.opened g (hout hgf hg)

theorem unchanged (h : During s₀ s []) (hofile : s.ofile = s₀.ofile)
    (hinode : ∀ e, (s.inode.entry e).ref = (s₀.inode.entry e).ref) (hfree : s.free = s₀.free)
    (hpipe : ∀ p, p ∉ s₀.free → s.pipe p = s₀.pipe p) : Unchanged s₀ s :=
  ⟨hofile, fun f => h.ref f List.not_mem_nil, fun f => h.opened f List.not_mem_nil, hinode, hfree, hpipe⟩

end During

end

section

variable {s s' : State} {r : ℤ}

theorem pipealloc_cases {ends : Option (FileIndex × FileIndex)}
    (h : s.pipealloc = some (s', ends)) : s'.ofile = s.ofile ∧ s'.inode = s.inode ∧
      ((ends = none ∧ During s s' [] ∧ s'.free = s.free ∧ s'.pipe = s.pipe) ∨
        ∃ f0 f1 p, ends = some (f0, f1) ∧ During s s' [f0, f1] ∧ f0 ≠ f1 ∧ s.free = p :: s'.free ∧
          (∀ q, q ≠ p → s'.pipe q = s.pipe q) ∧ (s'.pipe p).readopen = true ∧ (s'.pipe p).writeopen = true ∧
          ((s'.file f0).type = .FD_PIPE ∧ (s'.file f0).pipe = p ∧ (s'.file f0).writable = false) ∧
          ((s'.file f1).type = .FD_PIPE ∧ (s'.file f1).pipe = p ∧ (s'.file f1).writable = true)) := by
  rw [State.pipealloc] at h
  have h₀ := During.refl s
  split at h
  · cases h
    exact ⟨rfl, rfl, .inl ⟨rfl, h₀, rfl, rfl⟩⟩
  next s₁ f0 halloc₀ =>
  obtain ⟨h₁, -, htype₀⟩ := h₀.filealloc halloc₀
  obtain ⟨-, rfl⟩ := State.filealloc_eq halloc₀
  split at h
  · -- Only the first file was allocated.
    obtain ⟨s₂, hclose, heq⟩ := Option.map_eq_some_iff.mp h
    rw [State.fileclose_of_none (h₁.own f0 List.mem_cons_self).2 htype₀] at hclose
    cases hclose
    cases heq
    exact ⟨rfl, rfl, .inl ⟨rfl, h₁.closed List.not_mem_nil, rfl, rfl⟩⟩
  next s₂ f1 halloc₁ =>
  obtain ⟨h₂, hnew, htype₁⟩ := h₁.filealloc halloc₁
  obtain ⟨-, rfl⟩ := State.filealloc_eq halloc₁
  have hne : f0 ≠ f1 := fun heq => hnew (List.mem_singleton.mpr heq.symm)
  have hown := h₂.perm (.swap f0 f1 [])
  have hfirst : f0 ∉ [f1] := fun hmem => hne (List.mem_singleton.mp hmem)
  split at h
  · -- There is no page.
    obtain ⟨s₃, hclose₀, h⟩ := Option.bind_eq_some_iff.mp h
    obtain ⟨s₄, hclose₁, heq⟩ := Option.map_eq_some_iff.mp h
    rw [State.fileclose_of_none (hown.own f0 List.mem_cons_self).2] at hclose₀
    swap
    · rw [State.setFile_of_ne hne]
      exact htype₀
    cases hclose₀
    have h₃ := hown.closed hfirst
    rw [State.fileclose_of_none (h₃.own f1 List.mem_cons_self).2] at hclose₁
    · cases hclose₁
      cases heq
      exact ⟨rfl, rfl, .inl ⟨rfl, h₃.closed List.not_mem_nil, rfl, rfl⟩⟩
    · rw [State.closed, State.setFile_of_ne hne.symm]
      exact htype₁
  · next s₃ p hpage =>
    obtain ⟨free, hfree, rfl⟩ := State.kalloc_eq hpage
    cases h
    refine ⟨rfl, rfl, .inr ⟨f0, f1, p, rfl, ?_, hne, hfree, fun q hq => ?_, ?_, ?_, ?_, ?_⟩⟩
    · exact During.setFile (During.setFile (hown.congr rfl) List.mem_cons_self OpenFile.setType_ref) (by simp)
        OpenFile.setType_ref
    · exact update_of_ne hq _ _
    · simp only [State.setFile, update_self]
    · simp only [State.setFile, update_self]
    · rw [State.setFile_of_ne hne, State.setFile_self]
      exact ⟨OpenFile.setType_type (hown.own f0 List.mem_cons_self).2, rfl, rfl⟩
    · rw [State.setFile_self, State.setFile_of_ne hne.symm]
      exact ⟨OpenFile.setType_type (hown.own f1 (by simp)).2, rfl, rfl⟩

theorem State.pipeclose_first {p : ℕ} (hopen : (s.pipe p).writeopen = true) :
    s.pipeclose p false = { s with pipe := update s.pipe p { s.pipe p with readopen := false } } := by
  refine if_neg fun hboth => ?_
  have hclosed : (s.pipe p).writeopen = false := hboth.2
  rw [hopen] at hclosed
  cases hclosed

theorem State.pipeclose_last {p : ℕ} (hclosed : (s.pipe p).readopen = false) :
    s.pipeclose p true =
      { s with pipe := update s.pipe p { s.pipe p with writeopen := false } : State }.kfree p :=
  if_pos ⟨hclosed, rfl⟩

theorem close_ends {s₀ : State} {f0 f1 : FileIndex} {p : ℕ} (h : During s₀ s [f0, f1]) (hne : f0 ≠ f1)
    (hopen : (s.pipe p).writeopen = true)
    (hf0 : (s.file f0).type = .FD_PIPE ∧ (s.file f0).pipe = p ∧ (s.file f0).writable = false)
    (hf1 : (s.file f1).type = .FD_PIPE ∧ (s.file f1).pipe = p ∧ (s.file f1).writable = true)
    (hclose : ((s.fileclose f0).bind fun s => (s.fileclose f1).map (·, (-1 : ℤ))) = some (s', r)) :
    During s₀ s' [] ∧ s'.ofile = s.ofile ∧ s'.inode = s.inode ∧ s'.free = p :: s.free ∧
      ∀ q, q ≠ p → s'.pipe q = s.pipe q := by
  obtain ⟨s₁, hclose₀, hclose⟩ := Option.bind_eq_some_iff.mp hclose
  obtain ⟨s₂, hclose₁, heq⟩ := Option.map_eq_some_iff.mp hclose
  cases heq
  have hfirst : f0 ∉ [f1] := fun hmem => hne (List.mem_singleton.mp hmem)
  have hpipe₀ : (s.closed f0).pipe = s.pipe := rfl
  rw [State.fileclose_of_pipe (h.own f0 List.mem_cons_self).2 hf0.1, hf0.2.1, hf0.2.2,
    State.pipeclose_first (s := s.closed f0) hopen, hpipe₀] at hclose₀
  obtain rfl := Option.some.inj hclose₀
  have h₁ : During s₀ { s.closed f0 with pipe := update s.pipe p { s.pipe p with readopen := false } } [f1] :=
    (h.closed hfirst).congr rfl
  have hsame : (s.closed f0).file f1 = s.file f1 := State.setFile_of_ne hne.symm
  rw [State.fileclose_of_pipe (h₁.own f1 List.mem_cons_self).2 (hsame ▸ hf1.1)] at hclose₁
  dsimp only at hclose₁
  rw [hsame, hf1.2.1, hf1.2.2, State.pipeclose_last] at hclose₁
  · obtain rfl := Option.some.inj hclose₁
    refine ⟨(h₁.closed List.not_mem_nil).congr rfl, rfl, rfl, rfl, fun q hq => ?_⟩
    simp only [State.kfree, State.closed, State.setFile, update_of_ne hq]
  · simp only [State.closed, State.setFile, update_self]

theorem sysPipe_fails {argptr : Bool} (h : s.sysPipe argptr = some (s', -1)) : Unchanged s s' := by
  rw [State.sysPipe] at h
  split at h
  · cases h
    exact (During.refl s).unchanged rfl (fun _ => rfl) rfl fun _ _ => rfl
  obtain ⟨⟨s₁, ends⟩, halloc, h⟩ := Option.bind_eq_some_iff.mp h
  obtain ⟨hofile, hinode, hcases⟩ := pipealloc_cases halloc
  rcases hcases with ⟨rfl, h₁, hfree, hpipe⟩ | ⟨f0, f1, p, rfl, h₁, hne, hfree, hpipe, -, hopen, hf0, hf1⟩
  · cases h
    exact h₁.unchanged hofile (fun _ => by rw [hinode]) hfree fun _ _ => by rw [hpipe]
  -- Both ends are closed again, with the descriptors as they were.
  have hback : ∀ {s₂ : State}, s₂.file = s₁.file → s₂.pipe = s₁.pipe → s₂.free = s₁.free → s₂.inode = s₁.inode →
      s₂.ofile = s₁.ofile → ((s₂.fileclose f0).bind fun s => (s.fileclose f1).map (·, (-1 : ℤ))) = some (s', -1) →
      Unchanged s s' := by
    intro s₂ hfile₂ hpipe₂ hfree₂ hinode₂ hofile₂ hclose
    obtain ⟨h₃, hofile₃, hinode₃, hfree₃, hpipe₃⟩ := close_ends (h₁.congr hfile₂) hne (by rwa [hpipe₂])
      (by rwa [hfile₂]) (by rwa [hfile₂]) hclose
    refine h₃.unchanged ?_ (fun e => ?_) ?_ fun q hq => ?_
    · rw [hofile₃, hofile₂, hofile]
    · rw [hinode₃, hinode₂, hinode]
    · rw [hfree₃, hfree₂, hfree]
    · have hqp : q ≠ p := by
        rintro rfl
        rw [hfree] at hq
        exact hq List.mem_cons_self
      rw [hpipe₃ q hqp, hpipe₂, hpipe q hqp]
  dsimp only at h
  split at h
  · exact hback rfl rfl rfl rfl rfl h
  next s₂ fd0 hfd₀ =>
  obtain ⟨hnone, rfl⟩ := State.fdalloc_eq hfd₀
  split at h
  · refine hback ?_ ?_ ?_ ?_ (State.setFd_setFd hnone) h <;> rfl
  · next s₃ fd1 hfd₁ =>
    cases h

end

section

variable {s s' : State} {r : ℤ} {L : Layout} {cwd : Inode.Slot}

theorem sysDup_fails {fd : Option ℤ} (h : s.sysDup fd = some (s', -1)) : Unchanged s s' := by
  have hsame : Unchanged s s := (During.refl s).unchanged rfl (fun _ => rfl) rfl fun _ _ => rfl
  rw [State.sysDup] at h
  split at h
  · cases h
    exact hsame
  split at h
  · cases h
    exact hsame
  · obtain ⟨s₂, -, heq⟩ := Option.map_eq_some_iff.mp h
    have hfd := (Prod.mk.inj heq).2
    omega

theorem create_holds {s s' : Inode.State} {path : List UInt8} {type : Inode.FileType} {major minor : ℤ}
    {found : Option Inode.Slot} (h : create L cwd s path type major minor = some (s', found)) :
    Holds s s' found.toList := by
  rw [create, Inode.State.nameiparent] at h
  obtain ⟨⟨s₁, parent⟩, hnamex, h⟩ := Option.bind_eq_some_iff.mp h
  have h₁ := Holds.refl.namex hnamex
  cases parent with
  | none =>
    cases h
    exact h₁
  | some y =>
    obtain ⟨dp, name⟩ := y
    obtain ⟨s₂, hlock, h⟩ := Option.bind_eq_some_iff.mp h
    obtain ⟨⟨s₃, entry⟩, hlook, h⟩ := Option.bind_eq_some_iff.mp h
    have h₃ := (h₁.same (Inode.State.sameRefs_ilock hlock)).dirlookup hlook
    cases entry with
    | some z =>
      -- The name exists; only a file may be opened.
      obtain ⟨ip, off⟩ := z
      obtain ⟨s₄, hput, h⟩ := Option.bind_eq_some_iff.mp h
      obtain ⟨s₅, hlock', h⟩ := Option.bind_eq_some_iff.mp h
      have h₅ := ((h₃.perm (.swap dp ip [])).iput hput).same (Inode.State.sameRefs_ilock hlock')
      split at h
      · cases h
        exact h₅
      · obtain ⟨s₆, hput', heq⟩ := Option.map_eq_some_iff.mp h
        cases heq
        exact h₅.iput hput'
    | none =>
      obtain ⟨⟨s₄, ip⟩, halloc, h⟩ := Option.bind_eq_some_iff.mp h
      obtain ⟨s₅, hlock', h⟩ := Option.bind_eq_some_iff.mp h
      have h₅ := (h₃.ialloc halloc).same (Inode.State.sameRefs_ilock hlock')
      obtain ⟨s₆, hdots, h⟩ := Option.bind_eq_some_iff.mp h
      have h₆ : Holds s s₆ [ip, dp] := by
        split at hdots
        · obtain ⟨⟨s₇, r₇⟩, hdot, hdots⟩ := Option.bind_eq_some_iff.mp hdots
          dsimp only at hdots
          split at hdots
          · cases hdots
          obtain ⟨⟨s₈, r₈⟩, hdotdot, hdots⟩ := Option.bind_eq_some_iff.mp hdots
          dsimp only at hdots
          split at hdots
          · cases hdots
          cases hdots
          refine Holds.dirlink (Holds.dirlink ?_ hdot) hdotdot
          exact (h₅.same (Inode.sameRefs_setDin _)).same (Inode.sameRefs_setDin _)
        · cases hdots
          exact h₅.same (Inode.sameRefs_setDin _)
      obtain ⟨⟨s₇, r₇⟩, hlink, h⟩ := Option.bind_eq_some_iff.mp h
      dsimp only at h
      split at h
      · cases h
      obtain ⟨s₈, hput, heq⟩ := Option.map_eq_some_iff.mp h
      cases heq
      exact ((h₆.dirlink hlink).perm (.swap dp ip [])).iput hput

theorem openInode_holds {s s' : Inode.State} {path : List UInt8} {omode : ℕ} {found : Option Inode.Slot}
    (h : openInode L cwd s path omode = some (s', found)) : Holds s s' found.toList := by
  rw [openInode] at h
  split at h
  · exact create_holds h
  rw [Inode.State.namei] at h
  obtain ⟨⟨s₁, found₁⟩, hnamei, h⟩ := Option.bind_eq_some_iff.mp h
  obtain ⟨⟨s₂, found₂⟩, hnamex, heq⟩ := Option.map_eq_some_iff.mp hnamei
  cases heq
  have h₁ := Holds.refl.namex hnamex
  rw [List.append_nil] at h₁
  dsimp only at h₁ h
  cases hfound : found₂.map Prod.fst with
  | none =>
    rw [hfound] at h h₁
    cases h
    exact h₁
  | some ip =>
    rw [hfound] at h h₁
    obtain ⟨s₃, hlock, h⟩ := Option.bind_eq_some_iff.mp h
    have h₃ := h₁.same (Inode.State.sameRefs_ilock hlock)
    split at h
    · obtain ⟨s₄, hput, heq⟩ := Option.map_eq_some_iff.mp h
      cases heq
      exact h₃.iput hput
    · cases h
      exact h₃

theorem sysOpen_fails {args : Option (List UInt8 × ℕ)} (h : s.sysOpen L cwd args = some (s', -1)) :
    Unchanged s s' := by
  have h₀ := During.refl s
  cases args with
  | none =>
    cases h
    exact h₀.unchanged rfl (fun _ => rfl) rfl fun _ _ => rfl
  | some args =>
    obtain ⟨path, omode⟩ := args
    rw [State.sysOpen] at h
    obtain ⟨⟨inode, found⟩, hinode, h⟩ := Option.bind_eq_some_iff.mp h
    have hholds := openInode_holds hinode
    have h₁ : ∀ inode, During s { s with inode } [] := fun _ => h₀.congr rfl
    cases found with
    | none =>
      cases h
      exact (h₁ inode).unchanged rfl hholds rfl fun _ _ => rfl
    | some ip =>
      dsimp only at h
      split at h
      · obtain ⟨inode', hput, heq⟩ := Option.map_eq_some_iff.mp h
        cases heq
        exact (h₁ inode').unchanged rfl (hholds.iput hput) rfl fun _ _ => rfl
      next s₂ f halloc =>
      obtain ⟨h₂, hnew, htype⟩ := (h₁ inode).filealloc halloc
      obtain ⟨-, rfl⟩ := State.filealloc_eq halloc
      split at h
      · -- The file is closed before it was opened.
        rw [State.fileclose_of_none (h₂.own f List.mem_cons_self).2 htype, Option.bind_some] at h
        obtain ⟨inode', hput, heq⟩ := Option.map_eq_some_iff.mp h
        have hdone := h₂.closed hnew
        obtain rfl := (Prod.mk.inj heq).1
        refine During.unchanged (hdone.congr rfl) rfl (hholds.iput hput) rfl fun _ _ => rfl
      · have hfd := (Prod.mk.inj (Option.some.inj h)).2
        omega

/-- **A call that fails leaves nothing behind.** -/
theorem failed_call_unchanged {c : State.Call} (h : s.call L cwd c = some (s', -1)) : Unchanged s s' := by
  cases c with
  | sysPipe argptr => exact sysPipe_fails h
  | sysDup fd => exact sysDup_fails h
  | sysOpen args => exact sysOpen_fails h

theorem neZero_nfile : NeZero NFILE := ⟨by decide⟩

/-- All descriptors are in use, and there is one free page. -/
def fullTable : State :=
  haveI := neZero_nfile
  { ofile _ := some 0
    file f := if f = 0 then ⟨.FD_INODE, 16, true, true, 0, 0, 0, nofun⟩
      else ⟨.FD_NONE, 0, false, false, 0, 0, 0, fun _ => rfl⟩
    free := [5]
    pipe _ := State.junk
    inode := ⟨fun _ => false, fun _ => ⟨.free, 0, 0, 0, 0, fun _ => 0⟩, fun _ _ => 0,
      fun _ => ⟨0, 0, false, ⟨.free, 0, 0, 0, 0, fun _ => 0⟩⟩⟩ }

/-- `pipe` has allocated two files and a page when it finds no descriptor. -/
theorem failed_call_unchanged_pipe : ∃ s', fullTable.call ⟨1000, 59, 200, 200, by omega, by omega, le_rfl⟩ 0
    (.sysPipe true) = some (s', -1) ∧ Unchanged fullTable s' := by
  obtain ⟨s', h⟩ : ∃ s', fullTable.call ⟨1000, 59, 200, 200, by omega, by omega, le_rfl⟩ 0 (.sysPipe true) =
    some (s', -1) := ⟨_, rfl⟩
  exact ⟨s', h, failed_call_unchanged h⟩

end

end KThreads.Objects
