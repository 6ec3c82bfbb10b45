import KThreads.Halts
import KThreads.Files.Table
import KThreads.Group.Refinement

/-!
# Open files

Every reference that a counter of the file table counts is an entry of a
descriptor table or is held by a system call in progress. Two calls have an entry
in their table without a reference for a moment: `exit` clears an entry after it has
closed it, and `dup` fills one in before it counts it. The descriptors of a slot are emptied by `exit` only, and a thread that `clone` publishes as a zombie
never gets there: its descriptors are left to the next user of the slot.
-/

namespace KThreads

open Function (update update_apply update_eq_self update_eq_self_iff update_idem update_self)
open Files (Act Table Move Step Inv)

/-- What a thread at a point of the kernel is doing with open files. -/
def Pc.act : Pc → Act Slot Fd File
  | .fork (.init np) | .fork (.copy np) | .fork (.parent np) | .clone (.init np)
  | .clone (.pgdir np) | .clone (.parent np) | .clone (.setParent np _) =>
      .build np none Kernel.allFds
  | .fork (.files np fds) | .clone (.files np fds) => .build np none fds
  | .fork (.file np fd f fds) | .clone (.file np fd f fds) => .build np (some (fd, f)) fds
  | .fork (.cwd np) | .fork (.idup np _) | .fork (.publish np) | .clone (.publish np) =>
      .build np none []
  | .exit (.close fds) => .exit none fds
  | .exit (.clear fd fds) => .exit (some fd) fds
  | .exit .count | .exit .iput | .exit .zombie => .exit none []
  | .file (.dupped f fd) => .dup fd f
  | .file (.openFd f) | .file (.pipeWrite f) => .hold [f]
  | .file (.pipeFds rf wf) => .hold [rf, wf]
  | .file (.closing fs _) => .hold fs
  | _ => .hold []

namespace Kernel

/-- The open files of a kernel state. -/
def files (k : Kernel) : Table Slot Fd File where
  ofile s := (k.proc s).ofile
  ref := k.ref
  phase s := (k.proc s).state.phase
  act t := (k.pc t).act

/-- The descriptor machine follows a step of the kernel, if need be with a move
that has the property `M`. -/
def FilesFollow (k : Kernel) (M : Move Slot → Prop) (k' : Kernel) : Prop :=
  Transition.Follows Step M k.files k'.files

variable {k k' : Kernel} {t L s : Slot} {e : Env} {M : Move Slot → Prop}

section

variable {c : Pc} {f : Proc → Proc}

@[simp] theorem files_goto :
    (k.goto t c).files = { k.files with act := update k.files.act t c.act } := by
  ext <;> simp only [files, goto, update_apply]
  split <;> rfl

theorem files_goto_same (h : c.act = k.files.act t) : (k.goto t c).files = k.files := by
  rw [files_goto, h, update_eq_self]

theorem files_ret {r : ℤ} (h : k.files.act t = .hold []) : (k.ret t r).files = k.files :=
  files_goto_same h.symm

theorem files_goto_of {k₁ : Kernel} (hk : k₁.files = k.files) (h : c.act = k.files.act t) :
    (k₁.goto t c).files = k.files :=
  (files_goto_same (by rw [hk]; exact h)).trans hk

theorem files_modify_state (h : (f (k.proc s)).ofile = (k.proc s).ofile) :
    (k.modify s f).files =
      { k.files with phase := update k.files.phase s (f (k.proc s)).state.phase } := by
  ext u <;> simp only [files, modify, update_apply] <;> grind

theorem files_modify_same (h : (f (k.proc s)).ofile = (k.proc s).ofile)
    (hstate : (f (k.proc s)).state.phase = (k.proc s).state.phase) :
    (k.modify s f).files = k.files := by
  rw [files_modify_state h, hstate]
  exact congrArg (fun p => { k.files with phase := p }) (update_eq_self s k.files.phase)

theorem files_wakeup1 {ch : Chan} : (k.wakeup1 ch).files = k.files := by
  ext u <;> simp only [files, wakeup1]
  · split <;> rfl
  · split
    · next hu => simp [hu.1, ProcState.phase]
    · rfl

theorem files_sleep {ch : Chan} (ht : k.files.phase t = .live) : (k.sleep t ch).files = k.files :=
  files_modify_same rfl ht.symm

theorem files_setDir {d : Pgdir} : (k.setDir t d).files = k.files := by
  unfold setDir
  split <;> rfl

theorem files_setFile {fd : Fd} {v : Option File} :
    (k.setFile s fd v).files = { k.files with ofile := k.files.set s fd v } := by
  refine Table.ext (funext fun u => ?_) rfl (funext fun u => ?_) rfl
  · by_cases hu : u = s
    · subst hu
      simp [files, setFile, modify, Table.set]
    · simp [files, setFile, modify, Table.set, hu]
  · by_cases hu : u = s
    · subst hu
      simp [files, setFile, modify]
    · simp [files, setFile, modify, hu]

theorem files_of_proc {p : Slot → Proc} (hofile : ∀ s, (p s).ofile = (k.proc s).ofile)
    (hphase : ∀ s, (p s).state.phase = (k.proc s).state.phase) :
    { k with proc := p }.files = k.files := by
  ext <;> simp [files, hofile, hphase]

end

theorem filealloc_spec {f : File} (h : k.filealloc = some (f, k')) :
    k.ref f = 0 ∧ k' = { k with ref := update k.ref f 1 } := by
  unfold filealloc at h
  obtain ⟨g, hg, heq⟩ := Option.map_eq_some_iff.mp h
  cases heq
  exact ⟨by simpa using (Fin.find?_eq_some_iff.mp hg).1, rfl⟩

theorem fdalloc_spec {fd : Fd} (h : k.fdalloc t = some fd) : (k.proc t).ofile fd = none := by
  unfold fdalloc at h
  simpa using (Fin.find?_eq_some_iff.mp h).1

theorem argfd_spec {n : ℤ} {fd : Fd} {f : File} (h : k.argfd t n = some (fd, f)) :
    (k.proc t).ofile fd = some f := by
  unfold argfd at h
  split at h
  · obtain ⟨g, hg, heq⟩ := Option.map_eq_some_iff.mp h
    cases heq
    exact hg
  · cases h

theorem nextFile_none {fds : List Fd} (h : k.nextFile t fds = none) :
    ∀ d ∈ fds, (k.proc t).ofile d = none := by
  induction fds with
  | nil => simp
  | cons fd fds ih =>
    rw [nextFile] at h
    split at h
    · next hfd => exact List.forall_mem_cons.mpr ⟨hfd, ih h⟩
    · cases h

theorem nextFile_some {fds rest : List Fd} {fd : Fd} {f : File}
    (h : k.nextFile t fds = some (fd, f, rest)) :
    (k.proc t).ofile fd = some f ∧
      ∃ pre, fds = pre ++ fd :: rest ∧ ∀ d ∈ pre, (k.proc t).ofile d = none := by
  induction fds with
  | nil => cases h
  | cons d fds ih =>
    rw [nextFile] at h
    split at h
    · next hd =>
      obtain ⟨hf, pre, rfl, hpre⟩ := ih h
      exact ⟨hf, d :: pre, rfl, List.forall_mem_cons.mpr ⟨hd, hpre⟩⟩
    · next hd =>
      cases h
      exact ⟨hd, [], rfl, by simp⟩

theorem mem_allFds (d : Fd) : d ∈ allFds := List.mem_finRange d

theorem nodup_allFds : allFds.Nodup := List.nodup_finRange NOFILE

section

variable (hinv : Inv k.files) (ht : (k.proc t).state = .running)
  (hM : ∀ m, (∀ u np, m ≠ .stillborn u np) → M m)

include ht in
theorem files_phase_of_running : k.files.phase t = .live := by simp [files, ht, ProcState.phase]

include ht hM in
theorem allocproc_files {next : Slot → Pc} (hact : k.files.act t = .hold [])
    (hnext : ∀ np, (next np).act = .build np none allFds) :
    FilesFollow k M (k.allocproc t next) := by
  unfold allocproc
  split
  · exact .stay (files_goto_same hact.symm)
  · next np hnp =>
    split
    · exact .stay rfl
    · have hunused : k.files.phase np = .unused := by
        have hstate := (Fin.find?_eq_some_iff.mp hnp).1
        simp_all [files, ProcState.phase]
      refine .move (.alloc (files_phase_of_running ht) hact hunused mem_allFds nodup_allFds)
        (hM _ (by simp)) ?_
      rw [files_goto, files_modify_state rfl, hnext]
      rfl

include hM in
theorem allocKstack_files {next : Pc} {np : Slot} {fields : Proc → Proc}
    (hact : k.files.act t = .build np none allFds) (hnext : next.act = .build np none allFds)
    (hfields : ∀ q : Proc, (fields q).ofile = q.ofile ∧ (fields q).state = q.state) :
    FilesFollow k M (k.allocKstack t np e fields next) := by
  unfold allocKstack
  split
  · refine .move (.release hact mem_allFds) (hM _ nofun) ?_
    rw [ret, files_goto, files_modify_state rfl]
    rfl
  · refine .stay (files_goto_of ?_ (hnext.trans hact.symm))
    exact files_modify_same (hfields _).1 (congrArg _ (hfields _).2)

include hM in
theorem dupFiles_files {np : Slot} {fds : List Fd} {store : Fd → File → List Fd → Pc} {done : Pc}
    (hact : k.files.act t = .build np none fds)
    (hstore : ∀ fd f fds, (store fd f fds).act = .build np (some (fd, f)) fds)
    (hdone : done.act = .build np none []) :
    FilesFollow k M (k.dupFiles t fds store done) := by
  unfold dupFiles
  split
  · next hnone =>
    rw [← List.append_nil fds] at hact
    refine .move (.skip hact (nextFile_none hnone)) (hM _ nofun) ?_
    rw [files_goto, hdone]
  · next fd f rest hsome =>
    obtain ⟨hf, pre, rfl, hpre⟩ := nextFile_some hsome
    unfold filedup
    split
    · exact .stay rfl
    · refine .move (.copy hact hpre hf) (hM _ nofun) ?_
      rw [files_goto, hstore]
      rfl

include hM in
theorem setFile_files {np : Slot} {fd : Fd} {f : File} {fds : List Fd} {c : Pc}
    (hact : k.files.act t = .build np (some (fd, f)) fds) (hc : c.act = .build np none fds) :
    FilesFollow k M ((k.setFile np fd (some f)).goto t c) := by
  refine .move (.store hact) (hM _ nofun) ?_
  rw [files_goto, files_setFile, hc]

include hinv ht hM in
theorem forkStep_files {c : ForkPc} (hpc : k.pc t = .fork c) :
    FilesFollow k M (k.forkStep t L e c) := by
  have hact : k.files.act t = (Pc.fork c).act := by simp only [files, hpc]
  cases c with
  | alloc => exact allocproc_files ht hM hact fun _ => rfl
  | init np => exact allocKstack_files hM hact rfl fun _ => ⟨rfl, rfl⟩
  | copy np =>
    simp only [forkStep]
    split
    · exact .stay rfl
    · refine .move (.release hact mem_allFds) (hM _ (by simp)) ?_
      rw [ret, files_goto, files_modify_state rfl]
      rfl
    · exact .stay (files_goto_of (files_modify_same rfl rfl) hact.symm)
  | parent np => exact .stay (files_goto_of (files_modify_same rfl rfl) hact.symm)
  | files np fds => exact dupFiles_files hM hact (fun _ _ _ => rfl) rfl
  | file np fd f fds => exact setFile_files hM hact rfl
  | cwd np => exact .stay (files_goto_same hact.symm)
  | idup np cwd => exact .stay (files_goto_of (files_modify_same rfl rfl) hact.symm)
  | publish np =>
    have hnp : k.files.act np = .hold [] :=
      hinv.act_live np (by simp [hinv.build_embryo t np none [] hact])
    refine .move (.publish hact) (hM _ (by simp)) ?_
    simp only [forkStep]
    rw [ret, files_goto, files_goto_same (by rw [files_modify_state rfl]; exact hnp.symm),
      files_modify_state rfl]
    rfl

include hinv ht hM in
theorem cloneStep_files {c : ClonePc} (hpc : k.pc t = .clone c)
    (hstill : ∀ np, c = .publish np → (k.proc t).killed = true → M (.stillborn t np)) :
    FilesFollow k M (k.cloneStep t L e c) := by
  have hact : k.files.act t = (Pc.clone c).act := by simp only [files, hpc]
  cases c with
  | check stack =>
    simp only [cloneStep]
    split <;> exact .stay (files_goto_same hact.symm)
  | alloc => exact allocproc_files ht hM hact fun _ => rfl
  | init np => exact allocKstack_files hM hact rfl fun _ => ⟨rfl, rfl⟩
  | pgdir np | parent np | setParent np p =>
    exact .stay (files_goto_of (files_modify_same rfl rfl) hact.symm)
  | files np fds => exact dupFiles_files hM hact (fun _ _ _ => rfl) rfl
  | file np fd f fds => exact setFile_files hM hact rfl
  | publish np =>
    have hnp : k.files.act np = .hold [] :=
      hinv.act_live np (by simp [hinv.build_embryo t np none [] hact])
    simp only [cloneStep]
    split
    · next hkilled =>
      refine .move (.stillborn hact) (hstill np rfl hkilled) ?_
      rw [ret, files_goto, files_modify_state rfl]
      rfl
    · refine .move (.publish hact) (hM _ (by simp)) ?_
      rw [ret, files_goto, files_goto_same, files_modify_same rfl rfl, files_modify_state rfl]
      · rfl
      · rw [files_modify_same rfl rfl, files_modify_state rfl]
        exact hnp.symm

theorem files_reparent : (k.reparent t).files = k.files := by
  have hproc := files_of_proc (k := k) (p := fun p =>
    if (k.proc p).parent = some t then { k.proc p with parent := some k.initproc } else k.proc p)
    (fun s => by split <;> rfl) (fun s => by split <;> rfl)
  unfold reparent
  split
  · exact files_wakeup1.trans hproc
  · exact hproc

include ht hM in
theorem enterExit_files (hact : k.files.act t = .hold []) :
    FilesFollow k M (k.enterExit t) := by
  unfold enterExit
  split
  · exact .stay rfl
  · exact .move (.exitEnter (files_phase_of_running ht) hact mem_allFds) (hM _ nofun) files_goto

include hM in
theorem exitStep_files {c : ExitPc} (hpc : k.pc t = .exit c) :
    FilesFollow k M (k.exitStep t L c) := by
  have hact : k.files.act t = (Pc.exit c).act := by simp only [files, hpc]
  cases c with
  | close fds =>
    simp only [exitStep]
    split
    · next hnone =>
      have hrest : k.files.act t = .exit none (fds ++ []) := by rw [List.append_nil, hact, Pc.act]
      exact .move (.exitSkip hrest (nextFile_none hnone)) (hM _ (by simp)) files_goto
    · next fd f rest hsome =>
      obtain ⟨hf, pre, rfl, hpre⟩ := nextFile_some hsome
      unfold fileclose
      split
      · exact .stay rfl
      · exact .move (.exitClose hact hpre hf) (hM _ (by simp)) files_goto
  | clear fd fds =>
    refine .move (.exitClear hact) (hM _ (by simp)) ?_
    rw [exitStep, files_goto, files_setFile]
    rfl
  | count => exact .stay (files_goto_same (by split <;> exact hact.symm))
  | iput => exact .stay (files_goto_of (files_modify_same rfl rfl) hact.symm)
  | zombie =>
    refine .move (.exit hact) (hM _ (by simp)) ?_
    simp only [exitStep]
    rw [files_goto, files_modify_state rfl, files_reparent, files_modify_same rfl rfl,
      files_wakeup1, files_wakeup1]
    rfl

include ht hM in
theorem waitStep_files (hact : k.files.act t = .hold []) :
    FilesFollow k M (k.waitStep t L) := by
  unfold waitStep
  split
  · exact .stay (files_goto_same hact.symm)
  · split
    · exact .stay (files_sleep (files_phase_of_running ht))
    · next p _ =>
      unfold reapGroup
      split
      · next hz =>
        refine .move (.reap (S := fun s => (k.proc s).tgid = (k.proc p).tgid) fun s hs => ?_)
          (hM _ nofun) ?_
        · simp [files, hz s hs, ProcState.phase]
        · refine (files_ret (by exact hact)).trans ?_
          ext <;> simp only [files] <;> grind [reaped]
      · exact .stay rfl

include ht hM in
theorem joinLoop_files {pid : ℤ} {p : Slot} (hact : k.files.act t = .hold []) :
    FilesFollow k M (k.joinLoop t L pid p) := by
  unfold joinLoop
  split
  · split
    · exact .stay (files_goto_same hact.symm)
    · exact .stay (files_goto_of (files_sleep (files_phase_of_running ht)) hact.symm)
  · next hz =>
    split
    · refine .move (.reap (S := fun s => s = p) fun s hs => ?_) (hM _ nofun) ?_
      · subst hs
        simp only [files, not_not.mp hz, ProcState.phase]
      · refine (files_ret (by exact hact)).trans ?_
        ext <;> simp only [files, reapSlot, modify, update_apply] <;> grind [reaped]
    · exact .stay (files_goto_same hact.symm)

include ht hM in
theorem joinStep_files {pid : ℤ} (hact : k.files.act t = .hold []) :
    FilesFollow k M (k.joinStep t L e pid) := by
  unfold joinStep
  split
  · split
    · exact joinLoop_files ht hM hact
    · exact .stay (files_goto_same hact.symm)
  · split
    · exact .stay (files_goto_same hact.symm)
    · exact .stay rfl

include ht in
theorem files_execStep {c : ExecPc} (hact : k.files.act t = .hold []) :
    (k.execStep t L e c).files = k.files := by
  cases c with
  | mark =>
    simp only [execStep, execMark]
    split
    · exact files_goto_same hact.symm
    · refine files_goto_of (files_of_proc (fun s => ?_) fun s => ?_) hact.symm
      · split <;> rfl
      · split
        · exact phase_marked
        · rfl
  | wait =>
    simp only [execStep]
    split
    · exact files_sleep (files_phase_of_running ht)
    · exact files_goto_same hact.symm
  | swap | take | setCount | setLost =>
    exact files_goto_of (files_modify_same rfl rfl) hact.symm
  | load =>
    simp only [execStep]
    split
    · exact files_goto_same hact.symm
    · split
      · rfl
      · exact files_goto_same hact.symm
      · exact files_goto_same hact.symm
  | commit image sz => exact files_goto_of (files_modify_same rfl rfl) hact.symm

theorem files_growprocStep {n : ℤ} {addr : ℕ} (hact : k.files.act t = .hold []) :
    (k.growprocStep t L e n addr).files = k.files := by
  have hsz : ∀ {k₁ : Kernel} {r : ℤ} {sz : ℕ}, k₁.files = k.files →
      ((k₁.modify L fun q => { q with sz := sz }).ret t r).files = k.files :=
    fun h => files_goto_of ((files_modify_same rfl rfl).trans h) hact.symm
  simp only [growprocStep]
  split
  · split
    · rfl
    · split
      · exact files_goto_of files_setDir hact.symm
      · exact hsz files_setDir
  · split
    · split
      · exact files_goto_of files_setDir hact.symm
      · exact hsz files_setDir
    · exact hsz rfl

theorem files_modify_marked {p : Slot} : (k.modify p marked).files = k.files :=
  files_modify_same rfl phase_marked

theorem files_killStep {pid : ℤ} (hact : k.files.act t = .hold []) :
    (k.killStep t pid).files = k.files := by
  unfold killStep
  split
  · exact files_goto_same hact.symm
  · exact files_goto_of files_modify_marked hact.symm

include ht in
theorem files_parkStep {c : Chan} (hact : k.files.act t = .hold []) :
    (k.parkStep t c).files = k.files := by
  unfold parkStep
  split
  · exact files_goto_of (files_modify_same rfl rfl) hact.symm
  · exact files_goto_of
      ((files_modify_same rfl rfl).trans (files_sleep (files_phase_of_running ht))) hact.symm

theorem files_unparkStep {pid : ℤ} {c : Chan} (hact : k.files.act t = .hold []) :
    (k.unparkStep t e pid c).files = k.files := by
  unfold unparkStep
  split
  · split
    · next hs =>
      exact files_goto_of (files_modify_same rfl (by simp [hs.1, ProcState.phase])) hact.symm
    · exact files_goto_of (files_modify_same rfl rfl) hact.symm
  · split
    · exact files_goto_same hact.symm
    · rfl

include ht hM in
theorem filealloc_files {f : File} {fs : List File} {c : Pc} (hact : k.files.act t = .hold fs)
    (hc : c.act = .hold (fs ++ [f])) (h : k.filealloc = some (f, k')) :
    FilesFollow k M (k'.goto t c) := by
  obtain ⟨hf, rfl⟩ := filealloc_spec h
  refine .move (.take (files_phase_of_running ht) hact hf) (hM _ nofun) ?_
  rw [files_goto, hc]
  rfl

include hM in
theorem pipeFds_files {rf wf : File} (hact : k.files.act t = .hold [rf, wf]) :
    FilesFollow k M (k.pipeFds t rf wf) := by
  unfold pipeFds
  split
  · exact .stay (files_goto_same hact.symm)
  · next fd0 h0 =>
    have hfd0 := fdalloc_spec h0
    split
    · -- the first descriptor is cleared again
      refine .stay (files_goto_of ?_ hact.symm)
      rw [files_setFile, files_setFile]
      refine Table.ext ?_ rfl rfl rfl
      simp only [Table.set, update_idem, update_self]
      rw [update_eq_self_iff, update_eq_self_iff]
      exact hfd0.symm
    · next fd1 h1 =>
      have hfd1 := fdalloc_spec h1
      simp only [setFile, modify, update_self, update_apply] at hfd1
      have hne : fd1 ≠ fd0 := fun h => by simp [h] at hfd1
      rw [if_neg hne] at hfd1
      refine .move (.installTwo hact hfd0 hfd1 hne.symm) (hM _ (by simp)) ?_
      rw [ret, files_goto, files_setFile, files_setFile]
      simp only [Table.set, update_idem, update_self]
      rfl

include ht hM in
theorem fileStep_files {c : FilePc} (hpc : k.pc t = .file c) :
    FilesFollow k M (k.fileStep t e c) := by
  have hact : k.files.act t = (Pc.file c).act := by simp only [files, hpc]
  cases c with
  | «open» =>
    simp only [fileStep]
    split
    · split
      · exact .stay (files_goto_same hact.symm)
      · next h => exact filealloc_files ht hM hact rfl h
    · exact .stay (files_goto_same hact.symm)
  | openFd f =>
    simp only [fileStep]
    split
    · exact .stay (files_goto_same hact.symm)
    · next fd hfd =>
      refine .move (.install hact (fdalloc_spec hfd)) (hM _ (by simp)) ?_
      rw [ret, files_goto, files_setFile]
      rfl
  | dup fd =>
    simp only [fileStep]
    split
    · next hc hd =>
      refine .move (.dupEnter (files_phase_of_running ht) hact (argfd_spec hc) (fdalloc_spec hd))
        (hM _ (by simp)) ?_
      rw [files_goto, files_setFile]
      rfl
    · exact .stay (files_goto_same hact.symm)
  | dupped f fd =>
    simp only [fileStep, filedup]
    split
    · exact .stay rfl
    · exact .move (.dup hact) (hM _ (by simp)) files_goto
  | close fd =>
    simp only [fileStep]
    split
    · exact .stay (files_goto_same hact.symm)
    · next hd =>
      refine .move (.drop (files_phase_of_running ht) hact (argfd_spec hd)) (hM _ (by simp)) ?_
      rw [files_goto, files_setFile]
      rfl
  | closing fs r =>
    cases fs with
    | nil => exact .stay (files_goto_same hact.symm)
    | cons f fs =>
      simp only [fileStep, closeFiles, fileclose]
      split
      · exact .stay rfl
      · exact .move (.close hact) (hM _ (by simp)) files_goto
  | pipe =>
    simp only [fileStep]
    split
    · exact .stay (files_goto_same hact.symm)
    · next h => exact filealloc_files ht hM hact rfl h
  | pipeWrite rf =>
    simp only [fileStep]
    split
    · exact .stay (files_goto_same hact.symm)
    · next h => exact filealloc_files ht hM hact rfl h
  | pipeFds rf wf =>
    simp only [fileStep]
    split
    · exact .stay (files_goto_same hact.symm)
    · exact pipeFds_files hM hact

include hinv ht hM in
theorem callStep_files (h : k.callStep t L e (k.pc t) = some k')
    (hstill : ∀ np, k.pc t = .clone (.publish np) → (k.proc t).killed = true →
      M (.stillborn t np)) : FilesFollow k M k' := by
  have hold {p : Pc} (hpc : k.pc t = p) (hp : p.act = .hold []) : k.files.act t = .hold [] := by
    simp only [files, hpc, hp]
  cases hpc : k.pc t with
  | dead | user => simp [callStep, hpc] at h
  | fork c =>
    simp only [hpc, callStep, Option.some.injEq] at h
    subst h
    exact forkStep_files hinv ht hM hpc
  | clone c =>
    simp only [hpc, callStep, Option.some.injEq] at h
    subst h
    exact cloneStep_files hinv ht hM hpc fun np hc => hstill np (hc ▸ hpc)
  | exit c =>
    simp only [hpc, callStep, Option.some.injEq] at h
    subst h
    exact exitStep_files hM hpc
  | file c =>
    simp only [hpc, callStep, Option.some.injEq] at h
    subst h
    exact fileStep_files ht hM hpc
  | ret r | trap =>
    simp only [hpc, callStep, Option.some.injEq] at h
    split at h <;> subst h
    · exact enterExit_files ht hM (hold hpc rfl)
    · exact .stay (files_goto_same (hold hpc rfl).symm)
  | wait =>
    cases hpc ▸ h
    exact waitStep_files ht hM (hold hpc rfl)
  | join pid =>
    cases hpc ▸ h
    exact joinStep_files ht hM (hold hpc rfl)
  | joinWait pid p =>
    cases hpc ▸ h
    exact joinLoop_files ht hM (hold hpc rfl)
  | exec c =>
    cases hpc ▸ h
    exact .stay (files_execStep ht (hold hpc rfl))
  | kill pid =>
    cases hpc ▸ h
    exact .stay (files_killStep (hold hpc rfl))
  | park c =>
    cases hpc ▸ h
    exact .stay (files_parkStep ht (hold hpc rfl))
  | unpark pid c =>
    cases hpc ▸ h
    exact .stay (files_unparkStep (hold hpc rfl))
  | growproc n addr =>
    cases hpc ▸ h
    exact .stay (files_growprocStep (hold hpc rfl))
  | parked | sbrk n =>
    cases hpc ▸ h
    exact .stay (files_goto_same (hold hpc rfl).symm)

include ht hM in
theorem enter_files {c : Call} (hact : k.files.act t = .hold []) :
    FilesFollow k M (k.enter t c) := by
  cases c with
  | exit => exact enterExit_files ht hM hact
  | _ => exact .stay (files_goto_same hact.symm)

end

/-- The only moves that depend on more than the descriptor tables: a slot is
published as a zombie by the `clone` of a killed thread. -/
def MayBear (k : Kernel) (l : Label) (m : Move Slot) : Prop :=
  ∀ u np, m = .stillborn u np →
    ∃ e, l = .step u e ∧ k.pc u = .clone (.publish np) ∧ (k.proc u).killed = true

theorem next_files {l : Label} (hinv : Inv k.files) (h : k.next l = some k') :
    FilesFollow k (k.MayBear l) k' := by
  have hM : ∀ m, (∀ u np, m ≠ .stillborn u np) → k.MayBear l m := fun m hm u np heq =>
    absurd heq (hm u np)
  cases l with
  | schedule t | yield t =>
    obtain ⟨⟨_, hs⟩, ⟨⟩⟩ := Option.ite_none_right_eq_some.mp h
    exact .stay (files_modify_same rfl (by simp [hs, ProcState.phase]))
  | syscall t c =>
    obtain ⟨⟨_, hs, hpc⟩, heq⟩ := Option.ite_none_right_eq_some.mp h
    have hact : k.files.act t = .hold [] := by simp only [files, hpc, Pc.act]
    cases heq
    split
    · exact enterExit_files hs hM hact
    · exact enter_files hs hM hact
  | interrupt t =>
    obtain ⟨⟨_, hs, hpc, _⟩, ⟨⟩⟩ := Option.ite_none_right_eq_some.mp h
    have hact : k.files.act t = .hold [] := by simp only [files, hpc, Pc.act]
    exact enterExit_files hs hM hact
  | fault t =>
    obtain ⟨⟨_, hs, hpc⟩, ⟨⟩⟩ := Option.ite_none_right_eq_some.mp h
    have hact : k.files.act t = .hold [] := by simp only [files, hpc, Pc.act]
    exact .stay (files_goto_of (files_modify_same rfl rfl) hact.symm)
  | step t e =>
    obtain ⟨⟨_, hs⟩, hstep⟩ := Option.ite_none_right_eq_some.mp h
    cases hL : (k.proc t).process with
    | none =>
      simp only [hL, Option.some.injEq] at hstep
      exact .stay (hstep ▸ rfl)
    | some L =>
      simp only [hL] at hstep
      refine callStep_files hinv hs hM hstep fun np hpc hkilled u np' heq => ?_
      cases heq
      exact ⟨e, rfl, hpc, hkilled⟩
  | block t a =>
    obtain ⟨⟨_, hs, _⟩, ⟨⟩⟩ := Option.ite_none_right_eq_some.mp h
    exact .stay (files_sleep (files_phase_of_running hs))
  | wakeup a =>
    obtain ⟨_, ⟨⟩⟩ := Option.ite_none_right_eq_some.mp h
    exact .stay files_wakeup1

theorem files_userinit : userinit.files = .initial 0 := by
  ext <;> simp only [files, userinit, Table.initial] <;> grind [initcode, Pc.act, ProcState.phase]

theorem inv_files {ok : Kernel → Label → Prop}
    (hok : ∀ k t e np, ok k (.step t e) → k.pc t = .clone (.publish np) →
      (k.proc t).killed = true → ∀ d, (k.proc t).ofile d = none)
    (h : ReachableBy ok k) : Inv k.files := by
  suffices hreach : Transition.Reach (Files.machine 0) Files.StillbornEmpty k.files from
    .of_reach hreach
  refine h.simulate (fun k h0 => h0 ▸ files_userinit) fun k l k' _ hr hl hstep => ?_
  rcases next_files (Inv.of_reach hr) hstep with heq | ⟨m, hm, hst⟩
  · exact .stay heq
  · refine .move hst ?_ rfl
    intro u np heq d
    obtain ⟨e, rfl, hpc, hkilled⟩ := hm u np heq
    exact hok k u e np hl hpc hkilled d

end Kernel

variable {k : Kernel}

namespace Kernel

/-- The descriptors that refer to a file, without an entry that a thread has closed in
`exit` and not yet cleared, or filled in in `dup` and not yet counted. -/
def descriptors (k : Kernel) (f : File) : Finset (Slot × Fd) :=
  Finset.univ.filter fun x =>
    (k.proc x.1).ofile x.2 = some f ∧ (k.pc x.1).act.window ≠ some x.2

/-- The references to a file that system calls in progress hold. -/
def refsInProgress (k : Kernel) (f : File) : ℕ := ∑ t, (k.pc t).act.held.count f

end Kernel

/-- A thread that has been killed inside `clone` has no open files when it
publishes the new thread. -/
abbrev killedCloneEmpty : Kernel → Label → Prop := onStep fun k t =>
  ∀ np, k.pc t = .clone (.publish np) → (k.proc t).killed = true →
    ∀ fd, (k.proc t).ofile fd = none

/-- **Reference counts.** In a run in which no thread with open files is killed
inside `clone`, the reference count of every file is the number of descriptors
that refer to it and of the references held by calls in progress, the unused
slots have no open files, and a slot that `fork` or `clone` is about to publish
has exactly the open files of its creator. -/
theorem ref_counts_descriptors (h : ReachableBy killedCloneEmpty k) :
    (∀ f, k.ref f = (k.descriptors f).card + k.refsInProgress f) ∧
      (∀ s, (k.proc s).state = .unused → ∀ fd, (k.proc s).ofile fd = none) ∧
      ∀ t np, k.pc t = .fork (.publish np) ∨ k.pc t = .clone (.publish np) →
        (k.proc np).ofile = (k.proc t).ofile := by
  have hinv := Kernel.inv_files (fun k t e np hok => hok np) h
  refine ⟨fun f => ?_, fun s hs => ?_, fun t np hpc => ?_⟩
  · have hentries : (k.descriptors f).card = RefCount.entries k.files.counted f := by
      rw [RefCount.entries_eq_card, Kernel.descriptors]
      refine congrArg Finset.card (Finset.filter_congr fun x _ => ?_)
      simp only [Files.Table.counted, Kernel.files]
      by_cases hw : (k.pc x.1).act.window = some x.2 <;> simp [hw]
    rw [hentries]
    exact hinv.balanced f
  · exact hinv.clear s (.inl (by simp [Kernel.files, hs, ProcState.phase]))
  · have hact : k.files.act t = .build np none [] := by
      rcases hpc with hpc | hpc <;> simp only [Kernel.files, hpc, Pc.act]
    funext fd
    simpa [Kernel.files] using hinv.build_copy t np none [] hact fd

/-- A process opens a file and forks: the file is referred to twice. -/
theorem ref_counts_after_fork :
    ∃ k, runScriptBy killedCloneEmpty (.schedule 0 :: calls 0 .open 3 ++ calls 0 .fork 11) =
        some k ∧
      k.ref 0 = 2 ∧ (k.descriptors 0).card + k.refsInProgress 0 = 2 := by
  obtain ⟨k, hk, hr, href⟩ := exists_of_runScriptBy killedCloneEmpty
    (.schedule 0 :: calls 0 .open 3 ++ calls 0 .fork 11) (fun k => k.ref 0 = 2) (by decide +kernel)
  exact ⟨k, hk, href, ((ref_counts_descriptors hr).1 0).symm.trans href⟩

/-- A process with an open file is killed inside `clone`. When its group has been
reaped the slot of the new thread is unused and still refers to the file, and
the next process that gets the slot starts with a file that its creator does not
have. -/
theorem descriptors_outlive_killed_clone :
    (∃ k, Reachable k ∧ (k.proc 2).state = .unused ∧ (k.proc 2).ofile 0 = some 0) ∧
      ∃ k, Reachable k ∧ k.pc 0 = .fork (.publish 2) ∧ (k.proc 2).ofile 0 = some 0 ∧
        (k.proc 0).ofile 0 = none := by
  have hscript := exists_of_runScript (.schedule 0 :: calls 0 .fork 9 ++ .schedule 1 ::
    calls 1 .open 3 ++ calls 1 (.clone 4096) 9 ++ calls 0 (.kill 2) 2 ++ steps 1 8 ++
    calls 0 .wait 2)
    (fun k => (k.proc 2).state = .unused ∧ (k.proc 2).ofile 0 = some 0) (by decide +kernel)
  have hagain := exists_of_runScript (.schedule 0 :: calls 0 .fork 9 ++ .schedule 1 ::
    calls 1 .open 3 ++ calls 1 (.clone 4096) 9 ++ calls 0 (.kill 2) 2 ++ steps 1 8 ++
    calls 0 .wait 2 ++ calls 0 .fork 9 ++ calls 0 .fork 7)
    (fun k => k.pc 0 = .fork (.publish 2) ∧ (k.proc 2).ofile 0 = some 0 ∧
      (k.proc 0).ofile 0 = none) (by decide +kernel)
  obtain ⟨k, -, hr, hk⟩ := hscript
  obtain ⟨k', -, hr', hk'⟩ := hagain
  exact ⟨⟨k, hr, hk⟩, k', hr', hk'⟩

namespace Kernel

theorem halted_of_ref {f : File} {next : Kernel → Kernel} (hf : 0 < k.ref f)
    (hnext : ∀ r, (next { k with ref := r }).halted = none) :
    (k.filedup f next).halted = none ∧ (k.fileclose f next).halted = none := by
  rw [filedup, fileclose, if_neg (by omega), if_neg (by omega)]
  exact ⟨hnext _, hnext _⟩

/-- **File counts.** When no thread with open files is killed inside `clone`, neither `filedup` nor
`fileclose` panics. -/
theorem file_counts_suffice (k : RunState killedCloneEmpty) :
    k.1.halted ≠ some (.panic .filedup) ∧ k.1.halted ≠ some (.panic .fileclose) := by
  suffices hall : ∀ x, k.1.halted = some x → x ≠ .panic .filedup ∧ x ≠ .panic .fileclose from
    ⟨fun hx => (hall _ hx).1 rfl, fun hx => (hall _ hx).2 rfl⟩
  obtain ⟨k', h⟩ := k
  intro x hx
  cases h with
  | init h0 =>
    subst h0
    cases hx
  | @step k _ l hr hl hnext =>
    have hinv := inv_files (fun k t e np hok => hok np) hr
    obtain ⟨hk, rfl | rfl | ⟨t, L, e, rfl, -, -, hstep, hmay⟩⟩ := next_halted hnext hx
    · simp
    · simp
    generalize hpc : k.pc t = c at hstep hmay
    -- only at these points a count is tested
    cases hmay with
    | forkFiles | cloneFiles | exitClose =>
      cases hstep
      simp only [forkStep, cloneStep, exitStep, dupFiles] at hx
      split at hx
      · simp [hk] at hx
      · next hf =>
        have hcounted := Files.Inv.counted_of_window (a := k.files) (s := t)
          (by simp [files, hpc, Pc.act, Files.Act.window])
        have hpos := hinv.balanced.pos_of_entry ((hcounted _).trans (nextFile_some hf).1)
        simp [halted_of_ref hpos, hk] at hx
    | @dupped f fd =>
      cases hstep
      obtain ⟨-, c, hne, hf⟩ := hinv.dup_open t fd f (by simp [files, hpc, Pc.act])
      have hcounted : k.files.counted t c = some f := by
        rw [Files.Table.counted, if_neg, hf]
        simpa [files, hpc, Pc.act, Files.Act.window] using hne.symm
      simp [fileStep, halted_of_ref (hinv.balanced.pos_of_entry hcounted), hk] at hx
    | @closing fs r =>
      cases hstep
      cases fs with
      | nil => simp [fileStep, closeFiles, hk] at hx
      | cons f fs =>
        have hf : f ∈ k.files.held t := by simp [Files.Table.held, files, hpc, Pc.act, Files.Act.held]
        simp [fileStep, closeFiles, halted_of_ref (hinv.balanced.pos_of_held hf), hk] at hx
    | _ => simp

end Kernel

end KThreads
