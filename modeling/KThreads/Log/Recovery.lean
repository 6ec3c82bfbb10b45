import KThreads.Log.Calls
import KThreads.Lib.Count

/-!
# What the disk amounts to

Between `begin_op` and `end_op` the blocks of an operation are changed in the cache and
entered in the log. The last operation commits: the thread that calls `commit` is alone
in the log, and at each of its points a rule of the redo log says what is on the disk.
`recover_from_log` takes the same steps as the second half of `commit`.
-/

namespace KThreads.Log

open Function (update update_of_ne update_self)
open RedoLog (Layout)

variable {τ : Type*}

namespace Pc

/-- A thread is in `commit` or behind it. -/
def busy : Pc → Bool
  | .user | .op | .logWrite _ _ => false
  | _ => true

/-- A thread is between `begin_op` and `end_op`. -/
def inOp : Pc → Bool
  | .op | .logWrite _ _ => true
  | _ => false

end Pc

/-- The contents of the blocks behind the groups that have been committed. -/
def State.committed (disk : ℕ → Data) (s : State τ) : ℕ → Data :=
  applyWrites disk s.groups.flatten

/-- What a thread that commits knows. -/
def Pc.Facts (sb : Super) (H : ℕ → Data) (s : State τ) : Pc → Prop
  | .user | .op | .logWrite _ _ => True
  | .commit => sb.layout.Gathered s.store s.lh s.pending H 0
  | .writeLog tail => sb.layout.Gathered s.store s.lh s.pending H tail
  | .writeHead => ∃ tail, s.lh.length ≤ tail ∧ sb.layout.Gathered s.store s.lh s.pending H tail
  | .install tail => sb.layout.Installing s.store s.lh H tail ∧ s.pending = []
  | .clearHead => sb.layout.Stale s.store H ∧ s.lh = [] ∧ s.pending = []
  | .finish => sb.layout.Gathered s.store s.lh s.pending H 0 ∧ s.lh = []

/-- What the machine knows while it recovers. -/
def Boot.Facts (sb : Super) (H : ℕ → Data) (s : State τ) : Boot → Prop
  | .readHead =>
      sb.layout.Sound s.store H ∧ s.store.mem = s.store.disk ∧ s.lh = [] ∧ s.pending = []
  | .install tail => sb.layout.Installing s.store s.lh H tail ∧ s.pending = []
  | .clearHead => sb.layout.Stale s.store H ∧ s.lh = [] ∧ s.pending = []
  | .up => s.committing = false → sb.layout.Gathered s.store s.lh s.pending H 0

/-- The blocks of a list are among those that the last group writes. -/
def Names (groups : List (List (ℕ × Data))) (l : List ℕ) : Prop :=
  ∀ b ∈ l, ∃ d, (b, d) ∈ groups.getLastD []

theorem names_of_eq_nil {groups : List (List (ℕ × Data))} {l : List ℕ} (h : l = []) :
    Names groups l := by
  rintro b hb
  simp [h] at hb

/-- What holds of the log, on a disk that had the contents `disk`. -/
structure Inv [Fintype τ] (sb : Super) (disk : ℕ → Data) (s : State τ) : Prop where
  boot : s.boot.Facts sb (s.committed disk) s
  busy : ∀ t, (s.pc t).Facts sb (s.committed disk) s
  down : s.boot ≠ .up → s.committing = false ∧ ∀ t, s.pc t = .user
  /-- A thread that commits is alone in the log. -/
  lone : ∀ t, (s.pc t).busy = true → s.committing = true ∧ ∀ u, u ≠ t → s.pc u = .user
  committing : s.committing = true → ∃ t, (s.pc t).busy = true
  outstanding : s.outstanding = (Finset.univ.filter fun t => (s.pc t).inOp = true).card
  home : ∀ t b d, s.pc t = .logWrite b d → sb.IsHome b
  /-- The header on the disk is that of the last group. -/
  header : Names s.groups (sb.layout.headed s.store.disk)

/-- The section of `log_write` finds room for a block, as its test has done. -/
def hasRoom (sb : Super) (s : State τ) : Label τ → Prop
  | .append t =>
      match s.pc t with
      | .logWrite b _ => b ∈ s.lh ∨ s.lh.length < LOGSIZE ∧ s.lh.length < sb.size - 1
      | _ => True
  | _ => True

instance (sb : Super) (s : State τ) (l : Label τ) : Decidable (hasRoom sb s l) := by
  unfold hasRoom
  split
  · split <;> infer_instance
  · infer_instance

section

variable [Fintype τ] {sb : Super} {disk H : ℕ → Data} {s s' : State τ} {t : τ}

theorem Inv.sound_fits (h : Inv sb disk s) :
    sb.layout.Sound s.store (s.committed disk) ∧ sb.layout.Fits s.lh := by
  have hboot := h.boot
  cases hb : s.boot with
  | readHead =>
    rw [hb] at hboot
    exact ⟨hboot.1, hboot.2.2.1 ▸ Layout.fits_nil⟩
  | install tail =>
    rw [hb] at hboot
    exact ⟨hboot.1.toSound, hboot.1.fits⟩
  | clearHead =>
    rw [hb] at hboot
    exact ⟨hboot.1.toSound, hboot.2.1 ▸ Layout.fits_nil⟩
  | up =>
    rw [hb] at hboot
    cases hc : s.committing with
    | false => exact ⟨(hboot hc).toSound, (hboot hc).fits⟩
    | true =>
      obtain ⟨t, ht⟩ := h.committing hc
      have hfacts := h.busy t
      cases hpc : s.pc t with
      | user | op | logWrite b d => simp [hpc, Pc.busy] at ht
      | commit | writeLog tail =>
        rw [hpc] at hfacts
        exact ⟨hfacts.toSound, hfacts.fits⟩
      | writeHead =>
        rw [hpc] at hfacts
        obtain ⟨tail, -, hg⟩ := hfacts
        exact ⟨hg.toSound, hg.fits⟩
      | install tail | finish =>
        rw [hpc] at hfacts
        exact ⟨hfacts.1.toSound, hfacts.1.fits⟩
      | clearHead =>
        rw [hpc] at hfacts
        exact ⟨hfacts.1.toSound, hfacts.2.1 ▸ Layout.fits_nil⟩

theorem Inv.crash (h : Inv sb disk s) : Inv sb disk s.crash where
  boot := ⟨h.sound_fits.1.crash, rfl, rfl, rfl⟩
  busy _ := trivial
  down _ := ⟨rfl, fun _ => rfl⟩
  lone _ ht := by cases ht
  committing hc := by cases hc
  outstanding := by simp [State.crash, Pc.inOp]
  home _ _ _ hpc := by cases hpc
  header := h.header

theorem Inv.panic (h : Inv sb disk s) (p : Panic) : Inv sb disk (s.panic p) :=
  ⟨h.boot, h.busy, h.down, h.lone, h.committing, h.outstanding, h.home, h.header⟩

omit [Fintype τ] in
theorem Pc.facts_of_not_busy {c : Pc} (h : c.busy = false) : c.Facts sb H s := by
  cases c with
  | user | op | logWrite b d => trivial
  | _ => cases h

theorem Inv.of_idle (hup : s.boot = .up) (hc : s.committing = false)
    (hbusy : ∀ t, (s.pc t).busy = false)
    (hgathered : sb.layout.Gathered s.store s.lh s.pending (s.committed disk) 0)
    (hout : s.outstanding = (Finset.univ.filter fun t => (s.pc t).inOp = true).card)
    (hhome : ∀ t b d, s.pc t = .logWrite b d → sb.IsHome b) : Inv sb disk s where
  boot := by
    rw [hup]
    exact fun _ => hgathered
  busy t := Pc.facts_of_not_busy (hbusy t)
  down hne := absurd hup hne
  lone t ht := by simp [hbusy t] at ht
  committing h := by simp [hc] at h
  outstanding := hout
  home := hhome
  header := names_of_eq_nil hgathered.empty

theorem Inv.of_busy (hup : s.boot = .up) (hc : s.committing = true) (ht : (s.pc t).busy = true)
    (hothers : ∀ u, u ≠ t → s.pc u = .user) (hfacts : (s.pc t).Facts sb (s.committed disk) s)
    (hout : s.outstanding = 0)
    (hheader : Names s.groups (sb.layout.headed s.store.disk)) :
    Inv sb disk s where
  boot := by
    rw [hup]
    intro h
    simp [hc] at h
  busy u := by
    by_cases hu : u = t
    · exact hu ▸ hfacts
    · exact Pc.facts_of_not_busy (by rw [hothers u hu]; rfl)
  down hne := absurd hup hne
  lone u hu := by
    have hut : u = t := by
      by_contra hne
      simp [hothers u hne, Pc.busy] at hu
    exact ⟨hc, hut ▸ hothers⟩
  committing _ := ⟨t, ht⟩
  outstanding := by
    rw [hout, Count.card_filter_none]
    intro u hu
    by_cases hut : u = t
    · subst hut
      cases hpc : s.pc u <;> simp [hpc, Pc.busy, Pc.inOp] at ht hu
    · simp [hothers u hut, Pc.inOp] at hu
  home u b d hpc := by
    by_cases hut : u = t
    · subst hut
      simp [hpc, Pc.busy] at ht
    · simp [hothers u hut] at hpc
  header := hheader

theorem Inv.idle (h : Inv sb disk s) (hup : s.boot = .up) (hc : s.committing = false) :
    (∀ t, (s.pc t).busy = false) ∧
      sb.layout.Gathered s.store s.lh s.pending (s.committed disk) 0 := by
  refine ⟨fun t => ?_, ?_⟩
  · by_contra ht
    have := (h.lone t (by simpa using ht)).1
    simp [hc] at this
  · have hboot := h.boot
    rw [hup] at hboot
    exact hboot hc

theorem Inv.not_committing (h : Inv sb disk s) (ht : (s.pc t).inOp = true) :
    s.committing = false := by
  by_contra hc
  obtain ⟨u, hu⟩ := h.committing (by simpa using hc)
  by_cases htu : t = u
  · subst htu
    cases hpc : s.pc t <;> simp [hpc, Pc.busy, Pc.inOp] at ht hu
  · simp [(h.lone u hu).2 t htu, Pc.inOp] at ht

variable [DecidableEq τ]

theorem Inv.of_op {c : Pc} (h : Inv sb disk s) (hpc : s'.pc = update s.pc t c)
    (hc : c.inOp = true) (hup : s.boot = .up) (hup' : s'.boot = .up)
    (hcommitting : s.committing = false) (hcommitting' : s'.committing = false)
    (hgathered : sb.layout.Gathered s'.store s'.lh s'.pending (s'.committed disk) 0)
    (hout : s'.outstanding = s.outstanding + if (s.pc t).inOp then 0 else 1)
    (hhome : ∀ b d, c = .logWrite b d → sb.IsHome b) : Inv sb disk s' := by
  have ht : s'.pc t = c := by rw [hpc, update_self]
  have hrest : ∀ u, u ≠ t → s'.pc u = s.pc u := fun u hu => by rw [hpc, update_of_ne hu]
  refine .of_idle hup' hcommitting' (fun u => ?_) hgathered ?_ (fun u b d hu => ?_)
  · by_cases hut : u = t
    · rw [hut, ht]
      cases c with
      | op | logWrite b d => rfl
      | _ => cases hc
    · rw [hrest u hut]
      exact (h.idle hup hcommitting).1 u
  · rw [hout, h.outstanding]
    by_cases hin : (s.pc t).inOp = true
    · rw [if_pos hin, Nat.add_zero]
      refine congrArg Finset.card (Finset.filter_congr fun u _ => ?_)
      by_cases hut : u = t
      · rw [hut, ht, hc, hin]
      · rw [hrest u hut]
    · have hin' : (s'.pc t).inOp = true := ht ▸ hc
      rw [if_neg hin]
      refine (Count.card_filter_gain (p := fun u => (s.pc u).inOp = true)
        (q := fun u => (s'.pc u).inOp = true) hin hin' fun u hut => ?_).symm
      rw [hrest u hut]
  · by_cases hut : u = t
    · subst hut
      exact hhome b d (ht.symm.trans hu)
    · exact h.home u b d (hrest u hut ▸ hu)

theorem Inv.beginOp (h : Inv sb disk s) (hnext : s.next sb (.beginOp t) = some s') :
    Inv sb disk s' := by
  obtain ⟨hpc, hruns, hc, -, rfl⟩ := State.of_next_beginOp hnext
  refine h.of_op rfl rfl hruns.1 hruns.1 hc hc (h.idle hruns.1 hc).2 ?_
    (fun b d hb => by cases hb)
  rw [hpc]
  rfl

theorem Inv.logWrite {b : ℕ} {d : Data} (h : Inv sb disk s)
    (hnext : s.next sb (.logWrite t b d) = some s') : Inv sb disk s' := by
  obtain ⟨hpc, hruns, hb, ⟨rfl, -⟩ | ⟨rfl, -⟩ | rfl⟩ := State.of_next_logWrite hnext
  · exact h.panic _
  · exact h.panic _
  · have hc := h.not_committing (t := t) (by rw [hpc]; rfl)
    refine h.of_op rfl rfl hruns.1 hruns.1 hc hc (h.idle hruns.1 hc).2 ?_
      (fun b' d' hb' => ?_)
    · rw [hpc]
      rfl
    · cases hb'
      exact hb

theorem Inv.append (h : Inv sb disk s) (hroom : hasRoom sb s (.append t))
    (hnext : s.next sb (.append t) = some s') : Inv sb disk s' := by
  obtain ⟨b, d, hpc, hruns, rfl⟩ := State.of_next_append hnext
  have hc := h.not_committing (t := t) (by rw [hpc]; rfl)
  rw [State.append]
  split
  · exact h.panic _
  · refine h.of_op rfl rfl hruns.1 hruns.1 hc hc ?_ ?_ (fun b d hb => by cases hb)
    · refine (h.idle hruns.1 hc).2.append (h.home t b d hpc) fun hnew => ?_
      simp only [hasRoom, hpc, hnew, false_or] at hroom
      exact lt_min hroom.1 hroom.2
    · rw [hpc]
      rfl

omit [DecidableEq τ] in
theorem Inv.alone (h : Inv sb disk s) (hup : s.boot = .up) (ht : (s.pc t).inOp = true)
    (hout : s.outstanding - 1 = 0) : ∀ u, u ≠ t → s.pc u = .user := by
  intro u hu
  have hbusy := (h.idle hup (h.not_committing ht)).1 u
  have hcard : (Finset.univ.filter fun t => (s.pc t).inOp = true).card ≤ 1 := by
    rw [← h.outstanding]
    omega
  have hin : (s.pc u).inOp = false := by
    by_contra hin
    exact hu (Finset.card_le_one.mp hcard u (by simpa using hin) t (by simpa using ht))
  cases hpc : s.pc u <;> simp_all [Pc.busy, Pc.inOp]

theorem Inv.endOp (h : Inv sb disk s) (hnext : s.next sb (.endOp t) = some s') :
    Inv sb disk s' := by
  obtain ⟨hpc, hruns, rfl⟩ := State.of_next_endOp hnext
  have hin : (s.pc t).inOp = true := by rw [hpc]; rfl
  have hc := h.not_committing hin
  have hidle := h.idle hruns.1 hc
  rw [State.endOp, if_neg (by simp [hc])]
  split
  · next hlast =>
    refine .of_busy (t := t) hruns.1 rfl ?_ (fun u hu => ?_) ?_ hlast h.header
    · simp [Pc.busy]
    · simpa [hu] using h.alone hruns.1 hin hlast u hu
    · rw [State.goto_pc, update_self]
      exact hidle.2
  · refine .of_idle hruns.1 hc (fun u => ?_) hidle.2 ?_ (fun u b d hu => ?_)
    · by_cases hut : u = t
      · simp [hut, Pc.busy]
      · simpa [hut] using hidle.1 u
    · refine (congrArg (· - 1) h.outstanding).trans (Count.card_filter_loss
        (p := fun u => (s.pc u).inOp = true) (x := t) hin ?_ fun u hut => ?_).symm
      · simp [Pc.inOp]
      · simp [hut]
    · by_cases hut : u = t
      · simp [hut] at hu
      · exact h.home u b d (by simpa [hut] using hu)

omit [DecidableEq τ] in
theorem Inv.no_op_of_busy (h : Inv sb disk s) (ht : (s.pc t).busy = true) :
    ∀ u, (s.pc u).inOp = false := by
  intro u
  by_cases hut : u = t
  · subst hut
    cases hpc : s.pc u <;> simp_all [Pc.busy, Pc.inOp]
  · rw [(h.lone t ht).2 u hut]
    rfl

theorem Inv.of_commit {c : Pc} (h : Inv sb disk s) (hup : s.boot = .up)
    (ht : (s.pc t).busy = true) (hpc : s'.pc = update s.pc t c) (hup' : s'.boot = s.boot)
    (hc : s'.committing = s.committing) (hout : s'.outstanding = s.outstanding)
    (hbusy : c.busy = true) (hfacts : c.Facts sb (s'.committed disk) s')
    (hheader : Names s'.groups (sb.layout.headed s'.store.disk)) :
    Inv sb disk s' := by
  have htc : s'.pc t = c := by rw [hpc, update_self]
  have hnone := h.no_op_of_busy ht
  refine .of_busy (t := t) (hup'.trans hup) (hc.trans (h.lone t ht).1) (htc ▸ hbusy)
    (fun u hu => ?_) (by rw [htc]; exact hfacts) ?_ hheader
  · rw [hpc, update_of_ne hu]
    exact (h.lone t ht).2 u hu
  · rw [hout, h.outstanding]
    exact Count.card_filter_none fun u => by simp [hnone u]

theorem Inv.step (h : Inv sb disk s) (hnext : s.next sb (.step t) = some s') :
    Inv sb disk s' := by
  obtain ⟨⟨hup, -⟩, hstep⟩ := State.of_next_step hnext
  have hfacts := h.busy t
  cases hpc : s.pc t with
  | user | op | logWrite b d =>
    rw [hpc] at hstep
    cases hstep
  | commit =>
    rw [hpc] at hstep hfacts
    cases hstep
    refine h.of_commit hup (by rw [hpc]; rfl) rfl rfl rfl rfl ?_ ?_ h.header
    · split <;> rfl
    · split
      · next hlh => exact ⟨hfacts, hlh⟩
      · exact hfacts
  | writeLog tail =>
    rw [hpc] at hstep hfacts
    cases hstep
    split
    · next b hb =>
      split
      · exact h.panic _
      have hgathered := hfacts.write_slot hb
      exact h.of_commit hup (by rw [hpc]; rfl) rfl rfl rfl rfl rfl hgathered
        (names_of_eq_nil hgathered.empty)
    · next hend =>
      exact h.of_commit hup (by rw [hpc]; rfl) rfl rfl rfl rfl rfl
        ⟨tail, List.getElem?_eq_none_iff.mp hend, hfacts⟩ h.header
  | writeHead =>
    rw [hpc] at hstep hfacts
    obtain ⟨tail, htail, hgathered⟩ := hfacts
    have hcommitted : applyWrites disk (s.groups ++ [s.pending]).flatten =
        applyWrites (s.committed disk) s.pending := by
      rw [List.flatten_append, List.flatten_singleton, applyWrites_append, State.committed]
    have hinstalling := hgathered.write_head (d := s.store.mem sb.start) htail
    cases hstep
    refine h.of_commit hup (by rw [hpc]; rfl) rfl rfl rfl rfl rfl ⟨?_, rfl⟩ fun b hb => ?_
    · simp only [State.committed, State.goto, hcommitted]
      exact hinstalling
    · simp only [State.goto, List.getLastD_concat]
      exact (hgathered.written b).mp (hinstalling.headed ▸ hb)
  | install tail =>
    rw [hpc] at hstep hfacts
    cases hstep
    split
    · next b hb =>
      have hinstalling := hfacts.1.install hb
      refine h.of_commit hup (by rw [hpc]; rfl) rfl rfl rfl rfl rfl
        ⟨hinstalling, hfacts.2⟩ fun b' hb' => h.header b' ?_
      exact hfacts.1.headed ▸ hinstalling.headed ▸ hb'
    · next hend =>
      exact h.of_commit hup (by rw [hpc]; rfl) rfl rfl rfl rfl rfl
        ⟨hfacts.1.stale (List.getElem?_eq_none_iff.mp hend), rfl, hfacts.2⟩ h.header
  | clearHead =>
    rw [hpc] at hstep hfacts
    obtain ⟨hstale, hlh, hpending⟩ := hfacts
    have hgathered := hstale.clear (d := s.store.mem sb.start)
    cases hstep
    refine h.of_commit hup (by rw [hpc]; rfl) rfl rfl rfl rfl rfl ⟨?_, hlh⟩ (names_of_eq_nil ?_)
    · simp only [State.goto, hlh, hpending]
      exact hgathered
    · simp only [State.goto, hlh]
      exact hgathered.empty
  | finish =>
    rw [hpc] at hstep hfacts
    have hbusy : (s.pc t).busy = true := by rw [hpc]; rfl
    have hpcs : update s.pc t .user = fun _ => .user := by
      funext u
      by_cases hut : u = t
      · rw [hut, update_self]
      · rw [update_of_ne hut, (h.lone t hbusy).2 u hut]
    cases hstep
    simp only [State.goto, hpcs]
    refine .of_idle hup rfl (fun _ => rfl) hfacts.1 ?_ fun u b d hu => by cases hu
    rw [h.outstanding, Count.card_filter_none fun u => by simp [h.no_op_of_busy hbusy u],
      Count.card_filter_none fun u => by simp [Pc.inOp]]

omit [DecidableEq τ] in
theorem Inv.of_down (h : Inv sb disk s) (hdown : s.boot ≠ .up) (hpc : s'.pc = s.pc)
    (hc : s'.committing = s.committing) (hout : s'.outstanding = s.outstanding)
    (hboot : s'.boot.Facts sb (s'.committed disk) s')
    (hheader : Names s'.groups (sb.layout.headed s'.store.disk)) :
    Inv sb disk s' where
  boot := hboot
  busy t := by
    rw [hpc, (h.down hdown).2 t]
    trivial
  down _ := ⟨hc.trans (h.down hdown).1, hpc ▸ (h.down hdown).2⟩
  lone t ht := by simp [hpc, (h.down hdown).2 t, Pc.busy] at ht
  committing hc' := by simp [hc, (h.down hdown).1] at hc'
  outstanding := by rw [hout, hpc, h.outstanding]
  home t b d ht := by simp [hpc, (h.down hdown).2 t] at ht
  header := hheader

omit [DecidableEq τ] in
theorem Inv.recover (h : Inv sb disk s) (hnext : s.recover sb = some s') : Inv sb disk s' := by
  have hfacts := h.boot
  rw [State.recover] at hnext
  cases hb : s.boot with
  | readHead =>
    rw [hb] at hnext hfacts
    obtain ⟨hsound, hmem, -, hpending⟩ := hfacts
    cases hnext
    split
    · exact h.panic _
    · exact h.of_down (by rw [hb]; nofun) rfl rfl rfl
        ⟨hsound.installing_of_crash hmem, hpending⟩ h.header
  | install tail =>
    rw [hb] at hnext hfacts
    cases hnext
    split
    · next b hl =>
      have hinstalling := hfacts.1.install hl
      refine h.of_down (by rw [hb]; nofun) rfl rfl rfl ⟨hinstalling, hfacts.2⟩
        fun b' hb' => h.header b' ?_
      exact hfacts.1.headed ▸ hinstalling.headed ▸ hb'
    · next hend =>
      exact h.of_down (by rw [hb]; nofun) rfl rfl rfl
        ⟨hfacts.1.stale (List.getElem?_eq_none_iff.mp hend), rfl, hfacts.2⟩ h.header
  | clearHead =>
    rw [hb] at hnext hfacts
    obtain ⟨hstale, hlh, hpending⟩ := hfacts
    cases hnext
    have hgathered := hstale.clear (d := s.store.mem sb.start)
    refine h.of_down (by rw [hb]; nofun) rfl rfl rfl (fun _ => ?_) (names_of_eq_nil ?_)
    · simp only [hlh, hpending]
      exact hgathered
    · simp only [hlh]
      exact hgathered.empty
  | up =>
    rw [hb] at hnext
    cases hnext

omit [DecidableEq τ] in
theorem Inv.start (hdisk : sb.layout.headed disk = []) : Inv (τ := τ) sb disk (.start disk) where
  boot := by
    refine ⟨⟨⟨?_, ?_, fun _ _ _ => rfl⟩, fun _ _ => rfl⟩, rfl, rfl, rfl⟩
    · rw [State.start, hdisk]
      exact Layout.fits_nil
    · intro i b hi
      simp [State.start, hdisk] at hi
  busy _ := trivial
  down _ := ⟨rfl, fun _ => rfl⟩
  lone _ ht := by cases ht
  committing hc := by cases hc
  outstanding := by simp [State.start, Pc.inOp]
  home _ _ _ hpc := by cases hpc
  header := names_of_eq_nil hdisk

theorem Inv.next {l : Label τ} (h : Inv sb disk s) (hok : hasRoom sb s l)
    (hnext : s.next sb l = some s') : Inv sb disk s' := by
  cases l with
  | beginOp t => exact h.beginOp hnext
  | logWrite t b d => exact h.logWrite hnext
  | append t => exact h.append hok hnext
  | endOp t => exact h.endOp hnext
  | step t => exact h.step hnext
  | recover =>
    rw [State.next] at hnext
    split at hnext
    · exact h.recover hnext
    · cases hnext
  | crash =>
    cases hnext
    exact h.crash

theorem inv_of_reach (hdisk : sb.layout.headed disk = [])
    (h : Transition.Reach (machine τ sb disk) (hasRoom sb) s) : Inv sb disk s := by
  refine h.invariant ?_ fun s l s' _ hinv hok hstep => hinv.next hok hstep
  rintro s rfl
  exact .start hdisk

end

end KThreads.Log
