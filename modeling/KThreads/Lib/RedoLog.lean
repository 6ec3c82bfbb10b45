import KThreads.Lib.BlockStore

/-!
# A redo log on a disk

A header block names the blocks whose new contents are in the slots of the log. Once
the header is on the disk, so are, in effect, the contents: whatever the blocks
themselves hold, installing the log gives them their new contents. Each rule below is
about one write of a block, between any two of which the machine may crash.
-/

namespace KThreads.RedoLog

open Function (update update_of_ne update_self)

variable {β δ : Type*}

/-- Where the header and the slots are, which blocks are not part of the log, and how a
list of blocks is kept in the header. -/
structure Layout (β δ : Type*) where
  head : β
  slot : ℕ → β
  /-- The number of the slots. -/
  cap : ℕ
  Home : β → Prop
  get : δ → List β
  put : δ → List β → δ
  slot_inj : ∀ {i j}, i < cap → j < cap → slot i = slot j → i = j
  slot_ne_head : ∀ {i}, i < cap → slot i ≠ head
  home_ne_head : ∀ {b}, Home b → b ≠ head
  home_ne_slot : ∀ {b i}, Home b → i < cap → b ≠ slot i
  get_put : ∀ d {l}, l.length ≤ cap → (∀ b ∈ l, Home b) → get (put d l) = l

variable (L : Layout β δ) {l : List β} {disk H H' : β → δ} {i tail : ℕ} {b : β} {d : δ}

namespace Layout

/-- A list of blocks that the log has room for. -/
structure Fits (l : List β) : Prop where
  nodup : l.Nodup
  length : l.length ≤ L.cap
  home : ∀ b ∈ l, L.Home b

/-- The blocks that the header on a disk names. -/
def headed (disk : β → δ) : List β := L.get (disk L.head)

/-- What is on the disk amounts to the contents `H`. -/
structure Durable (disk H : β → δ) : Prop where
  fits : L.Fits (L.headed disk)
  logged : ∀ i b, (L.headed disk)[i]? = some b → disk (L.slot i) = H b
  rest : ∀ b, L.Home b → b ∉ L.headed disk → disk b = H b

/-- The blocks that the log does not name, and the first `tail` ones that it names, have
their contents. -/
def Installed (disk H : β → δ) (tail : ℕ) : Prop :=
  ∀ b, L.Home b → (∀ i, (L.headed disk)[i]? = some b → i < tail) → disk b = H b

variable {L}

theorem fits_nil : L.Fits [] := ⟨List.nodup_nil, Nat.zero_le _, by simp⟩

theorem Fits.lt (h : L.Fits l) (hi : l[i]? = some b) : i < L.cap :=
  Nat.lt_of_lt_of_le (List.getElem?_eq_some_iff.mp hi).1 h.length

theorem Fits.home_of_getElem? (h : L.Fits l) (hi : l[i]? = some b) : L.Home b :=
  h.home b (List.mem_of_getElem? hi)

theorem Fits.concat (h : L.Fits l) (hb : L.Home b) (hnew : b ∉ l) (hroom : l.length < L.cap) :
    L.Fits (l ++ [b]) where
  nodup := by
    rw [← List.concat_eq_append, List.nodup_concat]
    exact ⟨hnew, h.nodup⟩
  length := by
    rw [List.length_append]
    exact hroom
  home x hx := by
    rcases List.mem_append.mp hx with hx | hx
    · exact h.home x hx
    · rw [List.mem_singleton.mp hx]
      exact hb

theorem Durable.installed_zero (h : L.Durable disk H) : L.Installed disk H 0 := by
  intro b hb hnone
  refine h.rest b hb fun hmem => ?_
  obtain ⟨i, hi⟩ := List.getElem?_of_mem hmem
  exact absurd (hnone i hi) (Nat.not_lt_zero i)

theorem Installed.all (h : L.Installed disk H tail) (htail : (L.headed disk).length ≤ tail) :
    ∀ b, L.Home b → disk b = H b := fun b hb =>
  h b hb fun _ hi => Nat.lt_of_lt_of_le (List.getElem?_eq_some_iff.mp hi).1 htail

variable [DecidableEq β]

theorem headed_update (hb : b ≠ L.head) : L.headed (update disk b d) = L.headed disk := by
  rw [headed, headed, update_of_ne hb.symm]

theorem headed_put (h : L.Fits l) : L.headed (update disk L.head (L.put d l)) = l := by
  rw [headed, update_self, L.get_put d h.length h.home]

theorem headed_clear : L.headed (update disk L.head (L.put d [])) = [] := headed_put fits_nil

theorem Durable.write_slot (h : L.Durable disk H) (hempty : L.headed disk = []) (hi : i < L.cap) :
    L.Durable (update disk (L.slot i) d) H := by
  have hsame : L.headed (update disk (L.slot i) d) = L.headed disk :=
    headed_update (L.slot_ne_head hi)
  constructor
  · rw [hsame]
    exact h.fits
  · intro j b hj
    simp [hsame, hempty] at hj
  · intro b hb _
    rw [update_of_ne (L.home_ne_slot hb hi)]
    exact h.rest b hb (by simp [hempty])

theorem Durable.write_head (h : L.Durable disk H) (hempty : L.headed disk = []) (hl : L.Fits l)
    (hslots : ∀ i b, l[i]? = some b → disk (L.slot i) = H' b)
    (hrest : ∀ b, L.Home b → b ∉ l → H' b = H b) :
    L.Durable (update disk L.head (L.put d l)) H' := by
  have hhead : L.headed (update disk L.head (L.put d l)) = l := headed_put hl
  constructor
  · rw [hhead]
    exact hl
  · intro i b hi
    rw [hhead] at hi
    rw [update_of_ne (L.slot_ne_head (hl.lt hi))]
    exact hslots i b hi
  · intro b hb hnot
    rw [hhead] at hnot
    rw [update_of_ne (L.home_ne_head hb), hrest b hb hnot]
    exact h.rest b hb (by simp [hempty])

theorem Durable.write_headed (h : L.Durable disk H) (hi : (L.headed disk)[i]? = some b) :
    L.Durable (update disk b d) H := by
  have hb := h.fits.home_of_getElem? hi
  have hsame : L.headed (update disk b d) = L.headed disk := headed_update (L.home_ne_head hb)
  constructor
  · rw [hsame]
    exact h.fits
  · intro j b' hj
    rw [hsame] at hj
    rw [update_of_ne (L.home_ne_slot hb (h.fits.lt hj)).symm]
    exact h.logged j b' hj
  · intro b' hb' hnot
    rw [hsame] at hnot
    have hne : b' ≠ b := by
      rintro rfl
      exact hnot (List.mem_of_getElem? hi)
    rw [update_of_ne hne]
    exact h.rest b' hb' hnot

theorem durable_clear (hall : ∀ b, L.Home b → disk b = H b) :
    L.Durable (update disk L.head (L.put d [])) H := by
  constructor
  · rw [headed_clear]
    exact fits_nil
  · intro i b hi
    simp [headed_clear] at hi
  · intro b hb _
    rw [update_of_ne (L.home_ne_head hb)]
    exact hall b hb

theorem Installed.install (h : L.Installed disk H tail) (hdurable : L.Durable disk H)
    (htail : (L.headed disk)[tail]? = some b) (hd : d = disk (L.slot tail)) :
    L.Installed (update disk b d) H (tail + 1) := by
  have hb := hdurable.fits.home_of_getElem? htail
  intro b' hb' hbefore
  rw [headed_update (L.home_ne_head hb)] at hbefore
  by_cases hne : b' = b
  · subst hne
    rw [update_self, hd]
    exact hdurable.logged tail b' htail
  · rw [update_of_ne hne]
    refine h b' hb' fun i hi => Nat.lt_of_le_of_ne (Nat.lt_succ_iff.mp (hbefore i hi)) ?_
    rintro rfl
    exact hne (Option.some.inj (hi.symm.trans htail))

section

variable {st : BlockStore β δ} {ws : List (β × δ)}

/-- What holds of the disk and the cache at all times: the disk amounts to the contents
`H`, and the blocks of the log are changed on the disk only. -/
structure Sound (L : Layout β δ) (st : BlockStore β δ) (H : β → δ) : Prop where
  durable : L.Durable st.disk H
  clean : ∀ b, ¬L.Home b → st.mem b = st.disk b

/-- The writes `ws` to the blocks of the list `l` have been made in the cache, and the
first `tail` of these blocks are in their slots. -/
structure Gathered (L : Layout β δ) (st : BlockStore β δ) (l : List β) (ws : List (β × δ))
    (H : β → δ) (tail : ℕ) : Prop extends L.Sound st H where
  empty : L.headed st.disk = []
  fits : L.Fits l
  mem : ∀ b, L.Home b → st.mem b = applyWrites H ws b
  written : ∀ b, b ∈ l ↔ ∃ d, (b, d) ∈ ws
  slots : ∀ i b, i < tail → l[i]? = some b → st.disk (L.slot i) = applyWrites H ws b

/-- The blocks that the header names are being written from their slots. -/
structure Installing (L : Layout β δ) (st : BlockStore β δ) (l : List β) (H : β → δ) (tail : ℕ) :
    Prop extends L.Sound st H where
  headed : L.headed st.disk = l
  disk : L.Installed st.disk H tail
  mem : L.Installed st.mem H tail

/-- Every block has its contents, and the header has to be cleared. -/
structure Stale (L : Layout β δ) (st : BlockStore β δ) (H : β → δ) : Prop extends L.Sound st H where
  disk : ∀ b, L.Home b → st.disk b = H b
  mem : ∀ b, L.Home b → st.mem b = H b

omit [DecidableEq β] in
theorem not_home_head : ¬L.Home L.head := fun h => L.home_ne_head h rfl

omit [DecidableEq β] in
theorem not_home_slot (hi : i < L.cap) : ¬L.Home (L.slot i) := fun h => L.home_ne_slot h hi rfl

omit [DecidableEq β] in
theorem Sound.headed_mem (h : L.Sound st H) : L.headed st.mem = L.headed st.disk := by
  rw [Layout.headed, Layout.headed, h.clean _ not_home_head]

theorem Sound.clean_write (h : L.Sound st H) :
    ∀ b', ¬L.Home b' → (st.write b d).mem b' = (st.write b d).disk b' := by
  intro b' hb'
  by_cases hne : b' = b
  · simp [hne]
  · simpa [hne] using h.clean b' hb'

omit [DecidableEq β] in
theorem Sound.crash (h : L.Sound st H) : L.Sound st.crash H := ⟨h.durable, fun _ _ => rfl⟩

omit [DecidableEq β] in
theorem Sound.installing_of_crash (h : L.Sound st H) (hmem : st.mem = st.disk) :
    L.Installing st (L.get (st.mem L.head)) H 0 where
  toSound := h
  headed := by rw [hmem, Layout.headed]
  disk := h.durable.installed_zero
  mem := hmem ▸ h.durable.installed_zero

theorem Gathered.append (h : L.Gathered st l ws H 0) (hb : L.Home b)
    (hroom : b ∉ l → l.length < L.cap) :
    L.Gathered (st.modify b d) (if b ∈ l then l else l ++ [b]) (ws ++ [(b, d)]) H 0 where
  durable := h.durable
  clean b' hb' := by
    have hne : b' ≠ b := by
      rintro rfl
      exact hb' hb
    simpa [hne] using h.clean b' hb'
  empty := h.empty
  fits := by
    split
    · exact h.fits
    · next hnew => exact h.fits.concat hb hnew (hroom hnew)
  mem b' hb' := by
    rw [BlockStore.modify_mem, applyWrites_concat]
    by_cases hne : b' = b
    · simp [hne]
    · simpa [hne] using h.mem b' hb'
  written b' := by
    have hold := h.written b'
    by_cases hmem : b ∈ l
    · obtain ⟨d', hd'⟩ := (h.written b).mp hmem
      rw [if_pos hmem, hold]
      constructor
      · rintro ⟨d'', hd''⟩
        exact ⟨d'', List.mem_append_left _ hd''⟩
      · rintro ⟨d'', hd''⟩
        rcases List.mem_append.mp hd'' with hd'' | hd''
        · exact ⟨d'', hd''⟩
        · cases List.mem_singleton.mp hd''
          exact ⟨d', hd'⟩
    · rw [if_neg hmem, List.mem_append, List.mem_singleton, hold]
      constructor
      · rintro (⟨d'', hd''⟩ | rfl)
        · exact ⟨d'', List.mem_append_left _ hd''⟩
        · exact ⟨d, by simp⟩
      · rintro ⟨d'', hd''⟩
        rcases List.mem_append.mp hd'' with hd'' | hd''
        · exact Or.inl ⟨d'', hd''⟩
        · cases List.mem_singleton.mp hd''
          exact Or.inr rfl
  slots _ _ hi := absurd hi (Nat.not_lt_zero _)

theorem Gathered.write_slot (h : L.Gathered st l ws H tail) (hb : l[tail]? = some b) :
    L.Gathered (st.write (L.slot tail) (st.mem b)) l ws H (tail + 1) where
  durable := h.durable.write_slot h.empty (h.fits.lt hb)
  clean := h.clean_write
  empty := by
    rw [BlockStore.write_disk, headed_update (L.slot_ne_head (h.fits.lt hb))]
    exact h.empty
  fits := h.fits
  mem b' hb' := by
    rw [BlockStore.write_mem, update_of_ne (L.home_ne_slot hb' (h.fits.lt hb))]
    exact h.mem b' hb'
  written := h.written
  slots i b' hi hb' := by
    rw [BlockStore.write_disk]
    by_cases hne : i = tail
    · subst hne
      cases hb.symm.trans hb'
      rw [update_self]
      exact h.mem b (h.fits.home_of_getElem? hb)
    · have hslot : L.slot i ≠ L.slot tail := fun heq =>
        hne (L.slot_inj (h.fits.lt hb') (h.fits.lt hb) heq)
      rw [update_of_ne hslot]
      exact h.slots i b' (by omega) hb'

theorem Gathered.write_head (h : L.Gathered st l ws H tail) (htail : l.length ≤ tail) :
    L.Installing (st.write L.head (L.put d l)) l (applyWrites H ws) 0 := by
  have hslots : ∀ i b, l[i]? = some b → st.disk (L.slot i) = applyWrites H ws b := fun i b hi =>
    h.slots i b (Nat.lt_of_lt_of_le (List.getElem?_eq_some_iff.mp hi).1 htail) hi
  have hdurable : L.Durable (st.write L.head (L.put d l)).disk (applyWrites H ws) :=
    h.durable.write_head h.empty h.fits hslots fun b _ hnot =>
      applyWrites_of_notMem fun d hd => hnot ((h.written b).mpr ⟨d, hd⟩)
  refine ⟨⟨hdurable, h.clean_write⟩, headed_put h.fits, hdurable.installed_zero, fun b hb _ => ?_⟩
  rw [BlockStore.write_mem, update_of_ne (L.home_ne_head hb)]
  exact h.mem b hb

theorem Installing.install (h : L.Installing st l H tail) (hb : l[tail]? = some b) :
    L.Installing (st.write b (st.mem (L.slot tail))) l H (tail + 1) := by
  obtain ⟨⟨hdurable, hclean⟩, hl, hdisk, hmem⟩ := h
  subst hl
  have hcap := hdurable.fits.lt hb
  have hhead : L.head ≠ b := (L.home_ne_head (hdurable.fits.home_of_getElem? hb)).symm
  have hslot : st.mem (L.slot tail) = st.disk (L.slot tail) := hclean _ (not_home_slot hcap)
  refine ⟨⟨hdurable.write_headed hb, (Sound.mk hdurable hclean).clean_write⟩, ?_, ?_, ?_⟩
  · exact headed_update hhead.symm
  · exact hdisk.install hdurable hb hslot
  · intro b' hb' hbefore
    rw [BlockStore.write_mem] at hbefore ⊢
    rw [headed_update hhead.symm] at hbefore
    by_cases hne : b' = b
    · subst hne
      rw [update_self, hslot]
      exact hdurable.logged tail b' hb
    · rw [update_of_ne hne]
      refine hmem b' hb' fun i hi => Nat.lt_of_le_of_ne (Nat.lt_succ_iff.mp (hbefore i hi)) ?_
      rintro rfl
      rw [(Sound.mk hdurable hclean).headed_mem] at hi
      exact hne (Option.some.inj (hi.symm.trans hb))

omit [DecidableEq β] in
theorem Installing.fits (h : L.Installing st l H tail) : L.Fits l := h.headed ▸ h.durable.fits

omit [DecidableEq β] in
theorem Installing.stale (h : L.Installing st l H tail) (htail : l.length ≤ tail) : L.Stale st H := by
  refine ⟨h.toSound, h.disk.all (h.headed ▸ htail), h.mem.all ?_⟩
  rw [h.headed_mem, h.headed]
  exact htail

theorem Stale.clear (h : L.Stale st H) :
    L.Gathered (st.write L.head (L.put d [])) [] [] H 0 where
  durable := durable_clear h.disk
  clean := h.clean_write
  empty := headed_clear
  fits := fits_nil
  mem b hb := by
    rw [BlockStore.write_mem, update_of_ne (L.home_ne_head hb)]
    exact h.mem b hb
  written b := by simp
  slots _ _ hi := absurd hi (Nat.not_lt_zero _)

end

end Layout

end KThreads.RedoLog
