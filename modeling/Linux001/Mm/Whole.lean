import Linux001.Mm.Ownership
import Linux001.Mm.Pages

/-!
# Mm — what a fork leaves of the parent

A fork allocates, brings swapped pages back and marks pages copy-on-write, and if it fails it tears
the child down again.  Through all of it the parent's directory stays, and each of its pages is what
it was, in memory or out on the swap device, unless the reclaimer has dropped it
(`SysInv.fork_whole`).
-/

namespace Linux001

open Function Mm Finset Books

variable {B : Boot} {tk : TaskTable} {m m' m₁ m₂ : Mm} {b b' b₁ : Books} {s : Sys}
variable {d d' f g pt : Frame} {i j : Ix} {n n' : Slot} {t : Task}

/-- Page `i` of the table `pt`, in memory or out on the swap device. -/
def Mm.stored (m : Mm) (pt : Frame) (i : Ix) : Option Page :=
  if present (m.mem pt i) then some (m.mem (frameOf (m.mem pt i)))
  else if swapped (m.mem pt i) then some (m.wentOut pt i)
  else none

/-- The directory `d` with the table `pt` is still there, and each of its pages is what it was, unless
the reclaimer has been called and has dropped it. -/
structure Whole (d pt : Frame) (m m' : Mm) : Prop where
  dir : m'.mem d = m.mem d
  reclaims : m.nrReclaims ≤ m'.nrReclaims
  pages : ∀ i, m'.stored pt i = m.stored pt i ∨ (m'.stored pt i = none ∧ m.nrReclaims < m'.nrReclaims)

/-- The frames behind a directory: itself, its table and the pages. -/
def Mm.Behind (m : Mm) (d pt g : Frame) : Prop :=
  g = d ∨ g = pt ∨ ∃ i, present (m.mem pt i) = true ∧ g = frameOf (m.mem pt i)

namespace Whole

theorem trans (h : Whole d pt m m₁) (h' : Whole d pt m₁ m₂) : Whole d pt m m₂ := by
  refine ⟨h'.dir.trans h.dir, h.reclaims.trans h'.reclaims, fun i => ?_⟩
  rcases h'.pages i with e' | ⟨e', hlt⟩
  · rw [e']
    exact (h.pages i).imp_right fun ⟨e, hlt⟩ => ⟨e, hlt.trans_le h'.reclaims⟩
  · exact .inr ⟨e', h.reclaims.trans_lt hlt⟩

/-- Nothing behind the directory is written. -/
theorem of_mem (hm : ∀ g, m.Behind d pt g → m'.mem g = m.mem g) (hw : m'.wentOut = m.wentOut)
    (hr : m'.nrReclaims = m.nrReclaims) : Whole d pt m m' := by
  have hpt : m'.mem pt = m.mem pt := hm pt (.inr (.inl rfl))
  refine ⟨hm d (.inl rfl), hr.ge, fun i => .inl ?_⟩
  unfold stored
  rw [hpt, hw]
  split
  · next hp => rw [hm _ (.inr (.inr ⟨i, hp, rfl⟩))]
  · rfl

theorem userPt (h : Whole d pt m m') : m'.userPt (some d) = m.userPt (some d) := by
  simp only [Mm.userPt, h.dir]

theorem refl : Whole d pt m m := .of_mem (fun _ _ => rfl) rfl rfl

/-- The table itself is written, at one place, and the page there is the same. -/
theorem of_entry (hd : m'.mem d = m.mem d) (hother : ∀ j, j ≠ i → m'.mem pt j = m.mem pt j)
    (hmem : ∀ j, j ≠ i → present (m.mem pt j) = true → m'.mem (frameOf (m.mem pt j)) = m.mem (frameOf (m.mem pt j)))
    (hw : m'.wentOut = m.wentOut) (hr : m'.nrReclaims = m.nrReclaims)
    (hi : m'.stored pt i = m.stored pt i) : Whole d pt m m' := by
  refine ⟨hd, hr.ge, fun j => .inl ?_⟩
  by_cases hj : j = i
  · rw [hj, hi]
  unfold stored
  rw [hother j hj, hw]
  split
  · next hp => rw [hmem j hj hp]
  · rfl

end Whole

/-! ### Frames that are not behind a directory -/

section
variable (h : Inv B tk m b) (hd : d ∈ b.live)
include h hd

/-- A page of a kernel owner. -/
theorem Inv.behind_ne_kern (hf : f ∈ b.kern)
    (hg : m.Behind d (b.tbl d) g) : g ≠ f := by
  have hdata := h.data_kern hf
  rcases hg with rfl | rfl | ⟨i, hp, rfl⟩
  · exact fun e => hdata.dir (e ▸ hd)
  · exact hdata.table d hd
  intro e
  rw [h.mem_tbl hd] at hp e
  have := h.accounts.sole (by trivial) (cells_kern hf)
    (show b.cells (.pte d i) = some f from e ▸ h.hold_eq hd hp)
  simp at this

/-- A frame that nobody refers to. -/
theorem Inv.behind_ne_free (hf : ∀ c, b.cells c ≠ some f)
    (hg : m.Behind d (b.tbl d) g) : g ≠ f := by
  rcases hg with rfl | rfl | ⟨i, hp, rfl⟩
  · exact fun e => hf (.dir g) (e ▸ cells_dir hd)
  · exact fun e => hf (.table d) (e ▸ cells_table hd)
  intro e
  rw [h.mem_tbl hd] at hp e
  exact hf (.pte d i) (e ▸ h.hold_eq hd hp)

/-- The directory and the table of another address space. -/
theorem Inv.behind_ne_other (hd' : d' ∈ b.live) (e : d' ≠ d)
    (hg : m.Behind d (b.tbl d) g) : g ≠ b.tbl d' ∧ g ≠ d' := by
  rcases hg with rfl | rfl | ⟨i, hp, rfl⟩
  · exact ⟨(h.tbl_ne_dir hd' hd).symm, e.symm⟩
  · exact ⟨fun e' => e (h.tbl_inj hd hd' e').symm, h.tbl_ne_dir hd hd'⟩
  rw [h.mem_tbl hd] at hp ⊢
  have hdata := h.data_hold (h.hold_eq hd hp)
  exact ⟨(hdata.table d' hd').symm, fun e' => hdata.dir (e' ▸ hd')⟩

/-! ### The steps of a fork -/

omit h hd in
/-- The reclaimer drops a page or leaves it, in memory or on the swap device. -/
theorem Drift.stored (hi : Inv B tk m b) (hi' : Inv B tk m' b') (hr : Drift m b m' b')
    (hd : d ∈ b.live) (i : Ix) :
    m'.stored (b.tbl d) i = m.stored (b.tbl d) i ∨ m'.stored (b.tbl d) i = none := by
  have hm' : m'.mem (b.tbl d) i = b'.pte d i := by
    rw [← hr.spaces.tbl]
    exact hi'.mem_tbl (hr.spaces.live ▸ hd)
  unfold Mm.stored
  rw [hi.mem_tbl hd, hm']
  cases hp : present (b.pte d i) with
  | true =>
    cases hr.fate hd hp with
    | stays e => exact .inl (by rw [e.present, hp, e.frame, hr.page hi hd hp]; rfl)
    | dropped hz _ => exact .inr (by rw [hz, present_zero, swapped_zero]; rfl)
    | out hp' hs _ hw => exact .inl (by rw [hp', hs, hw]; rfl)
  | false =>
    obtain ⟨e, -, hw⟩ := hr.absent hd hp
    exact .inl (by rw [e, hp, hw]; rfl)

/-- A frame that is handed out. -/
theorem Inv.take_whole (hf : ∀ c, b.cells c ≠ some f) :
    Whole d (b.tbl d) m (m.takeFrame f) :=
  .of_mem (fun _ hg => update_of_ne (h.behind_ne_free hd hf hg) _ _) rfl rfl

theorem Inv.getFreePage_whole :
    Whole d (b.tbl d) m (getFreePage tk m).2 := by
  rcases getFreePage_cases tk m with ⟨f, hf, e⟩ | hpr
  · rw [e]
    exact h.take_whole hd (h.take_fresh hf)
  -- the reclaimer has been called, and then a frame handed out
  obtain ⟨m₁, b₁, h₁, hd₁, hres⟩ := h.getFreePage
  have hl₁ : d ∈ b₁.live := hd₁.spaces.live ▸ hd
  have hdir : m₁.mem d = m.mem d := hd₁.data fun d' hd' => h.tbl_ne_dir hd' hd
  have hw : ∀ {m₂ : Mm}, Whole d (b₁.tbl d) m₁ m₂ → m₂.nrReclaims = m₁.nrReclaims →
      m.nrReclaims < m₂.nrReclaims → Whole d (b.tbl d) m m₂ := fun {m₂} hw hr hlt => by
    rw [hd₁.spaces.tbl] at hw
    refine ⟨hw.dir.trans hdir, hlt.le, fun i => ?_⟩
    have hsame : m₂.stored (b.tbl d) i = m₁.stored (b.tbl d) i :=
      (hw.pages i).resolve_right fun ⟨_, hlt'⟩ => by omega
    rw [hsame]
    exact (hd₁.stored h h₁ hd i).imp_right fun e => ⟨e, hlt⟩
  have hlt := hpr.2
  rcases hres with e | ⟨f, e, -, -, hf⟩
  · rw [e] at hlt ⊢
    exact hw .refl rfl hlt
  · rw [e] at hlt ⊢
    exact hw (h₁.take_whole hl₁ hf) rfl hlt

omit h hd in
theorem Mm.putKernelEntries_of_ne (m : Mm) (hg : g ≠ f) :
    (m.putKernelEntries f).mem g = m.mem g ∧ (m.putKernelEntries f).wentOut = m.wentOut ∧
      (m.putKernelEntries f).nrReclaims = m.nrReclaims := by
  unfold putKernelEntries
  generalize List.finRange 4 = l
  induction l generalizing m with
  | nil => exact ⟨rfl, rfl, rfl⟩
  | cons k l ih =>
    obtain ⟨h₁, h₂⟩ := ih (m.setWord f (k.castLE (by omega)) (kernelEntry k.val))
    exact ⟨h₁.trans (setWord_of_ne hg), h₂⟩

theorem Inv.allocUserPgdir_whole :
    Whole d (b.tbl d) m (allocUserPgdir tk m).2 := by
  unfold allocUserPgdir
  have hw₁ := h.getFreePage_whole hd
  obtain ⟨m₁, b₁, -, hd₁, e | ⟨p, e, -, hi₁, -⟩⟩ := h.getFreePage
  · rw [e] at hw₁
    simp only [e]
    exact hw₁
  rw [e] at hw₁
  simp only [e]
  refine hw₁.trans ?_
  have hl₁ : d ∈ (b₁.addKern p).live := hd₁.spaces.live ▸ hd
  rw [show b.tbl d = (b₁.addKern p).tbl d by rw [← hd₁.spaces.tbl]; rfl]
  have hw₂ := hi₁.getFreePage_whole hl₁
  obtain ⟨m₂, b₂, -, hd₂, e₂ | ⟨q, e₂, -, hi₂, -⟩⟩ := hi₁.getFreePage
  · rw [e₂] at hw₂
    simp only [e₂]
    refine hw₂.trans (.of_mem (fun g _ => ?_) ?_ ?_)
    · rw [freePage_mem]
    · rw [freePage_wentOut]
    · rw [freePage_nrReclaims]
  rw [e₂] at hw₂
  simp only [e₂]
  refine hw₂.trans ?_
  rw [show (b₁.addKern p).tbl d = (b₂.addKern q).tbl d by rw [← hd₂.spaces.tbl]; rfl]
  have hl₂ : d ∈ (b₂.addKern q).live := hd₂.spaces.live ▸ hl₁
  -- the new directory is a kernel page until it is filled in
  have hpk : p ∈ (b₂.addKern q).kern :=
    mem_insert_of_mem (by rw [hd₂.spaces.kern]; exact mem_insert_self _ _)
  have hrest := (putKernelEntries_of_ne (m₂.takeFrame q)
    (hi₂.behind_ne_kern hl₂ hpk (.inl rfl))).2
  refine .of_mem (fun g hg => ?_) hrest.1 hrest.2
  have hne := hi₂.behind_ne_kern hl₂ hpk hg
  rw [setWord_of_ne hne, (putKernelEntries_of_ne _ hne).1]

/-- A swapped page that is brought back, or cannot be. -/
theorem Inv.copySwapIn_whole
    (hp : present (b.pte d i) = false) (hs : swapped (b.pte d i) = true) :
    Whole d (b.tbl d) m (copySwapIn tk m (b.tbl d) i).2 := by
  obtain ⟨sl, hlt, he, -⟩ := (h.entries.entry hd i).of_swapped hp hs
  unfold copySwapIn
  rw [h.mem_tbl hd, he, swapSlot_swapEntry hlt]
  have hw₁ := h.getFreePage_whole hd
  obtain ⟨m₁, b₁, -, hd₁, e₁ | ⟨f, e₁, -, hi₁, -⟩⟩ := h.getFreePage
  · rw [e₁] at hw₁
    simp only [e₁]
    exact hw₁
  rw [e₁] at hw₁
  simp only [e₁]
  refine hw₁.trans ?_
  have hl₁ : d ∈ (b₁.addKern f).live := hd₁.spaces.live ▸ hd
  have he₁ : (b₁.addKern f).pte d i = swapEntry sl := (hd₁.absent hd hp).1.trans he
  rw [show b.tbl d = (b₁.addKern f).tbl d by rw [← hd₁.spaces.tbl]; rfl]
  generalize m₁.takeFrame f = m₁ at hi₁
  have hf : f ∈ (b₁.addKern f).kern := mem_insert_self _ _
  generalize b₁.addKern f = b₁ at hi₁ hl₁ he₁ hf
  have hne : ∀ {g}, m₁.Behind d (b₁.tbl d) g → g ≠ f := hi₁.behind_ne_kern hl₁ hf
  cases hr : m₁.swapInPage sl f with
  | mk ok m₂ =>
    cases ok with
    | false =>
      obtain ⟨p, e⟩ := swapInPage_false hr
      refine .of_mem (fun g hg => ?_) ?_ ?_
      · rw [freePage_mem, e]
        exact update_of_ne (hne hg) _ _
      · simp only
        rw [freePage_wentOut, e]
        rfl
      · rw [freePage_nrReclaims, e]
        rfl
    | true =>
      obtain ⟨-, e⟩ := swapInPage_true hr
      have hkept : m₁.slotPage sl = m₁.wentOut (b₁.tbl d) i := hi₁.slots.kept hlt hl₁ he₁
      have hmem : (m₂.swapFreeSlot sl).mem = update m₁.mem f (m₁.slotPage sl) := by
        rw [swapFreeSlot_of_lt hlt, e]
      have hrest : (m₂.swapFreeSlot sl).wentOut = m₁.wentOut ∧ (m₂.swapFreeSlot sl).nrReclaims = m₁.nrReclaims := by
        rw [swapFreeSlot_of_lt hlt, e]
        exact ⟨rfl, rfl⟩
      have hold : ∀ {g}, m₁.Behind d (b₁.tbl d) g → (m₂.swapFreeSlot sl).mem g = m₁.mem g :=
        fun hg => by rw [hmem, update_of_ne (hne hg)]
      have hpt : b₁.tbl d ≠ f := hne (.inr (.inl rfl))
      simp only
      refine .of_entry (i := i) ?_ (fun j hj => ?_) (fun j _ hpj => ?_) hrest.1 hrest.2 ?_
      · rw [setWord_of_ne (hi₁.tbl_ne_dir hl₁ hl₁).symm, hold (.inl rfl)]
      · rw [setWord_of_not fun h => hj h.2, hold (.inr (.inl rfl))]
      · have hfr : frameOf (m₁.mem (b₁.tbl d) j) ≠ b₁.tbl d := by
          rw [hi₁.mem_tbl hl₁] at hpj ⊢
          exact ((hi₁.data_hold (hi₁.hold_eq hl₁ hpj)).table d hl₁).symm
        rw [setWord_of_ne hfr, hold (.inr (.inr ⟨j, hpj, rfl⟩))]
      · unfold stored
        rw [setWord_same, present_mapEntry, frameOf_mapEntry, setWord_of_ne hpt.symm, hmem,
          update_self, hkept, hi₁.mem_tbl hl₁, he₁, present_swapEntry, swapped_swapEntry]
        rfl

theorem Inv.copyShare_whole {k : ℕ} (hd' : d' ∈ b.live)
    (e : d' ≠ d) : Whole d (b.tbl d) m (copyShare (b.tbl d) (b.tbl d') (k, m) i).2 := by
  unfold copyShare
  split
  · next hp =>
    have hother : ∀ {g}, m.Behind d (b.tbl d) g → g ≠ b.tbl d' := fun hg =>
      (h.behind_ne_other hd hd' e hg).1
    have hpage : ∀ j, present (m.mem (b.tbl d) j) = true →
        (m.shareEntry (b.tbl d) (b.tbl d') i).mem (frameOf (m.mem (b.tbl d) j)) =
          m.mem (frameOf (m.mem (b.tbl d) j)) := fun j hj => by
      have hfr : frameOf (m.mem (b.tbl d) j) ≠ b.tbl d := by
        have hj' := hj
        rw [h.mem_tbl hd] at hj' ⊢
        exact ((h.data_hold (h.hold_eq hd hj')).table d hd).symm
      unfold Mm.shareEntry
      rw [setWord_of_ne (hother (.inr (.inr ⟨j, hj, rfl⟩))), setWord_of_ne hfr, sharePage_eq]
    have hpt : b.tbl d ≠ b.tbl d' := hother (.inr (.inl rfl))
    have hentry : ∀ j, (m.shareEntry (b.tbl d) (b.tbl d') i).mem (b.tbl d) j =
        if j = i then cowEntry (m.mem (b.tbl d) i) else m.mem (b.tbl d) j := fun j => by
      unfold Mm.shareEntry
      rw [setWord_of_ne hpt, sharePage_eq]
      by_cases hj : j = i
      · rw [hj, if_pos rfl, setWord_same]
      · rw [if_neg hj, setWord_of_not fun h => hj h.2]
    refine .of_entry (i := i) ?_ (fun j hj => ?_) (fun j _ hj => hpage j hj) ?_ ?_ ?_
    · unfold Mm.shareEntry
      rw [setWord_of_ne (hother (.inl rfl)), setWord_of_ne (h.tbl_ne_dir hd hd).symm, sharePage_eq]
    · exact (hentry j).trans (if_neg hj)
    · simp only [Mm.shareEntry, Mm.sharePage_eq]
      rfl
    · simp only [Mm.shareEntry, Mm.sharePage_eq]
      rfl
    · unfold stored
      rw [hentry, if_pos rfl, present_cowEntry, frameOf_cowEntry, hp, hpage i hp]
      rfl
  · exact .refl

theorem Inv.copyPageTables_whole (hd' : d' ∈ b.live)
    (e : d' ≠ d) (hz : ∀ i, b.pte d' i = 0#32) :
    Whole d (b.tbl d) m (copyPageTables tk m d d').2 := by
  have hl := Loop.foldlM_finRange (s := (0, m))
    (J := fun k s => CopyInv B tk m b d d' k s ∧ Whole d (b.tbl d) m s.2)
    (Q := fun m' => Whole d (b.tbl d) m m')
    (f := copyEntry tk (b.tbl d) (b.tbl d'))
    ⟨⟨b, h, .refl b, fun j _ => hz j, Nat.le_refl _, fun _ _ _ => ⟨fun _ => ⟨rfl, rfl⟩,
      fun hj => absurd hj (Nat.not_lt_zero _)⟩⟩, .refl⟩
    fun i s hs => ?_
  · unfold copyPageTables
    simp only [h.userPt_eq hd, h.userPt_eq hd']
    generalize (List.finRange 1024).foldlM (copyEntry tk (b.tbl d) (b.tbl d')) (0, m) = r
      at hl
    cases hl with
    | error h => exact h
    | ok h => exact h.2
  obtain ⟨hc, hw⟩ := hs
  have hstep := Inv.copyEntry hd hd' e hc
  obtain ⟨b', h', hs', -, -, -⟩ := hc
  obtain ⟨k, m₁⟩ := s
  change Inv B tk m₁ b' at h'
  have hl : d ∈ b'.live := hs'.live ▸ hd
  have hl' : d' ∈ b'.live := hs'.live ▸ hd'
  rw [← hs'.tbl] at hw hstep ⊢
  simp only [copyEntry, h'.mem_tbl hl] at hstep ⊢
  split
  · next hsw =>
    have hwi := h'.copySwapIn_whole hl hsw.1 hsw.2
    rw [if_pos hsw] at hstep
    obtain ⟨sl, hlt, he, -⟩ := (h'.entries.entry hl i).of_swapped hsw.1 hsw.2
    rcases h'.copySwapIn hl hlt he with ⟨m₂, e₂, -⟩ | ⟨m₂, b₂, e₂, h₂, hs₂, -⟩
    · simp only [e₂] at hwi ⊢
      exact .error (hw.trans hwi)
    simp only [e₂] at hwi hstep ⊢
    refine .ok ⟨hstep.of_ok, (hw.trans hwi).trans ?_⟩
    rw [← hs₂.tbl]
    exact h₂.copyShare_whole (hs₂.live ▸ hl) (hs₂.live ▸ hl') e
  · next hsw =>
    rw [if_neg hsw] at hstep
    exact .ok ⟨hstep.of_ok, hw.trans (h'.copyShare_whole hl hl' e)⟩

omit h hd in
theorem freeUserSpace_wentOut (m : Mm) (d : Frame) : (freeUserSpace m d).wentOut = m.wentOut := by
  have hentry : ∀ (pt : Frame) (m : Mm) (i : Ix), (freeEntry pt m i).wentOut = m.wentOut := by
    intro pt m i
    unfold freeEntry
    simp only
    split
    · exact freePage_wentOut _
    split
    · unfold swapFreeSlot
      split <;> rfl
    · rfl
  have hloop : ∀ (pt : Frame) (l : List Ix) (m : Mm), (l.foldl (freeEntry pt) m).wentOut = m.wentOut := by
    intro pt l
    induction l with
    | nil => exact fun _ => rfl
    | cons i l ih => exact fun m => (ih _).trans (hentry pt m i)
  unfold freeUserSpace freePageTables
  rw [freePage_wentOut]
  split
  · rfl
  · exact (freePage_wentOut _).trans (hloop _ _ _)

theorem Inv.freeUserSpace_whole (hd' : d' ∈ b.live)
    (e : d' ≠ d) : Whole d (b.tbl d) m (freeUserSpace m d') :=
  .of_mem (fun _ hg => freeUserSpace_mem (h.userPt_eq hd') (h.behind_ne_other hd hd' e hg).1
    (h.behind_ne_other hd hd' e hg).2) (freeUserSpace_wentOut m d') (freeUserSpace_counts m d').nrReclaims

end

/-! ### The fork -/

/-- **A fork, whether it fails or not, leaves the parent whole.** -/
theorem SysInv.fork_whole (h : SysInv B s) (hfew : B.few → s.live.card + 1 < used)
    (ht : s.tk n = some t) (hd : t.pgDir = some d) (hpt : s.mm.userPt (some d) = some pt) :
    Whole d pt s.mm (s.fork n' t d).mm := by
  obtain ⟨b, hl, -, hi⟩ := h
  have hdl := hi.tasks ht hd
  obtain rfl := hi.tbl_eq hdl hpt
  have hi₀ : Inv B (update s.tk n' (some (t.withDir none))) s.mm b := hi.retask_task nofun
  have hw₁ := hi₀.allocUserPgdir_whole hdl
  unfold Sys.fork
  rcases hi₀.allocUserPgdir (hl ▸ hfew) with
    ⟨m₁, b₁, e₁, -, -⟩ | ⟨d', m₁, b₁, e₁, h₁, hd', hl₁, -, hz₁⟩
  · rw [e₁] at hw₁
    simp only [e₁]
    exact hw₁
  rw [e₁] at hw₁
  simp only [e₁]
  have hne : d' ≠ d := fun e => hd' (e ▸ hdl)
  have hdl₁ : d ∈ b₁.live := by rw [hl₁]; exact mem_insert_of_mem hdl
  have hdl₁' : d' ∈ b₁.live := by rw [hl₁]; exact mem_insert_self _ _
  have hatt : Inv B (update s.tk n' (some (t.withDir (some d')))) m₁ b₁ :=
    (h₁.retask fun hn hd => by
      rw [hl₁]; exact mem_insert_of_mem (hi.tasks hn hd) : Inv B s.tk m₁ b₁).retask_task
      fun _ hd => Option.some.inj hd ▸ hdl₁'
  -- the table is the one the directory has had all along
  have htbl : b₁.tbl d = b.tbl d :=
    Option.some.inj ((h₁.userPt_eq hdl₁).symm.trans (hw₁.userPt.trans (hi.userPt_eq hdl)))
  have hw₂ := hatt.copyPageTables_whole hdl₁ hdl₁' hne hz₁
  obtain ⟨b₂, h₂, hs₂⟩ := hatt.copyPageTables hdl₁ hdl₁' hne hz₁
  rw [htbl] at hw₂
  generalize copyPageTables (update s.tk n' (some (t.withDir (some d')))) m₁ d d' = r at hw₂ h₂
  obtain ⟨r, m₂⟩ := r
  cases r with
  | some c => exact hw₁.trans hw₂
  | none =>
    have hw₃ := h₂.freeUserSpace_whole (hs₂.live ▸ hdl₁) (hs₂.live ▸ hdl₁') hne
    rw [hs₂.tbl, htbl] at hw₃
    exact (hw₁.trans hw₂).trans hw₃

/-- A fork that leaves the child's slot empty has changed the memory only. -/
theorem Sys.fork_failed (hn' : (s.fork n' t d).tk n' = none) :
    ∃ m', s.fork n' t d = { s with mm := m' } := by
  unfold Sys.fork at hn' ⊢
  generalize allocUserPgdir (update s.tk n' (some (t.withDir none))) s.mm = r at hn' ⊢
  obtain ⟨_ | d', m₁⟩ := r
  · exact ⟨m₁, rfl⟩
  simp only at hn' ⊢
  generalize copyPageTables (update s.tk n' (some (t.withDir (some d')))) m₁ d d' = r
    at hn' ⊢
  obtain ⟨_ | c, m₂⟩ := r
  · exact ⟨_, rfl⟩
  change update s.tk n' (some (t.withDir (some d'))) n' = none at hn'
  rw [update_self] at hn'
  cases hn'

/-! ### The counts -/

instance neZero_entries : NeZero 1024 := ⟨by decide⟩

/-- The directory and the index of a page table entry. -/
def Cell.label : Cell → Frame × Ix
  | .dir d | .table d | .kern d => (d, 0)
  | .pte d i => (d, i)

open Ledger in
/-- **`mem_map[]` counts the users of a frame and no more**, as long as the reclaimer has not emptied
a copy-on-write mapping. -/
theorem SysInv.owners_eq (h : SysInv B s) (hu : s.mm.nrUnmapped = B.nrUnmapped)
    (hf : s.mm.memMap f < used) :
    s.mm.memMap f = s.mappings f + if s.InUse f then 1 else 0 := by
  refine le_antisymm ?_ (h.owners_le (.inl hf))
  obtain ⟨b, hl, hk, hi⟩ := h
  rw [hi.accounts.balance f hf, hi.accounts.noLeak hu, Nat.add_zero]
  split
  · next huse =>
    have hcell : ∃ c : Cell, c.Structural ∧ b.cells c = some f := by
      rcases hi.inUse_cell hl huse with ⟨c, hc, -, hcf⟩ | hf
      · exact ⟨c, hc, hcf⟩
      · exact ⟨.kern f, by trivial, cells_kern (hk ▸ hf)⟩
    obtain ⟨c, hc, hcf⟩ := hcell
    refine (refs_le_card id {c} (fun c' hc' => ?_) fun _ _ _ _ e => e).trans (Nat.le_add_left 1 _)
    exact mem_singleton.mpr (hi.accounts.sole hc hcf hc')
  next huse =>
  have hpte : ∀ c, b.cells c = some f → ∃ d i, c = .pte d i ∧ d ∈ b.live ∧ s.maps d i f = true := by
    intro c hc
    cases c with
    | dir d =>
      simp only [cells] at hc
      split at hc
      · next hd => exact absurd (.inl (hl ▸ Option.some.inj hc ▸ hd)) huse
      · cases hc
    | table d =>
      simp only [cells] at hc
      split at hc
      · next hd => exact absurd (.inr (.inl ⟨d, hl ▸ hd, by rw [hi.userPt_eq hd, hc]⟩)) huse
      · cases hc
    | kern g =>
      simp only [cells] at hc
      split at hc
      · next hg => exact absurd (.inr (.inr (hk ▸ Option.some.inj hc ▸ hg))) huse
      · cases hc
    | pte d i =>
      have hd : d ∈ b.live := by
        by_contra hd
        have := hi.accounts.dead (i := i) hd
        rw [hc] at this
        cases this
      have hp : present (b.pte d i) = true := by
        by_contra hp
        have := hi.entries.fresh hu hd (by simpa using hp)
        rw [show b.hold d i = some f from hc] at this
        cases this
      refine ⟨d, i, rfl, hd, ?_⟩
      have hfr := (hi.hold_eq hd hp).symm.trans hc
      unfold Sys.maps
      simp only [hi.userPt_eq hd, hi.mem_tbl hd, hp, Option.some.inj hfr, decide_true, Bool.and_self]
  refine refs_le_card Cell.label _ (fun c hc => ?_) fun c c' hc hc' e => ?_
  · obtain ⟨d, i, rfl, hd, hm⟩ := hpte c hc
    exact mem_filter.mpr ⟨mem_product.mpr ⟨hl ▸ hd, mem_univ _⟩, hm⟩
  · obtain ⟨d, i, rfl, -, -⟩ := hpte c hc
    obtain ⟨d', i', rfl, -, -⟩ := hpte c' hc'
    simpa [Cell.label] using e

end Linux001
