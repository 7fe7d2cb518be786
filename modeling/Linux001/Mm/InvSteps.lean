import Linux001.Mm.Inv

/-!
# Mm — one step of the code, one step of the books

Every write the memory manager makes to a page table, to `mem_map[]` or to `swap_map[]` keeps the
invariant, with the books changed accordingly.  The functions of `mm/memory.c` are sequences of
these steps.
-/

namespace Linux001

open Function Books Mm
open Ledger

variable {B : Boot} {tk : TaskTable} {m m' : Mm} {b : Books}
variable {d d' f : Frame} {i i' : Ix} {w : Word} {x : Option Frame} {s : ℕ} {p : Page}

namespace Books

theorem setHold_eq_self : (b.setPte d i w).setHold d i (b.hold d i) = b.setPte d i w := by
  simp [setHold, setPte, update₂_eq_self]

@[simp] theorem cells_setPte : (b.setPte d i w).cells = b.cells := rfl

end Books

namespace Inv

/-! ### What the invariant does not look at -/

section
variable (h : Inv B tk m b)
include h

/-- Data pages, the cursor, the counters of transfers and sectors of free slots may change. -/
theorem congr (hr : m'.ram = m.ram) (hmm : m'.memMap = m.memMap)
    (hu : m'.nrUnmapped = m.nrUnmapped) (hm : ∀ g, ¬ b.Data g → m'.mem g = m.mem g)
    (hs : m'.swapMap = m.swapMap) (hp : ∀ s, m.swapMap s = true → m'.slotPage s = m.slotPage s)
    (hw : m'.wentOut = m.wentOut) : Inv B tk m' b where
  accounts := h.accounts.congr hr hmm hu
  shape := h.shape.congr hm
  entries := h.entries.congr hu
  slots := h.slots.congr hs hp hw
  tasks := h.tasks

/-- A data page is written. -/
theorem setPage (hf : b.Data f) : Inv B tk (m.setPage f p) b :=
  h.congr rfl rfl rfl (fun _ hg => setPage_of_ne fun e => hg (e ▸ hf)) rfl (fun _ _ => rfl) rfl

/-! ### Entries -/

section
variable (hd : d ∈ b.live) (hp : present (b.pte d i) = true)
include hd hp

/-- The flags of a present entry change; a copy-on-write entry stays one. -/
theorem remark
    (hm : Mapped w) (hf : frameOf w = frameOf (b.pte d i))
    (hc : cow (b.pte d i) = true → cow w = true) :
    Inv B tk (m.setWord (b.tbl d) i w) (b.setPte d i w) where
  accounts := h.accounts.congr rfl rfl rfl
  shape := h.shape_setPte hd rfl
  entries := by
    have hx : b.hold d i = some (frameOf w) := by rw [h.hold_eq hd hp, hf]
    rw [← setHold_eq_self, hx]
    refine h.entries.set (.page hm) (fun _ => h.userPage hd hp) id (fun _ hp' => ?_) fun f d' i' hx hh e => ?_
    · rw [hm.present] at hp'; cases hp'
    · obtain rfl : frameOf w = f := by simpa using hx
      rw [hf] at hh
      obtain ⟨h₁, h₂⟩ := h.shared hd hp hh e
      exact ⟨fun _ => hc h₁, h₂⟩
  slots := h.slots.set (h.mapped hd hp).inCore hm.inCore rfl rfl rfl
  tasks := h.tasks

/-- The Accessed or the Dirty bit of an entry changes. -/
theorem retag
    (hs : SameEntry (b.pte d i) w) :
    Inv B tk (m.setWord (b.tbl d) i w) (b.setPte d i w) :=
  h.remark hd hp ((h.mapped hd hp).sameEntry hs) hs.frame fun hc => by rw [hs.cow, hc]

/-- A present entry is emptied and its reference given back. -/
theorem drop
    (hmem : m'.mem = update₂ m.mem (b.tbl d) i w) (hr : m'.ram = m.ram)
    (hmm : m'.memMap = (m.freePage (frameAddr (frameOf (b.pte d i)))).memMap)
    (hu : m'.nrUnmapped = m.nrUnmapped) (hw : EntryOk w none)
    (hs : Slots m' (b.setPte d i w)) : Inv B tk m' ((b.setPte d i w).setHold d i none) where
  accounts := by
    have := h.accounts.drop (c := .pte d i) (h.hold_eq hd hp)
    rw [cells_setHold]
    exact this.congr (by simp [hr]) hmm (by simp [hu])
  shape := (h.shape_setPte hd hmem).books rfl rfl rfl
  entries := h.entries.set hw (fun _ => h.userPage hd hp) (by rw [hu]; exact id) (fun _ _ => rfl) fun _ _ _ hx => by cases hx
  slots := hs.books rfl rfl rfl
  tasks := h.tasks

/-- A copy-on-write entry is emptied, and its reference kept. -/
theorem dropShare :
    Inv B tk (m.dropShare (b.tbl d) i) (b.setPte d i 0#32) where
  accounts := h.accounts.unmapped rfl rfl rfl
  shape := h.shape_setPte hd rfl
  entries := by
    have hsince := h.accounts.since
    rw [← setHold_eq_self]
    refine h.entries.set .empty (absurd rfl) (fun hu => ?_) (fun hu => ?_) fun f d' i' hx hh e => ?_
    · change m.nrUnmapped + 1 = _ at hu; omega
    · change m.nrUnmapped + 1 = _ at hu; omega
    · rw [h.hold_eq hd hp] at hx
      exact ⟨by simp, (h.shared hd hp (hh.trans hx.symm) e).2⟩
  slots := h.slots.set (h.mapped hd hp).inCore swapped_zero rfl rfl rfl
  tasks := h.tasks

end

/-! ### Kernel pages -/

/-- A free frame is handed out. -/
theorem take (hf : m.findFree = some f) :
    Inv B tk (m.takeFrame f) (b.addKern f) := by
  obtain ⟨h₀, hin⟩ := findFree_some hf
  obtain ⟨hfree, hres⟩ := h.accounts.free h₀
  have hk : f ∉ b.kern := fun hk => hfree _ (cells_kern hk)
  have hdata : b.Data f := ⟨fun hl => hfree _ (cells_dir hl),
    fun d hd e => hfree (.table d) (by rw [cells_table hd, e]),
    fun k hk e => hres (e ▸ B.kernel k hk)⟩
  refine ⟨?_, ?_, ?_, ?_, h.tasks⟩
  · rw [cells_addKern]
    exact h.accounts.take h₀ hin (if_neg hk)
  · exact (h.shape.update hdata rfl).books rfl rfl rfl
  · exact Entries.books (h.entries.congr rfl) rfl rfl rfl
  · exact Slots.books (h.slots.congr rfl (fun _ _ => rfl) rfl) rfl rfl rfl

/-- A frame just handed out was nobody's. -/
theorem take_fresh (hf : m.findFree = some f) (c : Cell) : b.cells c ≠ some f :=
  (h.accounts.free (findFree_some hf).1).1 c

/-- A kernel owner gives its page back. -/
theorem release (hf : f ∈ b.kern) :
    Inv B tk (m.freePage (frameAddr f)) (b.dropKern f) := by
  refine ⟨?_, ?_, ?_, ?_, h.tasks⟩
  · rw [cells_dropKern]
    exact h.accounts.drop (cells_kern hf)
  · exact (h.shape.congr fun g _ => by simp).books rfl rfl rfl
  · exact (h.entries.congr (by simp)).books rfl rfl rfl
  · exact (h.slots.congr (by simp) (fun _ _ => by simp) (by simp)).books rfl rfl rfl

/-- The entry that maps a kernel owner's page: nobody else refers to the page. -/
theorem mapKern (hf : f ∈ b.kern) (hleg : UserPage i) (hu : m'.nrUnmapped = m.nrUnmapped) :
    Entries B m' ((b.setPte d i (mapEntry f)).setHold d i (some f)) := by
  have hok : EntryOk (mapEntry f) (some f) := by
    have := EntryOk.page (mapped_mapEntry f)
    rwa [frameOf_mapEntry] at this
  refine h.entries.set hok (fun _ => hleg) (by rw [hu]; exact id) (by simp) fun g d' i' hg hh _ => ?_
  obtain rfl : f = g := by simpa using hg
  have hc : b.cells (.pte d' i') = some f := hh
  exact absurd (h.accounts.sole (by trivial) (cells_kern hf) hc) (by simp)

/-- A kernel owner's page, filled, is mapped at an absent entry. -/
theorem install (hf : f ∈ b.kern) (hd : d ∈ b.live) (hleg : UserPage i)
    (hp : present (b.pte d i) = false) (hmem : m'.mem = update₂ m.mem (b.tbl d) i (mapEntry f))
    (hr : m'.ram = m.ram) (hmm : m'.memMap = m.memMap) (hu : m'.nrUnmapped = m.nrUnmapped)
    (hs : Slots m' (b.setPte d i (mapEntry f))) :
    Inv B tk m' ((((b.lose d i).dropKern f).setPte d i (mapEntry f)).setHold d i (some f)) where
  accounts := by
    rw [cells_setHold, cells_setPte, cells_dropKern]
    exact (h.accounts.move (c := .pte d i) (cells_kern hf) (by simp)
      (fun d' i' e => by cases e; exact hd) fun hu => h.entries.fresh hu hd hp).congr hr hmm hu
  shape := (h.shape_setPte hd hmem).books rfl rfl rfl
  entries := (h.mapKern hf hleg hu).books rfl rfl rfl
  slots := hs.books rfl rfl rfl
  tasks := h.tasks

/-- A copy-on-write share is broken: the entry, which the reclaimer may have emptied in the
meantime, maps a kernel owner's page, and its old reference is given back. -/
theorem cowBreak {old : Frame} (hf : f ∈ b.kern) (hd : d ∈ b.live)
    (hleg : UserPage i) (hold : b.hold d i = some old) :
    Inv B tk ((m.setWord (b.tbl d) i (mapEntry f)).freePage (frameAddr old))
      (((b.dropKern f).setPte d i (mapEntry f)).setHold d i (some f)) where
  accounts := by
    have hc : b.cells (.pte d i) = some old := hold
    have h₁ := h.accounts.drop hc
    have hk : update b.cells (.pte d i) none (.kern f) = some f := by
      rw [update_of_ne (by simp)]; exact cells_kern hf
    have h₂ := h₁.move hk (by simp) (fun d' i' e => by cases e; exact hd)
      fun _ => update_self _ _ _
    have hcells : update (update (update b.cells (.pte d i) none)
        (.kern f) none) (.pte d i) (some f) =
        update (update b.cells (.kern f) none) (.pte d i) (some f) := by
      rw [update_comm (show Cell.pte d i ≠ .kern f by simp), update_idem]
    rw [update_self, hcells] at h₂
    rw [cells_setHold, cells_setPte, cells_dropKern, freePage_setWord]
    exact h₂.congr rfl rfl rfl
  shape := (h.shape_setPte hd (by simp [setWord])).books rfl rfl rfl
  entries := (h.mapKern hf hleg (by simp [setWord])).books rfl rfl rfl
  slots := by
    have hic : InCore (b.pte d i) := (h.entries.entry hd i).inCore (.inr (by simp [hold]))
    exact (h.slots.set hic (swapped_mapEntry f) (by simp [setWord]) (slotPage_congr (by simp [setWord]))
      (by simp [setWord])).books rfl rfl rfl
  tasks := h.tasks

/-! ### Sharing -/

/-- An absent entry joins a copy-on-write page mapped at the same index of another table. -/
theorem join (hd : d ∈ b.live) (hd' : d' ∈ b.live)
    (hp : present (b.pte d i) = true) (hc : cow (b.pte d i) = true)
    (hp' : present (b.pte d' i) = false) (hic : InCore (b.pte d' i))
    (hm : Mapped w) (hf : frameOf w = frameOf (b.pte d i)) (hcw : cow w = true) :
    Inv B tk ((m.sharePage (frameOf w)).setWord (b.tbl d') i w)
      (((b.lose d' i).setPte d' i w).setHold d' i (some (frameOf w))) := by
  have hx : b.hold d i = some (frameOf w) := by rw [h.hold_eq hd hp, hf]
  rw [sharePage_eq]
  refine ⟨?_, ?_, ?_, ?_, h.tasks⟩
  · rw [cells_setHold, cells_setPte]
    exact (h.accounts.share hx hd' fun hu => h.entries.fresh hu hd' hp').congr
      rfl rfl rfl
  · exact (h.shape_setPte hd' rfl).books rfl rfl rfl
  · refine Entries.books (h.entries.set (.page hm) (fun _ => h.userPage hd hp) id (fun _ hw => ?_)
      fun g d₁ i₁ hg hh e => ⟨fun _ => hcw, fun hd₁ hp₁ => ?_⟩) rfl rfl rfl
    · rw [hm.present] at hw; cases hw
    · obtain rfl : frameOf w = g := by simpa using hg
      by_cases e₁ : d₁ = d ∧ i₁ = i
      · rw [e₁.1, e₁.2, hc]
      · exact (h.shared hd hp (hf ▸ hh) e₁).2 hd₁ hp₁
  · exact Slots.books (h.slots.set hic hm.inCore rfl rfl rfl) rfl rfl rfl

/-- **One page of a fork.**  Parent and child share the page, and neither may write it. -/
theorem shareEntry (hd : d ∈ b.live) (hd' : d' ∈ b.live) (e : d' ≠ d)
    (hp : present (b.pte d i) = true) (hp' : present (b.pte d' i) = false)
    (hic : InCore (b.pte d' i)) :
    Inv B tk (m.shareEntry (b.tbl d) (b.tbl d') i)
      ((((b.setPte d i (cowEntry (b.pte d i))).lose d' i).setPte d' i
        (cowEntry (b.pte d i))).setHold d' i (some (frameOf (b.pte d i)))) := by
  have hm := (h.mapped hd hp).cowEntry
  have h₁ := h.remark hd hp hm (frameOf_cowEntry _) fun _ => cow_cowEntry _
  have hs : (b.setPte d i (cowEntry (b.pte d i))).pte d i = cowEntry (b.pte d i) := update₂_self
  have ho : (b.setPte d i (cowEntry (b.pte d i))).pte d' i = b.pte d' i :=
    update₂_of_ne fun h => e h.1
  have h₂ := h₁.join hd hd' (by rw [hs]; exact hm.present)
    (by rw [hs, cow_cowEntry]) (by rw [ho, hp']) (by rw [ho]; exact hic) hm (by rw [hs])
    (cow_cowEntry _)
  rw [frameOf_cowEntry] at h₂
  have hsw : m.shareEntry (b.tbl d) (b.tbl d') i =
      ((m.setWord (b.tbl d) i (cowEntry (b.pte d i))).sharePage (frameOf (b.pte d i))).setWord
        (b.tbl d') i (cowEntry (b.pte d i)) := by
    unfold Mm.shareEntry
    rw [h.mem_tbl hd]
    simp only [sharePage_eq]
    rfl
  rw [hsw]
  exact h₂

/-! ### Directories -/

/-- Two kernel pages become an empty address space. -/
theorem addDir {q : Frame} (hd : d ∈ b.kern) (hq : q ∈ b.kern) (e : q ≠ d)
    (hz : m.mem q = zeroPage) (hfew : B.few → b.live.card + 1 < used)
    (hmem : m'.mem = update m.mem d (update kernelPde userPdeIndex (mapEntry q)))
    (hr : m'.ram = m.ram) (hmm : m'.memMap = m.memMap) (hu : m'.nrUnmapped = m.nrUnmapped)
    (hs : m'.swapMap = m.swapMap) (hp : m'.slotPage = m.slotPage) (hw : m'.wentOut = m.wentOut) :
    Inv B tk m' (b.addDir d q) := by
  have hdata := h.data_kern hd
  have hne : ∀ {d'}, d' ∈ b.live → d' ≠ d := fun hd' e => hdata.dir (e ▸ hd')
  have hpte : ∀ {d'}, d' ∈ b.live → (b.addDir d q).pte d' = b.pte d' := fun hd' =>
    update_of_ne (hne hd') _ _
  have htbl : ∀ {d'}, d' ∈ b.live → (b.addDir d q).tbl d' = b.tbl d' := fun hd' =>
    update_of_ne (hne hd') _ _
  have hpd : ∀ i, (b.addDir d q).pte d i = 0#32 := fun i => by simp [Books.addDir]
  have hlive : ∀ {d'}, d' ∈ (b.addDir d q).live → d' = d ∨ d' ∈ b.live := fun h =>
    Finset.mem_insert.mp h
  refine ⟨?_, ⟨fun {d'} hd' => ?_, fun {d'} hd' => ?_, fun {k} hk j => ?_⟩,
    ⟨fun {d'} hd' j => ?_, fun hu' {d' j} hd' hpr => ?_, fun {d₁ i₁ d₂ i₂} hd₁ hp₁ hc₁ hx => ?_,
      fun {d' j} hd' hw => ?_⟩,
    ⟨fun {s} hlt => ?_, fun {s d₁ i₁ d₂ i₂} hlt h₁ h₂ e₁ e₂ => ?_, fun {s d' j} hlt hd' he => ?_⟩,
    fun hn ht => Finset.mem_insert_of_mem (h.tasks hn ht)⟩
  · have h₁ := h.accounts.move (c := .dir d) (cells_kern hd) (by simp) (by simp)
      fun _ => if_neg hdata.dir
    have h₂ := h₁.move (c := .table d)
      (by rw [update_of_ne (by simp), update_of_ne (by simpa using e)]
          exact cells_kern hq) (by simp) (by simp)
      fun _ => by
        rw [update_of_ne (by simp), update_of_ne (by simp)]
        exact if_neg hdata.dir
    have hl₁ : ∀ g, one (b.cells (.dir d)) g = 0 := fun g => by
      rw [show b.cells (.dir d) = none from if_neg hdata.dir, one_none]
    have hl₂ : ∀ g, one (update (update b.cells (.kern d) none) (.dir d) (some d)
        (.table d)) g = 0 := fun g => by
      rw [update_of_ne (by simp), update_of_ne (by simp),
        show b.cells (.table d) = none from if_neg hdata.dir, one_none]
    simp only [hl₁, hl₂, Nat.add_zero] at h₂
    rw [update_comm (show Cell.dir d ≠ .kern q by simp)] at h₂
    rw [cells_addDir, cells_dropKern, cells_dropKern]
    exact (h₂.enlive hfew).congr hr hmm hu
  · rcases hlive hd' with rfl | hd'
    · rw [hmem, update_self]; simp [addDir]
    · rw [hmem, update_of_ne (hne hd'), htbl hd']; exact h.shape.dir hd'
  · rcases hlive hd' with rfl | hd'
    · have : (b.addDir d' q).tbl d' = q := update_self _ _ _
      rw [this, hmem, update_of_ne e, hz]
      funext j
      exact (hpd j).symm
    · rw [htbl hd', hpte hd', hmem, update_of_ne (hdata.table d' hd')]
      exact h.shape.table hd'
  · rw [hmem, update_of_ne (hdata.kernel k hk)]; exact h.shape.kernel hk j
  · rcases hlive hd' with rfl | hd'
    · rw [hpd]; exact .empty
    · rw [hpte hd']; exact h.entries.entry hd' j
  · rcases hlive hd' with rfl | hd'
    · exact h.accounts.dead hdata.dir
    · rw [hpte hd'] at hpr; exact h.entries.fresh (hu ▸ hu') hd' hpr
  · rcases hlive hd₁ with rfl | hd₁
    · rw [hpd] at hp₁; simp at hp₁
    · rw [hpte hd₁] at hp₁ hc₁ hx; exact h.entries.own hd₁ hp₁ hc₁ hx
  · rcases hlive hd' with rfl | hd''
    · exact absurd (hpd j) hw
    · rw [hpte hd''] at hw
      exact h.entries.legal hd'' hw
  · rw [hs, h.slots.taken hlt]
    constructor
    · rintro ⟨d', hd', j, he⟩
      exact ⟨d', Finset.mem_insert_of_mem hd', j, by rw [hpte hd', he]⟩
    · rintro ⟨d', hd', j, he⟩
      rcases hlive hd' with rfl | hd'
      · rw [hpd] at he; exact absurd he.symm (swapEntry_ne_zero s)
      · exact ⟨d', hd', j, by rw [← hpte hd', he]⟩
  · rcases hlive h₁ with rfl | h₁
    · rw [hpd] at e₁; exact absurd e₁.symm (swapEntry_ne_zero s)
    rcases hlive h₂ with rfl | h₂
    · rw [hpd] at e₂; exact absurd e₂.symm (swapEntry_ne_zero s)
    · rw [hpte h₁] at e₁; rw [hpte h₂] at e₂; exact h.slots.unique hlt h₁ h₂ e₁ e₂
  · rcases hlive hd' with rfl | hd'
    · rw [hpd] at he; exact absurd he.symm (swapEntry_ne_zero s)
    · rw [hp, hw, htbl hd']; rw [hpte hd'] at he; exact h.slots.kept hlt hd' he

/-- An address space without pages goes, table and directory. -/
theorem dropDir {tk' : TaskTable} (hd : d ∈ b.live)
    (hz : ∀ i, b.pte d i = 0#32) (hx : ∀ i, b.hold d i = none)
    (ht : ∀ {n t d'}, tk' n = some t → t.pgDir = some d' → d' ∈ b.live.erase d)
    (hmem : m'.mem = update₂ m.mem d userPdeIndex 0#32) (hr : m'.ram = m.ram)
    (hmm : m'.memMap = ((m.freePage (frameAddr (b.tbl d))).freePage (frameAddr d)).memMap)
    (hu : m'.nrUnmapped = m.nrUnmapped) (hs : m'.swapMap = m.swapMap)
    (hp : m'.slotPage = m.slotPage) (hw : m'.wentOut = m.wentOut) :
    Inv B tk' m' (b.dropDir d) := by
  have hlive : ∀ {d'}, d' ∈ (b.dropDir d).live → d' ≠ d ∧ d' ∈ b.live := fun h =>
    Finset.mem_erase.mp h
  refine ⟨?_, ⟨fun {d'} hd' => ?_, fun {d'} hd' => ?_, fun {k} hk j => ?_⟩,
    ⟨fun hd' => h.entries.entry (hlive hd').2, fun hu' {_ _} hd' => h.entries.fresh (hu ▸ hu') (hlive hd').2,
      fun hd' => h.entries.own (hlive hd').2, fun hd' => h.entries.legal (hlive hd').2⟩,
    ⟨fun {s} hlt => ?_, fun hlt h₁ h₂ => h.slots.unique hlt (hlive h₁).2 (hlive h₂).2,
      fun {s d' j} hlt hd' he => ?_⟩, ht⟩
  · have h₁ := h.accounts.drop (cells_table hd)
    have h₂ := h₁.drop (c := .dir d)
      (by rw [update_of_ne (by simp)]; exact cells_dir hd)
    rw [cells_dropDir]
    refine (h₂.bury fun i => ?_).congr (by simp [hr]) hmm (by simp [hu])
    rw [update_of_ne (by simp), update_of_ne (by simp)]
    exact hx i
  · rw [hmem, update₂_of_ne_left (hlive hd').1]
    exact h.shape.dir (hlive hd').2
  · show m'.mem (b.tbl d') = b.pte d'
    rw [hmem, update₂_of_ne_left (h.tbl_ne_dir (hlive hd').2 hd)]
    exact h.shape.table (hlive hd').2
  · have : kernelTable k ≠ d := fun e =>
      (h.accounts.held (cells_dir hd)).2 (e ▸ B.kernel k hk)
    rw [hmem, update₂_of_ne_left this]
    exact h.shape.kernel hk j
  · rw [hs, h.slots.taken hlt]
    constructor
    · rintro ⟨d', hd', j, he⟩
      refine ⟨d', Finset.mem_erase.mpr ⟨fun e => ?_, hd'⟩, j, he⟩
      subst e
      rw [hz] at he
      exact swapEntry_ne_zero s he.symm
    · rintro ⟨d', hd', j, he⟩
      exact ⟨d', (hlive hd').2, j, he⟩
  · rw [hp, hw]
    exact h.slots.kept hlt (hlive hd').2 he

/-! ### Tearing down an entry -/

/-- Whatever an entry is, its page or its slot is given back and the entry emptied. -/
protected theorem freeEntry (hd : d ∈ b.live) :
    ∃ b', Inv B tk (freeEntry (b.tbl d) m i) b' ∧ b.SameSpaces b' ∧
      b'.pte = update₂ b.pte d i 0#32 ∧ b'.hold = update₂ b.hold d i none := by
  unfold freeEntry
  rw [h.mem_tbl hd]
  simp only
  by_cases hp : present (b.pte d i) = true
  · rw [if_pos hp]
    refine ⟨_, h.drop hd hp (by simp [setWord]) (by simp [setWord]) rfl
      (by simp [setWord]) .empty ?_, ⟨rfl, rfl, rfl⟩, rfl, rfl⟩
    exact h.slots.set (h.mapped hd hp).inCore swapped_zero (by simp [setWord])
      (slotPage_congr (by simp [setWord])) (by simp [setWord])
  rw [if_neg hp]
  replace hp : present (b.pte d i) = false := by simpa using hp
  by_cases hs : swapped (b.pte d i) = true
  · rw [if_pos hs]
    obtain ⟨s, hlt, he, hx⟩ := (h.entries.entry hd i).of_swapped hp hs
    rw [he, swapSlot_swapEntry hlt, swapFreeSlot_of_lt hlt]
    refine ⟨(b.setPte d i 0#32).setHold d i none, ⟨?_, (h.shape_setPte hd rfl).books rfl rfl rfl,
      h.entries.set .empty (absurd rfl) id (fun _ _ => rfl) (fun _ _ _ hx => by cases hx), ?_, h.tasks⟩,
      ⟨rfl, rfl, rfl⟩, rfl, rfl⟩
    · rw [← hx, setHold_eq_self]
      exact h.accounts.congr rfl rfl rfl
    · exact Slots.books (h.slots.clear hd hlt he swapped_zero rfl rfl rfl) rfl rfl rfl
  · rw [if_neg hs]
    -- an empty entry whose cell still refers to a page loses the reference for good
    have he := (h.entries.entry hd i).of_absent hp (by simpa using hs)
    refine ⟨((b.lose d i).setPte d i 0#32).setHold d i none, ⟨?_,
      (h.shape_setPte hd rfl).books rfl rfl rfl, ?_, ?_, h.tasks⟩, ⟨rfl, rfl, rfl⟩, rfl, rfl⟩
    · rw [cells_setHold]
      exact (h.accounts.forget (c := .pte d i) fun hu => h.entries.fresh hu hd hp).congr rfl rfl rfl
    · exact Entries.books (h.entries.set .empty (absurd rfl) id (fun _ _ => rfl)
        fun _ _ _ hx => by cases hx) rfl rfl rfl
    · exact Slots.books (h.slots.set (by rw [he]; exact swapped_zero)
        swapped_zero rfl rfl rfl) rfl rfl rfl

end

end Inv

end Linux001
