import Linux001.Mm.History
import Linux001.Mm.InvOps

/-!
# Mm — what a process sees

`Mm.page` is the page that an entry maps, as its process sees it.  For every function that
touches an address space, this module says what becomes of the pages of all live address spaces
when the allocator finds a free frame each time: a fault gives one page a frame of its own with
the contents it had (`Wrote`), a copy gives the new table the pages of the old one, and nothing
else changes.

Otherwise the function was `Pressed`: too few frames were free and the allocator had to reclaim.
-/

namespace Linux001

open Function Mm

variable {B : Boot} {tk : TaskTable} {m m' m₁ m₂ : Mm} {b b' : Books}
variable {d d' f pt : Frame} {i : Ix} {p q : Page} {addr err : Word} {t : Task}
  {k : ℕ} {a : Access} {user wp : Bool}

/-- The page that entry `i` of the table `pt` maps. -/
def Mm.page (m : Mm) (pt : Frame) (i : Ix) : Option Page :=
  if present (m.mem pt i) then some (m.mem (frameOf (m.mem pt i))) else none

/-- No page of a live address space is out on the swap device. -/
def Plain (b : Books) (m : Mm) : Prop := ∀ d ∈ b.live, ∀ i, swapped (m.mem (b.tbl d) i) = false

/-- Page `i` of `d` holds `p`, and every other page of a live address space what it held. -/
structure Wrote (b : Books) (d : Frame) (i : Ix) (p : Page) (m m' : Mm) : Prop where
  page : m'.page (b.tbl d) i = some p
  others : ∀ {d' i'}, d' ∈ b.live → ¬ (d' = d ∧ i' = i) → m'.page (b.tbl d') i' = m.page (b.tbl d') i'
  plain : Plain b m → Plain b m'

/-- No reclaim on the way from `m` to `m'`, and at most `k` frames taken. -/
structure Calls (k : ℕ) (m m' : Mm) : Prop where
  counts : SameCounts m m'
  room : m.countFreePages ≤ m'.countFreePages + k

theorem Calls.of_eq (hc : SameCounts m m') (hm : m'.memMap = m.memMap) : Calls 0 m m' :=
  ⟨hc, countFreePages_mono hc.ram fun f hf => by rw [hm, hf]⟩

theorem Calls.take (f : Frame) : Calls 1 m (m.takeFrame f) :=
  ⟨⟨rfl, rfl, rfl, rfl, rfl⟩, countFreePages_takeFrame⟩

theorem Calls.then_eq (h : Calls k m m₁) (hc : SameCounts m₁ m₂)
    (hm : m₂.memMap = m₁.memMap) : Calls k m m₂ :=
  ⟨h.counts.trans hc, h.room.trans (Nat.add_le_add_right (Calls.of_eq hc hm).room k)⟩

theorem Calls.then_free (h : Calls k m m₁) (a : Word) : Calls k m (m₁.freePage a) :=
  ⟨h.counts.trans (m₁.freePage_counts a), h.room.trans (Nat.add_le_add_right (countFreePages_freePage a) k)⟩

theorem Calls.trans {j : ℕ} (h : Calls k m m₁) (h' : Calls j m₁ m₂) : Calls (k + j) m m₂ :=
  ⟨h.counts.trans h'.counts, by have := h.room; have := h'.room; omega⟩

theorem Calls.mono {j : ℕ} (h : Calls k m m') (hle : k ≤ j) : Calls j m m' :=
  ⟨h.counts, h.room.trans (by omega)⟩

/-- The pages of a directory. -/
def Mm.pages (m : Mm) (d : Frame) : Ix → Option Page := fun i =>
  (m.userPt (some d)).bind fun pt => m.page pt i

theorem Inv.pages_eq (h : Inv B tk m b) (hd : d ∈ b.live) : m.pages d = m.page (b.tbl d) := by
  funext i
  simp [pages, h.userPt_eq hd]

theorem Mm.page_sameEntry (he : SameEntry (m.mem pt i) (m'.mem pt i))
    (hm : present (m.mem pt i) = true → m'.mem (frameOf (m.mem pt i)) = m.mem (frameOf (m.mem pt i))) :
    m'.page pt i = m.page pt i := by
  unfold page
  rw [he.present, he.frame]
  split
  · next hp => rw [hm hp]
  · rfl

theorem Mm.page_isSome : (m.page pt i).isSome = present (m.mem pt i) := by
  unfold page
  split
  · next hp => rw [hp]; rfl
  · next hp => rw [Bool.eq_false_iff.mpr hp]; rfl

theorem Mm.page_congr (he : m'.mem pt i = m.mem pt i)
    (hm : present (m.mem pt i) = true → m'.mem (frameOf (m.mem pt i)) = m.mem (frameOf (m.mem pt i))) :
    m'.page pt i = m.page pt i := Mm.page_sameEntry (he ▸ .refl _) hm

theorem Wrote.trans (h : Wrote b d i p m m₁) (h' : Wrote b d i q m₁ m₂) : Wrote b d i q m m₂ :=
  ⟨h'.page, fun hd e => (h'.others hd e).trans (h.others hd e), fun hp => h'.plain (h.plain hp)⟩

theorem Wrote.of_spaces (hs : b.SameSpaces b') (h : Wrote b' d i p m m') : Wrote b d i p m m' := by
  obtain ⟨h₁, h₂, h₃⟩ := h
  unfold Plain at h₃
  rw [hs.tbl] at h₁ h₂ h₃
  rw [hs.live] at h₂ h₃
  exact ⟨h₁, h₂, h₃⟩

namespace Inv

/-- Frames that no entry and no table refers to may change. -/
theorem page_frame (h : Inv B tk m b) (hd : d ∈ b.live)
    (hm : ∀ g, (∃ c, (∀ d', c ≠ .dir d') ∧ (∀ f, c ≠ .kern f) ∧ b.cells c = some g) → m'.mem g = m.mem g) :
    m'.page (b.tbl d) i = m.page (b.tbl d) i ∧ m'.mem (b.tbl d) = m.mem (b.tbl d) := by
  have ht := hm (b.tbl d) ⟨.table d, by simp, by simp, Books.cells_table hd⟩
  refine ⟨page_congr (by rw [ht]) fun hp => hm _ ⟨.pte d i, by simp, by simp, ?_⟩, ht⟩
  rw [h.mem_tbl hd] at hp ⊢
  exact h.hold_eq hd hp

/-- An entry is pointed at a free frame, filled with `p`. -/
theorem wrote_install (h : Inv B tk m b) (hd : d ∈ b.live) (hf : m.findFree = some f)
    (he : m'.mem (b.tbl d) i = mapEntry f) (hp : m'.mem f = p)
    (hm : ∀ g j, g ≠ f → ¬ (g = b.tbl d ∧ j = i) → m'.mem g j = m.mem g j) :
    Wrote b d i p m m' := by
  have hfresh := h.take_fresh hf
  have ht : ∀ {d'}, d' ∈ b.live → b.tbl d' ≠ f := fun {d'} hd' e =>
    hfresh (.table d') (by rw [Books.cells_table hd', e])
  have hentry : ∀ {d' i'}, d' ∈ b.live → ¬ (d' = d ∧ i' = i) →
      m'.mem (b.tbl d') i' = m.mem (b.tbl d') i' := fun hd' e =>
    hm _ _ (ht hd') fun e' => e ⟨h.tbl_inj hd' hd e'.1, e'.2⟩
  refine ⟨?_, fun {d' i'} hd' e => page_congr (hentry hd' e) fun hp' => ?_, fun hpl d' hd' i' => ?_⟩
  · unfold page
    rw [he, present_mapEntry, frameOf_mapEntry, hp]
    rfl
  · rw [h.mem_tbl hd'] at hp' ⊢
    have hold := h.hold_eq hd' hp'
    have e₁ : frameOf (b.pte d' i') ≠ f := fun e => hfresh (.pte d' i') (e ▸ hold)
    have e₂ : frameOf (b.pte d' i') ≠ b.tbl d := fun e => (h.data_hold hold).table d hd e.symm
    funext j
    exact hm _ _ e₁ fun e => e₂ e.1
  · by_cases e : d' = d ∧ i' = i
    · rw [e.1, e.2, he, swapped_mapEntry]
    · rw [hentry hd' e]
      exact hpl d' hd' i'

end Inv

/-! ### An access through a present entry -/

/-- The byte an access reads or writes, and the page after it. -/
def Access.apply (a : Access) (p : Page) : Byte × Page :=
  match a with
  | .load addr => (getByte p (pageOffset addr), p)
  | .store addr v => (v, setByte p (pageOffset addr) v)

/-- The access itself.  A page that may be written is mapped nowhere else. -/
theorem Inv.perform_wrote (h : Inv B tk m b) (hl : d ∈ b.live) (hp : present (b.pte d i) = true)
    (a : Access) (hw : a.write = true → cow (b.pte d i) = false) :
    (m.perform (b.tbl d) i a).1 = (a.apply (m.mem (frameOf (b.pte d i)))).1 ∧
      Wrote b d i (a.apply (m.mem (frameOf (b.pte d i)))).2 m (m.perform (b.tbl d) i a).2 ∧
      Calls 0 m (m.perform (b.tbl d) i a).2 := by
  have hold := h.hold_eq hl hp
  have hft : frameOf (b.pte d i) ≠ b.tbl d := fun e => (h.data_hold hold).table d hl e.symm
  -- the frame of another entry is not a table
  have hft' : ∀ {d' i'}, d' ∈ b.live → present (b.pte d' i') = true →
      frameOf (b.pte d' i') ≠ b.tbl d := fun hd' hp' e =>
    (h.data_hold (h.hold_eq hd' hp')).table d hl e.symm
  cases a with
  | load addr =>
    simp only [Mm.perform, Access.apply, h.mem_tbl hl]
    have hs := sameEntry_access (b.pte d i)
    refine ⟨trivial, ⟨?_, fun {d' i'} hd' e => ?_, fun hpl d' hd' i' => ?_⟩, .of_eq ⟨rfl, rfl, rfl, rfl, rfl⟩ rfl⟩
    · unfold Mm.page
      rw [Mm.setWord_same, hs.present, hp, hs.frame, Mm.setWord_of_ne hft]
      rfl
    · refine Mm.page_congr (Mm.setWord_of_not fun e' => e ⟨h.tbl_inj hd' hl e'.1, e'.2⟩) fun hp' => ?_
      rw [h.mem_tbl hd'] at hp' ⊢
      exact Mm.setWord_of_ne (hft' hd' hp')
    · by_cases e : b.tbl d' = b.tbl d ∧ i' = i
      · rw [e.1, e.2, Mm.setWord_same, hs.swapped]
        exact (h.mapped hl hp).inCore
      · rw [Mm.setWord_of_not e]
        exact hpl d' hd' i'
  | store addr v =>
    simp only [Mm.perform, Access.apply, h.mem_tbl hl]
    have hs := (sameEntry_access (b.pte d i)).trans (sameEntry_dirty _)
    have hc := hw rfl
    have htf : ∀ {d'}, d' ∈ b.live → b.tbl d' ≠ frameOf (b.pte d i) := fun hd' =>
      (h.data_hold hold).table _ hd'
    refine ⟨trivial, ⟨?_, fun {d' i'} hd' e => ?_, fun hpl d' hd' i' => ?_⟩, .of_eq ⟨rfl, rfl, rfl, rfl, rfl⟩ rfl⟩
    · unfold Mm.page
      rw [Mm.setPage_of_ne (htf hl), Mm.setWord_same, hs.present, hp, hs.frame, Mm.setPage_same, Mm.setWord_of_ne hft]
      rfl
    · have e' : ¬ (b.tbl d' = b.tbl d ∧ i' = i) := fun e' => e ⟨h.tbl_inj hd' hl e'.1, e'.2⟩
      refine Mm.page_congr (by rw [Mm.setPage_of_ne (htf hd'), Mm.setWord_of_not e']) fun hp' => ?_
      rw [h.mem_tbl hd'] at hp' ⊢
      -- not copy-on-write, so nobody else maps the frame
      have hne : frameOf (b.pte d' i') ≠ frameOf (b.pte d i) := fun he =>
        e (h.entries.own hl hp hc (by rw [h.hold_eq hd' hp', he]))
      rw [Mm.setPage_of_ne hne, Mm.setWord_of_ne (hft' hd' hp')]
    · rw [Mm.setPage_of_ne (htf hd')]
      by_cases e : b.tbl d' = b.tbl d ∧ i' = i
      · rw [e.1, e.2, Mm.setWord_same, hs.swapped]
        exact (h.mapped hl hp).inCore
      · rw [Mm.setWord_of_not e]
        exact hpl d' hd' i'

/-! ### Faults -/

namespace Inv

/-- Outside the user window nothing is handled. -/
theorem doNoPage_outside (fs : FsView) (h : Inv B tk m b) (hd : t.pgDir = some d) (hl : d ∈ b.live)
    (hx : pdeIx addr ≠ userPdeIndex) : doNoPage fs tk t m err addr = (false, m) := by
  unfold doNoPage
  simp only [hd]
  by_cases hpe : present err = true
  · rw [if_pos hpe]
    by_cases hwe : writable err = true
    · rw [if_pos hwe]
      cases hs : m.pteSlot d addr with
      | none => rfl
      | some p =>
        obtain ⟨pt, i⟩ := p
        exact if_neg fun hc => hx (h.pteSlot_cow hl hs hc).1
    · rw [if_neg hwe]
  · rw [if_neg hpe, if_neg fun ha => hx (pdeIx_of_userAddrOk ha)]

/-- A store to a copy-on-write page. -/
theorem doNoPage_cow (fs : FsView) (h : Inv B tk m b) (hd : t.pgDir = some d) (hl : d ∈ b.live)
    (hx : pdeIx addr = userPdeIndex) (hp : present (b.pte d (pteIx addr)) = true)
    (hc : cow (b.pte d (pteIx addr)) = true) :
    (∃ f m', doNoPage fs tk t m (faultCode true true user) addr = (true, m') ∧
      m'.mem (b.tbl d) (pteIx addr) = mapEntry f ∧ Calls 1 m m' ∧
      Wrote b d (pteIx addr) (m.mem (frameOf (b.pte d (pteIx addr)))) m m') ∨
    Pressed 1 m (doNoPage fs tk t m (faultCode true true user) addr).2 := by
  have hpe : present (faultCode true true user) = true := present_faultCode _ _ _
  have hwe : writable (faultCode true true user) = true := by cases user <;> decide
  unfold doNoPage
  simp only [hd, hpe, hwe, if_true, h.shape.pteSlot_user hl hx, h.mem_tbl hl, hc]
  unfold unWpPage
  simp only [h.shape.pteSlot_user hl hx, h.mem_tbl hl, hp, if_true]
  generalize pteIx addr = i at hp hc
  have hold := h.hold_eq hl hp
  rcases getFreePage_cases tk m with ⟨f, hf, e⟩ | hlt
  · simp only [e]
    have hfresh := h.take_fresh hf
    have hfo : frameOf (b.pte d i) ≠ f := fun e => hfresh (.pte d i) (e ▸ hold)
    have htf : f ≠ b.tbl d := fun e => hfresh (.table d) (by rw [Books.cells_table hl, e])
    have hold' : (m.takeFrame f).mem (frameOf (b.pte d i)) = m.mem (frameOf (b.pte d i)) :=
      update_of_ne hfo _ _
    rw [hold']
    have hk : Calls 1 m (((m.takeFrame f).setPage f (m.mem (frameOf (b.pte d i)))).setWord
        (b.tbl d) i (mapEntry f)) := ⟨⟨rfl, rfl, rfl, rfl, rfl⟩, countFreePages_takeFrame⟩
    refine .inl ⟨f, _, rfl, by simp, hk.then_free _,
      h.wrote_install hl hf (by simp) (by simp [setWord_of_ne htf]) fun g j hg e => ?_⟩
    rw [freePage_mem, setWord_of_not e, setPage_of_ne hg]
    exact congrFun (update_of_ne hg _ _) j
  · right
    generalize getFreePage tk m = r at hlt
    obtain ⟨_ | f, m₁⟩ := r
    · exact hlt
    · exact hlt.mono (by simp [Mm.setWord, Mm.setPage])

/-- A page that is not there. -/
theorem doNoPage_missing (fs : FsView) (h : Inv B tk m b) (hpl : Plain b m) (hd : t.pgDir = some d)
    (hl : d ∈ b.live) (ha : userAddrOk addr 1#32 = true) {write : Bool} :
    (∃ f m', doNoPage fs tk t m (faultCode false write user) addr = (true, m') ∧
      m'.mem (b.tbl d) (pteIx addr) = mapEntry f ∧ Calls 1 m m' ∧
      Wrote b d (pteIx addr) (demandFill fs t (pageBase addr) zeroPage) m m') ∨
    Pressed 1 m (doNoPage fs tk t m (faultCode false write user) addr).2 := by
  have hpe : present (faultCode false write user) = false := present_faultCode _ _ _
  have hx := pdeIx_of_userAddrOk ha
  have hx' : pdeIx (pageBase addr) = userPdeIndex := by rw [pdeIx_pageBase, hx]
  have hs : swapped (b.pte d (pteIx addr)) = false := by rw [← h.mem_tbl hl]; exact hpl d hl _
  unfold doNoPage
  simp only [hd, hpe, Bool.false_eq_true, if_false, ha, if_true]
  unfold missingPage
  simp only [h.shape.pteSlot_user hl hx', pteIx_pageBase, h.mem_tbl hl, hs, Bool.false_eq_true, false_and, if_false]
  unfold demandFault
  rcases getFreePage_cases tk m with ⟨f, hf, e⟩ | hlt
  · simp only [e]
    have hfresh := h.take_fresh hf
    have htf : f ≠ b.tbl d := fun e => hfresh (.table d) (by rw [Books.cells_table hl, e])
    have hz : (m.takeFrame f).mem f = zeroPage := by simp [takeFrame]
    have hshape : Shape B ((m.takeFrame f).setPage f (demandFill fs t (pageBase addr) zeroPage))
        (b.addKern f) := (h.take hf).shape.update ((h.take hf).data_kern (Finset.mem_insert_self _ _)) rfl
    rw [hz, hshape.mapUserPage hl hx', pteIx_pageBase]
    refine .inl ⟨f, _, rfl, setWord_same, Calls.then_eq (.take f) ⟨rfl, rfl, rfl, rfl, rfl⟩ rfl,
      h.wrote_install hl hf setWord_same ?_ fun g j hg e => ?_⟩
    · show (setWord _ (b.tbl d) _ _).mem f = _
      rw [setWord_of_ne htf, setPage_same]
    · show (setWord _ (b.tbl d) _ _).mem g j = _
      rw [setWord_of_not e, setPage_of_ne hg]
      exact congrFun (update_of_ne hg _ _) j
  · right
    generalize getFreePage tk m = r at hlt
    obtain ⟨_ | f, m₁⟩ := r
    · exact hlt
    · exact hlt.mono (by rw [(mapUserPage_counts _ _ _ _).nrReclaims]; rfl)

end Inv

/-! ### Loads and stores -/

/-- The page an access at `addr` meets, in an address space with the pages `v`: the one mapped
there, or the one a first touch brings in. -/
def touched (fs : FsView) (t : Task) (v : Ix → Option Page) (addr : Word) : Option Page :=
  if pdeIx addr = userPdeIndex then
    match v (pteIx addr) with
    | some p => some p
    | none =>
      if userAddrOk addr 1#32 then some (demandFill fs t (pageBase addr) zeroPage) else none
  else none

namespace Inv

/-- An access through a page of its own. -/
theorem cpuAccess_own (wp : Bool) (fs : FsView) (h : Inv B tk m b)
    (hd : t.pgDir = some d) (hl : d ∈ b.live) (hx : pdeIx a.addr = userPdeIndex)
    (hp : present (b.pte d (pteIx a.addr)) = true)
    (hw : a.write = true → cow (b.pte d (pteIx a.addr)) = false) (k : ℕ) :
    ∃ m', cpuAccess fs tk t wp true a (k + 1) m =
        (.done (a.apply (m.mem (frameOf (b.pte d (pteIx a.addr))))).1, m') ∧
      Wrote b d (pteIx a.addr) (a.apply (m.mem (frameOf (b.pte d (pteIx a.addr))))).2 m m' ∧
      Calls 0 m m' := by
  have hwalk : m.walk wp d a.addr a.write true = .ok (b.tbl d, pteIx a.addr) := by
    rw [h.walk_user wp a.write true hl hx, if_pos hp, if_neg]
    rintro ⟨hwr, -, hn⟩
    rw [(h.mapped hl hp).rw, hw hwr] at hn
    exact hn rfl
  obtain ⟨h₁, h₂, h₃⟩ := h.perform_wrote hl hp a hw
  exact ⟨_, by simp only [cpuAccess, hd, hwalk, h₁], h₂, h₃⟩

/-- The handler has given the entry a page of its own: the access goes through. -/
theorem cpuAccess_retry (fs : FsView) (h : Inv B tk m b)
    (hd : t.pgDir = some d) (hl : d ∈ b.live) (hx : pdeIx a.addr = userPdeIndex)
    (hwalk : m.walk wp d a.addr a.write true = .error err)
    (herr : present err = false → present (b.pte d (pteIx a.addr)) = false)
    (hno : doNoPage fs tk t m err a.addr = (true, m₁))
    (he : m₁.mem (b.tbl d) (pteIx a.addr) = mapEntry f) (hc : Calls 1 m m₁)
    (hw : Wrote b d (pteIx a.addr) p m m₁) :
    ∃ m', cpuAccess fs tk t wp true a 2 m = (.done (a.apply p).1, m') ∧
      Wrote b d (pteIx a.addr) (a.apply p).2 m m' ∧ Calls 1 m m' := by
  obtain ⟨⟨⟨b₁, h₁, hs₁⟩, -⟩, -⟩ := h.doNoPage fs hd hl fun e _ => herr e
  rw [hno] at h₁
  have hl₁ : d ∈ b₁.live := hs₁.live ▸ hl
  have he₁ : b₁.pte d (pteIx a.addr) = mapEntry f := by rw [← h₁.mem_tbl hl₁, hs₁.tbl, he]
  have hp : m₁.mem f = p := by
    have := hw.page
    unfold page at this
    rw [he, present_mapEntry, frameOf_mapEntry] at this
    simpa using this
  obtain ⟨m', e', hw', hc'⟩ := h₁.cpuAccess_own wp fs hd hl₁ hx
    (by rw [he₁, present_mapEntry]) (fun _ => by rw [he₁, cow_mapEntry]) 0
  rw [he₁, frameOf_mapEntry, hp] at e' hw'
  refine ⟨m', ?_, hw.trans (hw'.of_spaces hs₁), hc.trans hc'⟩
  simp only [cpuAccess, hd, hwalk, hno] at e' ⊢
  exact e'

/-- **A load or store in Ring3**, when a free frame is there: the process is killed without
further ado, or it gets the byte and only its own page has changed. -/
theorem cpuAccess_calm (fs : FsView) (h : Inv B tk m b) (hpl : Plain b m)
    (hd : t.pgDir = some d) (hl : d ∈ b.live)
    (hc : ¬ Pressed 1 m (cpuAccess fs tk t wp true a 2 m).2) :
    (touched fs t (m.page (b.tbl d)) a.addr = none ∧ cpuAccess fs tk t wp true a 2 m = (.killed, m)) ∨
    (∃ p m', touched fs t (m.page (b.tbl d)) a.addr = some p ∧
      cpuAccess fs tk t wp true a 2 m = (.done (a.apply p).1, m') ∧
      Wrote b d (pteIx a.addr) (a.apply p).2 m m' ∧ Calls 1 m m') := by
  have hfault : ∀ {err}, m.walk wp d a.addr a.write true = .error err →
      ¬ Pressed 1 m (doNoPage fs tk t m err a.addr).2 := by
    intro err hwalk hlt
    refine hc (hlt.mono ?_)
    simp only [cpuAccess, hd, hwalk]
    generalize doNoPage fs tk t m err a.addr = r
    obtain ⟨_ | _, m₁⟩ := r
    · exact le_rfl
    · have := (cpuAccess_acts fs tk t wp true a 1 m₁).keeps.nrReclaims
      simpa only [cpuAccess, hd] using this
  have hkill : ∀ {err}, m.walk wp d a.addr a.write true = .error err →
      doNoPage fs tk t m err a.addr = (false, m) →
      cpuAccess fs tk t wp true a 2 m = (.killed, m) := fun hwalk hno => by
    simp only [cpuAccess, hd, hwalk, hno]
  unfold touched
  by_cases hx : pdeIx a.addr = userPdeIndex
  · rw [if_pos hx]
    have hwalk := h.walk_user wp a.write true hl hx
    unfold page
    rw [h.mem_tbl hl]
    by_cases hp : present (b.pte d (pteIx a.addr)) = true
    · rw [if_pos hp]
      refine .inr ⟨m.mem (frameOf (b.pte d (pteIx a.addr))), ?_⟩
      by_cases hw : a.write = true ∧ cow (b.pte d (pteIx a.addr)) = true
      · rw [if_pos hp, if_pos ⟨hw.1, .inl rfl, by rw [(h.mapped hl hp).rw, hw.2]; simp⟩, hw.1] at hwalk
        rcases h.doNoPage_cow fs hd hl hx hp hw.2 with ⟨f, m₁, hno, he, hc₁, hw₁⟩ | hlt
        · obtain ⟨m', e'⟩ := h.cpuAccess_retry fs hd hl hx (by rw [hw.1]; exact hwalk)
            (by rw [present_faultCode]; simp) hno he hc₁ hw₁
          exact ⟨m', rfl, e'⟩
        · exact absurd hlt (hfault (by rw [hw.1]; exact hwalk))
      · obtain ⟨m', e'⟩ := h.cpuAccess_own wp fs hd hl hx hp
          (fun hwr => by simpa using fun hc => hw ⟨hwr, hc⟩) 1
        exact ⟨m', rfl, e'.1, e'.2.1, e'.2.2.mono (Nat.zero_le 1)⟩
    · rw [if_neg hp] at hwalk ⊢
      have hp' : present (b.pte d (pteIx a.addr)) = false := by simpa using hp
      by_cases ha : userAddrOk a.addr 1#32 = true
      · rw [if_pos ha]
        refine .inr ⟨demandFill fs t (pageBase a.addr) zeroPage, ?_⟩
        rcases h.doNoPage_missing fs hpl hd hl ha with ⟨f, m₁, hno, he, hc₁, hw₁⟩ | hlt
        · obtain ⟨m', e'⟩ := h.cpuAccess_retry fs hd hl hx hwalk (fun _ => hp') hno he hc₁ hw₁
          exact ⟨m', rfl, e'⟩
        · exact absurd hlt (hfault hwalk)
      · rw [if_neg ha]
        refine .inl ⟨rfl, hkill hwalk ?_⟩
        have hpe : present (faultCode false a.write true) = false := present_faultCode _ _ _
        simp only [doNoPage, hd, hpe, Bool.false_eq_true, if_false, ha]
  · rw [if_neg hx]
    obtain ⟨err, hwalk⟩ := h.walk_kernel wp a.write hl hx
    exact .inl ⟨rfl, hkill hwalk (h.doNoPage_outside fs hd hl hx)⟩

end Inv

/-! ### Copying and tearing down -/

/-- `copy_page_tables` when nothing is out on the swap device: every present entry is shared. -/
theorem copyPageTables_plain (tk : TaskTable) {spt dpt : Frame} (hs : m.userPt (some d) = some spt)
    (ht : m.userPt (some d') = some dpt) (e : dpt ≠ spt)
    (hpl : ∀ i, swapped (m.mem spt i) = false)
    (hmap : ∀ i, present (m.mem spt i) = true → m.memMap (frameOf (m.mem spt i)) ≠ 0) :
    ∃ n m', copyPageTables tk m d d' = (some n, m') ∧ Calls 0 m m' ∧ (∀ g, g ≠ spt → g ≠ dpt → m'.mem g = m.mem g) ∧
      ∀ j, (m'.mem spt j = if present (m.mem spt j) then cowEntry (m.mem spt j) else m.mem spt j) ∧
        (m'.mem dpt j = if present (m.mem spt j) then cowEntry (m.mem spt j) else m.mem dpt j) := by
  unfold copyPageTables
  simp only [hs, ht]
  have hl := Loop.foldlM_finRange (Q := fun _ => False)
    (J := fun k (s : ℕ × Mm) =>
      (SameCounts m s.2 ∧ ∀ g, m.memMap g = 0 → s.2.memMap g = 0) ∧
      (∀ g, g ≠ spt → g ≠ dpt → s.2.mem g = m.mem g) ∧
      ∀ j : Ix, (s.2.mem spt j = if j.val < k ∧ present (m.mem spt j) then cowEntry (m.mem spt j)
          else m.mem spt j) ∧
        (s.2.mem dpt j = if j.val < k ∧ present (m.mem spt j) then cowEntry (m.mem spt j)
          else m.mem dpt j))
    (f := copyEntry tk spt dpt) (s := (0, m))
    ⟨⟨⟨rfl, rfl, rfl, rfl, rfl⟩, fun _ => id⟩, fun _ _ _ => rfl, fun j => by simp⟩
    fun i s hJ => ?_
  · generalize (List.finRange 1024).foldlM (copyEntry tk spt dpt) (0, m) = r at hl
    cases hl with
    | error h => exact h.elim
    | @ok s h =>
      obtain ⟨h₁, h₂, h₃⟩ := h
      refine ⟨s.1, s.2, rfl, ⟨h₁.1, countFreePages_mono h₁.1.ram h₁.2⟩, h₂, fun j => ?_⟩
      simpa only [j.isLt, true_and] using h₃ j
  obtain ⟨n, m₁⟩ := s
  obtain ⟨h₁, h₂, h₃⟩ := hJ
  have hi : m₁.mem spt i = m.mem spt i := by rw [(h₃ i).1, if_neg (by omega)]
  have hsw : ¬ (present (m₁.mem spt i) = false ∧ swapped (m₁.mem spt i) = true) := by
    rw [hi, hpl i]; simp
  simp only [copyEntry]
  rw [if_neg hsw]
  refine .ok ?_
  simp only [copyShare, hi]
  split
  · next hp =>
    simp only [shareEntry, sharePage_eq, hi]
    refine ⟨⟨h₁.1.trans ⟨rfl, rfl, rfl, rfl, rfl⟩, fun g hg => ?_⟩, fun g hg hg' => ?_, fun j => ?_⟩
    · -- the count that is raised is not 0
      have e : g ≠ frameOf (m.mem spt i) := fun e => hmap i hp (e ▸ hg)
      exact (Ledger.raise_of_ne e).trans (h₁.2 g hg)
    · rw [setWord_of_ne hg', setWord_of_ne hg]
      exact h₂ g hg hg'
    by_cases ej : j = i
    · subst ej
      rw [setWord_of_ne e.symm, setWord_same, setWord_same]
      simp [hp]
    have hne : j.val ≠ i.val := fun h => ej (Fin.ext h)
    have hlt : j.val < i.val + 1 ↔ j.val < i.val := by omega
    rw [setWord_of_not fun h => ej h.2, setWord_of_not fun h => ej h.2,
      setWord_of_not fun h => ej h.2, setWord_of_not fun h => ej h.2]
    simp only [hlt]
    exact h₃ j
  · next hp =>
    refine ⟨h₁, h₂, fun j => ?_⟩
    by_cases ej : j = i
    · subst ej
      have h₃ := h₃ j
      simp only [hp, Bool.false_eq_true, and_false, if_false] at h₃ ⊢
      exact h₃
    · have hne : j.val ≠ i.val := fun h => ej (Fin.ext h)
      have hlt : j.val < i.val + 1 ↔ j.val < i.val := by omega
      simp only [hlt]
      exact h₃ j

/-- **A copy**, when nothing is out on the swap device: the new space has the pages of the old
one, and no page has changed. -/
theorem Inv.copy_pages (h : Inv B tk m b) (hd : d ∈ b.live) (hd' : d' ∈ b.live) (e : d' ≠ d)
    (hpl : Plain b m) (hz : ∀ i, b.pte d' i = 0#32) :
    ∃ k m', copyPageTables tk m d d' = (some k, m') ∧ Calls 0 m m' ∧
      Plain b m' ∧ (∀ i, m'.page (b.tbl d') i = m.page (b.tbl d) i) ∧
      (∀ {d₁}, d₁ ∈ b.live → d₁ ≠ d' → ∀ i, m'.page (b.tbl d₁) i = m.page (b.tbl d₁) i) ∧
      ∀ i, present (m.mem (b.tbl d) i) = true →
        cow (m'.mem (b.tbl d) i) = true ∧ m'.mem (b.tbl d') i = m'.mem (b.tbl d) i := by
  have htbl : ∀ {d₁ d₂}, d₁ ∈ b.live → d₂ ∈ b.live → d₁ ≠ d₂ → b.tbl d₁ ≠ b.tbl d₂ :=
    fun h₁ h₂ e e' => e (h.tbl_inj h₁ h₂ e')
  obtain ⟨k, m', hr, hc, hm, hent⟩ := copyPageTables_plain tk (h.userPt_eq hd)
    (h.userPt_eq hd') (htbl hd' hd e) (hpl d hd) fun i hp h₀ => by
      rw [h.mem_tbl hd] at hp h₀
      exact (h.accounts.free h₀).1 (.pte d i) (h.hold_eq hd hp)
  -- a mapped frame is not a table, so it keeps its contents
  have hframe : ∀ {d₁ i}, d₁ ∈ b.live → present (b.pte d₁ i) = true →
      m'.mem (frameOf (b.pte d₁ i)) = m.mem (frameOf (b.pte d₁ i)) := fun hd₁ hp =>
    have hdata := h.data_hold (h.hold_eq hd₁ hp)
    hm _ (hdata.table d hd).symm (hdata.table d' hd').symm
  have hother : ∀ {d₁}, d₁ ∈ b.live → d₁ ≠ d → d₁ ≠ d' → m'.mem (b.tbl d₁) = m.mem (b.tbl d₁) :=
    fun hd₁ e₁ e₂ => hm _ (htbl hd₁ hd e₁) (htbl hd₁ hd' e₂)
  -- an entry of either table after the copy shows the page that was at that index
  have hpage : ∀ {pt i}, m'.mem pt i = (if present (b.pte d i) then cowEntry (b.pte d i) else b.pte d i) →
      m'.page pt i = m.page (b.tbl d) i := by
    intro pt i hw
    unfold page
    rw [hw, h.mem_tbl hd]
    by_cases hp : present (b.pte d i) = true
    · rw [if_pos hp, if_pos (by rw [present_cowEntry, hp]), if_pos hp, frameOf_cowEntry, hframe hd hp]
    · rw [if_neg hp, if_neg hp, if_neg hp]
  have hsrc : ∀ i, m'.mem (b.tbl d) i = if present (b.pte d i) then cowEntry (b.pte d i) else b.pte d i := fun i => by
    rw [(hent i).1, h.mem_tbl hd]
  have hdst : ∀ i, m'.mem (b.tbl d') i = if present (b.pte d i) then cowEntry (b.pte d i) else 0#32 := fun i => by
    rw [(hent i).2, h.mem_tbl hd, h.mem_tbl hd', hz]
  refine ⟨k, m', hr, hc, fun d₁ hd₁ i => ?_, fun i => ?_, fun {d₁} hd₁ e₁ i => ?_, fun i hp => ?_⟩
  · have hw : swapped (b.pte d i) = false := by rw [← h.mem_tbl hd]; exact hpl d hd i
    by_cases e₁ : d₁ = d
    · rw [e₁, hsrc]
      split <;> simp [hw]
    by_cases e₂ : d₁ = d'
    · rw [e₂, hdst]
      split <;> simp [hw]
    · rw [hother hd₁ e₁ e₂]
      exact hpl d₁ hd₁ i
  · by_cases hp : present (b.pte d i) = true
    · exact hpage (by rw [hdst, if_pos hp, if_pos hp])
    have h₁ : m'.page (b.tbl d') i = none := by
      unfold page
      rw [hdst, if_neg hp, present_zero]
      rfl
    have h₂ : m.page (b.tbl d) i = none := by
      unfold page
      rw [h.mem_tbl hd, if_neg hp]
    rw [h₁, h₂]
  · by_cases e₂ : d₁ = d
    · rw [e₂]
      exact hpage (hsrc i)
    refine page_congr (by rw [hother hd₁ e₂ e₁]) fun hp => ?_
    rw [h.mem_tbl hd₁] at hp ⊢
    exact hframe hd₁ hp
  · rw [h.mem_tbl hd] at hp
    rw [hsrc, hdst, if_pos hp, if_pos hp, cow_cowEntry]
    exact ⟨rfl, rfl⟩

/-- `alloc_user_pgdir` with two free frames at hand writes to these two only. -/
theorem allocUserPgdir_calm (tk : TaskTable) (m : Mm) :
    (∃ p q m', m.findFree = some p ∧ (m.takeFrame p).findFree = some q ∧
      allocUserPgdir tk m = (some p, m') ∧ Calls 2 m m' ∧ q ≠ p ∧
      ∀ g, g ≠ p → g ≠ q → m'.mem g = m.mem g) ∨
    Pressed 2 m (allocUserPgdir tk m).2 := by
  unfold allocUserPgdir
  rcases getFreePage_cases tk m with ⟨p, hp, e₁⟩ | hlt
  · simp only [e₁]
    rcases getFreePage_cases tk (m.takeFrame p) with ⟨q, hq, e₂⟩ | hlt
    · simp only [e₂]
      have hqp : q ≠ p := fun e => by
        have := (findFree_some hq).1
        rw [e] at this
        simp [takeFrame] at this
      have hz : ((m.takeFrame p).takeFrame q).mem p = zeroPage := by
        show update (update m.mem p zeroPage) q zeroPage p = zeroPage
        rw [update_of_ne hqp.symm, update_self]
      refine .inl ⟨p, q, _, hp, hq, rfl, ?_, hqp, fun g hgp hgq => ?_⟩
      · exact Calls.then_eq ((Calls.take p).trans (.take q)) ⟨rfl, rfl, rfl, rfl, rfl⟩ rfl
      · rw [Inv.putKernelEntries_eq _ hz, setWord_of_ne hgp, setPage_of_ne hgp]
        show update (update m.mem p zeroPage) q zeroPage g = m.mem g
        rw [update_of_ne hgq, update_of_ne hgp]
    · have hroom : m.countFreePages < 2 := by
        have := countFreePages_takeFrame (m := m) (f := p)
        have := hlt.1
        omega
      have hp₂ : Pressed 2 m (getFreePage tk (m.takeFrame p)).2 := ⟨hroom, hlt.2⟩
      right
      generalize getFreePage tk (m.takeFrame p) = r at hp₂
      obtain ⟨_ | q, m₂⟩ := r
      · exact hp₂.mono (freePage_nrReclaims _).ge
      · exact hp₂.mono (m₂.putKernelEntries_counts p).nrReclaims.ge
  · have hp₂ : Pressed 2 m (getFreePage tk m).2 := ⟨hlt.1.trans (by omega), hlt.2⟩
    right
    generalize getFreePage tk m = r at hp₂
    obtain ⟨_ | p, m₁⟩ := r
    · exact hp₂
    have hg := (getFreePage_acts tk m₁).keeps.nrReclaims
    simp only
    generalize getFreePage tk m₁ = r at hg
    obtain ⟨_ | q, m₂⟩ := r
    · exact hp₂.mono (hg.trans (freePage_nrReclaims _).ge)
    · exact hp₂.mono (hg.trans (m₂.putKernelEntries_counts p).nrReclaims.ge)

/-- **A fresh address space**, with two free frames at hand: nothing that is referred to has
changed. -/
theorem Inv.alloc_pages (h : Inv B tk m b) (hfew : ¬ B.few)
    (hc : ¬ Pressed 2 m (allocUserPgdir tk m).2) :
    ∃ p m' b', allocUserPgdir tk m = (some p, m') ∧ Calls 2 m m' ∧
      Inv B tk m' b' ∧ p ∉ b.live ∧ b'.live = insert p b.live ∧ b'.kern = b.kern ∧
      (∀ i, b'.pte p i = 0#32) ∧ ∀ c g, b.cells c = some g → m'.mem g = m.mem g := by
  rcases allocUserPgdir_calm tk m with ⟨p, q, m', hp, hq, e, hc', hqp, hm⟩ | hlt
  · have hq₀ : m.memMap q = 0 := by
      have h₀ : update m.memMap p 1 q = 0 := (findFree_some hq).1
      rwa [update_of_ne hqp] at h₀
    rcases h.allocUserPgdir fun h => absurd h hfew with
      ⟨m₁, b₁, e₁, -⟩ | ⟨d, m₁, b₁, e₁, h₁, hd, hl, hk, hz⟩
    · rw [e] at e₁
      cases e₁
    rw [e] at e₁
    obtain ⟨rfl, rfl⟩ : p = d ∧ m' = m₁ := by simpa using e₁
    refine ⟨p, m', b₁, e, hc', h₁, hd, hl, hk, hz, fun c g hg => hm g (fun eg => ?_) fun eg => ?_⟩
    · exact h.take_fresh hp c (eg ▸ hg)
    · exact (h.accounts.free hq₀).1 c (eg ▸ hg)
  · exact absurd hlt hc

theorem freeEntry_mem (m : Mm) (pt : Frame) (i : Ix) :
    (∀ g, g ≠ pt → (freeEntry pt m i).mem g = m.mem g) ∧ Calls 0 m (freeEntry pt m i) := by
  have hm : ∀ m₁ : Mm, m₁.mem = m.mem → Calls 0 m m₁ → (∀ g, g ≠ pt → (m₁.setWord pt i 0#32).mem g = m.mem g) ∧
        Calls 0 m (m₁.setWord pt i 0#32) := fun m₁ h₁ h₂ =>
    ⟨fun g hg => by rw [setWord_of_ne hg, h₁], h₂.then_eq ⟨rfl, rfl, rfl, rfl, rfl⟩ rfl⟩
  unfold freeEntry
  simp only
  split
  · exact hm _ (freePage_mem _) (Calls.then_free (.of_eq ⟨rfl, rfl, rfl, rfl, rfl⟩ rfl) _)
  split
  · refine hm _ ?_ ?_ <;> unfold swapFreeSlot <;> split
    · rfl
    · rfl
    · exact .of_eq ⟨rfl, rfl, rfl, rfl, rfl⟩ rfl
    · exact .of_eq ⟨rfl, rfl, rfl, rfl, rfl⟩ rfl
  · exact hm _ rfl (.of_eq ⟨rfl, rfl, rfl, rfl, rfl⟩ rfl)

/-- `free_page_tables`' loop writes to the table only. -/
theorem foldl_freeEntry_mem (l : List Ix) (m : Mm) (pt : Frame) :
    (∀ g, g ≠ pt → (l.foldl (freeEntry pt) m).mem g = m.mem g) ∧ Calls 0 m (l.foldl (freeEntry pt) m) := by
  induction l generalizing m with
  | nil => exact ⟨fun _ _ => rfl, .of_eq ⟨rfl, rfl, rfl, rfl, rfl⟩ rfl⟩
  | cons i l ih =>
    obtain ⟨h₁, h₂⟩ := freeEntry_mem m pt i
    obtain ⟨h₃, h₄⟩ := ih (freeEntry pt m i)
    exact ⟨fun g hg => (h₃ g hg).trans (h₁ g hg), h₂.trans h₄⟩

/-- `free_user_space` writes to the directory and its table only. -/
theorem freeUserSpace_mem (hs : m.userPt (some d) = some pt) {g : Frame} (hg : g ≠ pt) (hd : g ≠ d) :
    (freeUserSpace m d).mem g = m.mem g := by
  unfold freeUserSpace freePageTables
  simp only [hs]
  rw [freePage_mem, setWord_of_ne hd, freePage_mem]
  exact (foldl_freeEntry_mem _ m pt).1 g hg

/-- An address space without pages gives none back. -/
theorem freeUserSpace_memMap (hs : m.userPt (some d) = some pt)
    (hno : ∀ i, present (m.mem pt i) = false) (hf : f ≠ pt) (hd : f ≠ d) :
    (freeUserSpace m d).memMap f = m.memMap f := by
  have hloop : ∀ (l : List Ix) (m₁ : Mm), (∀ i, present (m₁.mem pt i) = false) →
      (l.foldl (freeEntry pt) m₁).memMap = m₁.memMap := by
    intro l
    induction l with
    | nil => exact fun _ _ => rfl
    | cons i l ih =>
      intro m₁ hno
      have hmem : ∀ m₂ : Mm, m₂.mem = m₁.mem → ∀ j,
          present ((m₂.setWord pt i 0#32).mem pt j) = false := fun m₂ e j => by
        by_cases ej : j = i
        · rw [ej, setWord_same, present_zero]
        · rw [setWord_of_not fun h => ej h.2, e, hno]
      rw [List.foldl_cons]
      unfold freeEntry
      simp only [hno, Bool.false_eq_true, if_false]
      split
      · unfold swapFreeSlot
        split
        · exact ih _ (hmem _ rfl)
        · exact ih _ (hmem _ rfl)
      · exact ih _ (hmem _ rfl)
  unfold freeUserSpace freePageTables
  simp only [hs]
  rw [freePage_memMap_of_ne (by rwa [frameOf_frameAddr])]
  show (freePage _ _).memMap f = _
  rw [freePage_memMap_of_ne (by rwa [frameOf_frameAddr]), hloop _ m hno]

theorem freeUserSpace_calls (m : Mm) (d : Frame) : Calls 0 m (freeUserSpace m d) := by
  unfold freeUserSpace freePageTables
  refine Calls.then_free ?_ _
  split
  · exact .of_eq ⟨rfl, rfl, rfl, rfl, rfl⟩ rfl
  next pt _ =>
  have hl := (foldl_freeEntry_mem (List.finRange 1024) m pt).2
  generalize (List.finRange 1024).foldl (freeEntry pt) m = m₁ at hl
  exact Calls.then_eq (hl.then_free _) ⟨rfl, rfl, rfl, rfl, rfl⟩ rfl

end Linux001
