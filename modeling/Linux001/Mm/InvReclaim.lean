import Linux001.Mm.InvSteps
import Linux001.Mm.ReclaimSpec

/-!
# Mm — the invariant under memory pressure

`get_free_page()` may run the reclaimer, in the middle of a fault or of a fork.  The invariant
survives it, and `Drift` says what the caller finds unchanged: the address spaces, every entry
that was not present, the reference of every copy-on-write entry (though the entry itself may
have been emptied), and the contents of every page that is not a page table.
-/

namespace Linux001
open Relation Mm

variable {B : Boot} {tk : TaskTable} {m m' m₁ m₂ : Mm} {b b' b₁ b₂ : Books}
variable {d f pt : Frame} {i : Ix} {w : Word} {x : Option Frame} {t : Task}

/-- What a run of the reclaimer makes of the entry `w` of a present page: it is left, emptied, or its
page is out on the swap device, where it has gone as it was.  A copy-on-write entry that is emptied
is counted. -/
inductive Fate (m m' : Mm) (pt : Frame) (i : Ix) (w w' : Word) : Prop where
  | stays (h : SameEntry w w')
  | dropped (h : w' = 0#32) (hu : cow w = true → m.nrUnmapped < m'.nrUnmapped)
  | out (hp : present w' = false) (hs : swapped w' = true) (hc : cow w = false)
      (hw : m'.wentOut pt i = m.mem (frameOf w))

/-- What a run of the reclaimer leaves alone. -/
structure Drift (m : Mm) (b : Books) (m' : Mm) (b' : Books) : Prop where
  spaces : b.SameSpaces b'
  absent : ∀ {d i}, d ∈ b.live → present (b.pte d i) = false → b'.pte d i = b.pte d i ∧ b'.hold d i = b.hold d i ∧
      m'.wentOut (b.tbl d) i = m.wentOut (b.tbl d) i
  shared : ∀ {d i}, d ∈ b.live → present (b.pte d i) = true → cow (b.pte d i) = true →
    b'.hold d i = b.hold d i ∧ (b'.pte d i = 0#32 ∨ SameEntry (b.pte d i) (b'.pte d i))
  data : ∀ {g}, (∀ d ∈ b.live, b.tbl d ≠ g) → m'.mem g = m.mem g
  unmapped : m.nrUnmapped ≤ m'.nrUnmapped
  fate : ∀ {d i}, d ∈ b.live → present (b.pte d i) = true → Fate m m' (b.tbl d) i (b.pte d i) (b'.pte d i)

/-- Memory has not changed. -/
theorem Drift.of_mem (hm : m'.mem = m.mem) (hw : m'.wentOut = m.wentOut)
    (hu : m'.nrUnmapped = m.nrUnmapped) : Drift m b m' b :=
  ⟨.refl b, fun _ _ => ⟨rfl, rfl, by rw [hw]⟩, fun _ _ _ => ⟨rfl, .inr (.refl _)⟩, fun _ => by rw [hm],
    hu.ge, fun _ _ => .stays (.refl _)⟩

/-- The frame of a present page is no table, so the reclaimer does not write to it. -/
theorem Drift.page (h : Drift m b m₁ b₁) (hi : Inv B tk m b) (hd : d ∈ b.live)
    (hp : present (b.pte d i) = true) :
    m₁.mem (frameOf (b.pte d i)) = m.mem (frameOf (b.pte d i)) :=
  h.data (hi.data_hold (hi.hold_eq hd hp)).table

theorem Drift.trans (hi : Inv B tk m b) (h : Drift m b m₁ b₁) (h' : Drift m₁ b₁ m₂ b₂) :
    Drift m b m₂ b₂ := by
  have hl : ∀ {d}, d ∈ b.live → d ∈ b₁.live := fun hd => h.spaces.live ▸ hd
  refine ⟨h.spaces.trans h'.spaces, fun {d i} hd hp => ?_, fun {d i} hd hp hc => ?_, fun {g} hg => ?_,
    h.unmapped.trans h'.unmapped, fun {d i} hd hp => ?_⟩
  · obtain ⟨e₁, e₂, e₃⟩ := h.absent hd hp
    obtain ⟨f₁, f₂, f₃⟩ := h'.absent (hl hd) (by rw [e₁, hp])
    rw [h.spaces.tbl] at f₃
    exact ⟨f₁.trans e₁, f₂.trans e₂, f₃.trans e₃⟩
  · obtain ⟨e₁, e₂ | e₂⟩ := h.shared hd hp hc
    · -- emptied in the first part, left alone in the second
      obtain ⟨f₁, f₂, -⟩ := h'.absent (hl hd) (by rw [e₂, present_zero])
      exact ⟨f₂.trans e₁, .inl (f₁.trans e₂)⟩
    · obtain ⟨f₁, f₂⟩ := h'.shared (hl hd) (by rw [e₂.present, hp]) (by rw [e₂.cow, hc])
      exact ⟨f₁.trans e₁, f₂.imp_right fun f₂ => e₂.trans f₂⟩
  · rw [h'.data fun d hd => ?_, h.data hg]
    rw [h.spaces.tbl]
    exact hg d (h.spaces.live ▸ hd)
  cases h.fate hd hp with
  | stays e =>
    have hf := h'.fate (hl hd) (by rw [e.present, hp])
    rw [h.spaces.tbl] at hf
    cases hf with
    | stays e' => exact .stays (e.trans e')
    | dropped hz hu => exact .dropped hz fun hc => h.unmapped.trans_lt (hu (by rw [e.cow, hc]))
    | out hp' hs hc hw =>
      exact .out hp' hs (by rw [← e.cow, hc]) (by rw [hw, e.frame, h.page hi hd hp])
  | dropped hz hu =>
    obtain ⟨e, -, -⟩ := h'.absent (hl hd) (by rw [hz, present_zero])
    exact .dropped (e.trans hz) fun hc => (hu hc).trans_le h'.unmapped
  | out hp' hs hc hw =>
    obtain ⟨e, -, e'⟩ := h'.absent (hl hd) hp'
    rw [h.spaces.tbl] at e'
    exact .out (by rw [e, hp']) (by rw [e, hs]) hc (e'.trans hw)

/-- A step at one present entry. -/
theorem Inv.drift (h : Inv B tk m b) (hd : d ∈ b.live) (hp : present (b.pte d i) = true)
    (hs : b.SameSpaces b') (hpte : b'.pte = update₂ b.pte d i w)
    (hhold : b'.hold = update₂ b.hold d i x)
    (hmem : ∀ g, g ≠ b.tbl d → m'.mem g = m.mem g)
    (hout : ∀ g j, ¬ (g = b.tbl d ∧ j = i) → m'.wentOut g j = m.wentOut g j)
    (hc : cow (b.pte d i) = true → x = b.hold d i ∧ (w = 0#32 ∨ SameEntry (b.pte d i) w))
    (hu : m.nrUnmapped ≤ m'.nrUnmapped) (hfate : Fate m m' (b.tbl d) i (b.pte d i) w) :
    Drift m b m' b' := by
  refine ⟨hs, fun {d' i'} hd' hp' => ?_, fun {d' i'} hd' hp' hc' => ?_, fun {g} hg => ?_, hu, fun {d' i'} hd' _ => ?_⟩
  · have e : ¬ (d' = d ∧ i' = i) := fun ⟨e₁, e₂⟩ => by
      rw [e₁, e₂, hp] at hp'
      cases hp'
    have e' : ¬ (b.tbl d' = b.tbl d ∧ i' = i) := fun ⟨e₁, e₂⟩ => e ⟨h.tbl_inj hd' hd e₁, e₂⟩
    rw [hpte, hhold, update₂_of_ne e, update₂_of_ne e]
    exact ⟨rfl, rfl, hout _ _ e'⟩
  · rw [hpte, hhold]
    by_cases e : d' = d ∧ i' = i
    · obtain ⟨rfl, rfl⟩ := e
      rw [update₂_self, update₂_self]
      exact hc hc'
    · rw [update₂_of_ne e, update₂_of_ne e]
      exact ⟨rfl, .inr (.refl _)⟩
  · exact hmem g fun e => hg d hd e.symm
  · rw [hpte]
    by_cases e : d' = d ∧ i' = i
    · obtain ⟨rfl, rfl⟩ := e
      rwa [update₂_self]
    · rw [update₂_of_ne e]
      exact .stays (.refl _)

/-! ### A page that has come back -/

/-- The page `p` is in memory behind the copy-on-write entry `i` of `d`, unless the reclaimer has
emptied the entry: its counter has then moved on from `u`. -/
def Back (u : ℕ) (m : Mm) (b : Books) (d : Frame) (i : Ix) (p : Page) : Prop :=
  (present (b.pte d i) = true ∧ cow (b.pte d i) = true ∧ m.mem (frameOf (b.pte d i)) = p) ∨
    (b.pte d i = 0#32 ∧ u < m.nrUnmapped)

theorem Back.congr {u : ℕ} {p : Page} (h : Back u m b d i p) (hpte : b'.pte d i = b.pte d i)
    (hmem : present (b.pte d i) = true → m'.mem (frameOf (b.pte d i)) = m.mem (frameOf (b.pte d i)))
    (hu : m.nrUnmapped ≤ m'.nrUnmapped) : Back u m' b' d i p := by
  unfold Back
  rw [hpte]
  rcases h with ⟨hp, hc, hm⟩ | ⟨hz, hlt⟩
  · exact .inl ⟨hp, hc, (hmem hp).trans hm⟩
  · exact .inr ⟨hz, hlt.trans_le hu⟩

theorem Back.drift {u : ℕ} {p : Page} (h : Back u m b d i p) (hi : Inv B tk m b) (hd : d ∈ b.live)
    (hr : Drift m b m' b') (hu : u ≤ m.nrUnmapped) : Back u m' b' d i p := by
  rcases h with ⟨hp, hc, hm⟩ | ⟨hz, hlt⟩
  · cases hr.fate hd hp with
    | stays e =>
      exact .inl ⟨by rw [e.present, hp], by rw [e.cow, hc], by rw [e.frame, hr.page hi hd hp, hm]⟩
    | dropped hz hlt => exact .inr ⟨hz, hu.trans_lt (hlt hc)⟩
    | out _ _ hc' _ =>
      rw [hc] at hc'
      cases hc'
  · exact .inr ⟨(hr.absent hd (by rw [hz, present_zero])).1.trans hz, hlt.trans_le hr.unmapped⟩

/-! ### The reclaimer's steps -/

section
variable (h : Inv B tk m b)
include h

/-- The entry the scanner looks at is an entry of a live table. -/
theorem Inv.scanned (hs : Scanned tk m t pt i) :
    ∃ d ∈ b.live, t.pgDir = some d ∧ pt = b.tbl d ∧ m.mem pt i = b.pte d i ∧ present (b.pte d i) = true := by
  obtain ⟨n, hn⟩ := hs.task
  obtain ⟨d, hd, -, hp⟩ := hs.dir
  have hl := h.tasks hn hd
  obtain rfl := h.tbl_eq hl hp
  refine ⟨d, hl, hd, rfl, h.mem_tbl hl, ?_⟩
  rw [← h.mem_tbl hl]
  exact hs.present

theorem Inv.quiet (hq : Quiet tk m m') :
    ∃ b', Inv B tk m' b' ∧ Drift m b m' b' := by
  cases hq with
  | ioFail ho =>
    obtain ⟨hp, e⟩ := swapOutPage_none ho
    refine ⟨b, h.congr (by rw [e]) (by rw [e]) (by rw [e]) (fun g _ => by rw [e]) (by rw [e]) hp
      (by rw [e]), .of_mem (by rw [e]) (by rw [e]) (by rw [e])⟩
  | @unaccess t pt i hs =>
    obtain ⟨d, hd, -, rfl, hw, hp⟩ := h.scanned hs
    rw [hw]
    refine ⟨_, h.retag hd hp (sameEntry_clear _), ?_⟩
    refine h.drift hd hp ⟨rfl, rfl, rfl⟩ rfl update₂_eq_self.symm
      (fun g e => setWord_of_ne e) (fun _ _ _ => rfl) (fun _ => ⟨rfl, .inr (sameEntry_clear _)⟩)
      (Nat.le_refl _) (.stays (sameEntry_clear _))

/-- A present page that is not copy-on-write is dropped, or goes to swap. -/
theorem Inv.takes (ht : Takes tk m m') :
    ∃ b', Inv B tk m' b' ∧ Drift m b m' b' := by
  cases ht with
  | @drop t pt i hs hc hwhy n =>
    obtain ⟨d, hd, -, rfl, hw, hp⟩ := h.scanned hs
    rw [hw] at hc
    have hm : (m.dropEntry (b.tbl d) i).advance n =
        { (m.freePage (frameAddr (frameOf (b.pte d i)))).setWord (b.tbl d) i 0#32 with
          evictCursor := ((m.dropEntry (b.tbl d) i).evictCursor + n + 1) % nrTasks } := by
      unfold advance dropEntry
      rw [hw, freePage_setWord]
    rw [hm]
    refine ⟨_, h.drop hd hp (by simp [setWord]) (by simp [setWord]) rfl
      (by simp [setWord]) .empty ?_, ?_⟩
    · exact h.slots.set (h.mapped hd hp).inCore swapped_zero (by simp [setWord])
        (slotPage_congr (by simp [setWord])) (by simp [setWord])
    · refine h.drift hd hp ⟨rfl, rfl, rfl⟩ rfl rfl (fun g e => ?_) (fun g j _ => ?_) (fun hc' => ?_) ?_
        (.dropped rfl fun hc' => ?_)
      · simp [setWord, update₂_of_ne_left e]
      · simp [setWord]
      · rw [hc] at hc'; cases hc'
      · simp [setWord]
      · rw [hc] at hc'; cases hc'
  | @swapOut m₁ t pt i slot hs hc ho n =>
    obtain ⟨d, hd, -, rfl, hw, hp⟩ := h.scanned hs
    rw [hw] at hc ho
    obtain ⟨hf, hsp, hso, e⟩ := swapOutPage_some ho
    obtain ⟨hlt, hfree⟩ := findSlot_some hf
    have hm₁ : m₁.mem = m.mem := by rw [e]
    have hsw : m₁.swapMap = Function.update m.swapMap slot true := by rw [e]
    have hwo : m₁.wentOut = m.wentOut := by rw [e]
    have hr₁ : m₁.ram = m.ram := by rw [e]
    have hmm₁ : m₁.memMap = m.memMap := by rw [e]
    have hu₁ : m₁.nrUnmapped = m.nrUnmapped := by rw [e]
    have hw₁ : m₁.mem (b.tbl d) i = b.pte d i := by rw [hm₁, hw]
    have hm : (m₁.storeSwapEntry (b.tbl d) i slot).advance n =
        { (m₁.freePage (frameAddr (frameOf (b.pte d i)))).setWord (b.tbl d) i (swapEntry slot) with
          wentOut := update₂ m.wentOut (b.tbl d) i (m.mem (frameOf (b.pte d i)))
          evictCursor :=
            ((m₁.storeSwapEntry (b.tbl d) i slot).evictCursor + n + 1) % nrTasks } := by
      unfold advance storeSwapEntry
      rw [hw₁, hwo, hm₁, freePage_setWord]
    have hdisk : ((m₁.storeSwapEntry (b.tbl d) i slot).advance n).slotPage = m₁.slotPage :=
      slotPage_congr (by rw [hm]; simp [setWord])
    rw [hm] at hdisk ⊢
    refine ⟨_, h.drop hd hp (by simp [setWord, hm₁])
      (by simp [setWord, hr₁]) (freePage_memMap_congr m m₁ hr₁ hmm₁ _)
      (by simp [setWord, hu₁]) (.out hlt) ?_, ?_⟩
    · exact h.slots.fill (fun d' hd' => h.tbl_inj hd' hd) hd hlt hfree (h.mapped hd hp).inCore
        (by simp [setWord, hsw]) (by rw [hdisk, hsp]) (fun s' e' => by rw [hdisk, hso s' e']) rfl
    · refine h.drift hd hp ⟨rfl, rfl, rfl⟩ rfl rfl (fun g e => ?_) (fun g j e => ?_) (fun hc' => ?_) ?_
        (.out (present_swapEntry _) (swapped_swapEntry _) hc update₂_self)
      · simp [setWord, update₂_of_ne_left e, hm₁]
      · exact update₂_of_ne e
      · rw [hc] at hc'; cases hc'
      · simp [setWord, hu₁]
  | @dropShare t pt i hs hc =>
    obtain ⟨d, hd, -, rfl, hw, hp⟩ := h.scanned hs
    refine ⟨_, h.dropShare hd hp, ?_⟩
    exact h.drift hd hp ⟨rfl, rfl, rfl⟩ rfl update₂_eq_self.symm
      (fun g e => setWord_of_ne e) (fun _ _ _ => rfl) (fun _ => ⟨rfl, .inl rfl⟩)
      (Nat.le_succ _) (.dropped rfl fun _ => Nat.lt_succ_self _)

theorem Inv.reclaimStep (hs : ReclaimStep tk m m') :
    ∃ b', Inv B tk m' b' ∧ Drift m b m' b' := by
  rcases hs with hq | ht | ⟨k, j, -, rfl⟩
  · exact h.quiet hq
  · exact h.takes ht
  · exact ⟨b, h.congr rfl rfl rfl (fun _ _ => rfl) rfl (fun _ _ => rfl) rfl, .of_mem rfl rfl rfl⟩

/-- **The invariant survives reclaim**, at any point and any number of times. -/
theorem Inv.reclaims (hr : Reclaims tk m m') :
    ∃ b', Inv B tk m' b' ∧ Drift m b m' b' := by
  induction hr with
  | refl => exact ⟨b, h, .of_mem rfl rfl rfl⟩
  | tail _ hs ih =>
    obtain ⟨b₁, h₁, hd₁⟩ := ih
    obtain ⟨b₂, h₂, hd₂⟩ := h₁.reclaimStep hs
    exact ⟨b₂, h₂, hd₁.trans h hd₂⟩

/-! ### Allocation -/

/-- **`get_free_page` under the invariant.**  Without a frame, the reclaimer has run.  With a
frame `f`, `f` was referred to by nobody when it was handed out; it is zeroed, and is now a
kernel page. -/
protected theorem Inv.getFreePage :
    ∃ m₁ b₁, Inv B tk m₁ b₁ ∧ Drift m b m₁ b₁ ∧ (getFreePage tk m = (none, m₁) ∨
        ∃ f, getFreePage tk m = (some f, m₁.takeFrame f) ∧ m₁.findFree = some f ∧
          Inv B tk (m₁.takeFrame f) (b₁.addKern f) ∧ ∀ c, b₁.cells c ≠ some f) := by
  obtain ⟨m₁, hr, hres⟩ := getFreePage_spec tk m
  obtain ⟨b₁, h₁, hd₁⟩ := h.reclaims hr
  refine ⟨m₁, b₁, h₁, hd₁, ?_⟩
  rcases hres with e | ⟨f, hf, e⟩
  · exact .inl e
  · exact .inr ⟨f, e, hf, h₁.take hf, h₁.take_fresh hf⟩

end

end Linux001
