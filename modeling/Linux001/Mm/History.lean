import Linux001.Mm.Fallback
import Linux001.Mm.Fault

/-!
# Mm — what every function does to the counters

Whatever a function of `mm/memory.c` does is a sequence of acts: a change that leaves the
counters alone, a call of `try_to_free_page()`, or a call of `get_free_page()` that found no free
frame.  So the RAM and the disk stay what they are, `nrReclaims` grows, and as long as the disk
does not fail `nrUnmapped` grows with `nrStarved`.
-/

namespace Linux001
open Relation Mm

variable {tk : TaskTable} {m m' m₁ m₂ : Mm}

/-- The machine and the counters are as before. -/
structure SameCounts (m m' : Mm) : Prop where
  ram : m'.ram = m.ram
  hdFault : m'.hdFault = m.hdFault
  nrUnmapped : m'.nrUnmapped = m.nrUnmapped
  nrReclaims : m'.nrReclaims = m.nrReclaims
  nrStarved : m'.nrStarved = m.nrStarved

theorem SameCounts.trans (h : SameCounts m m₁) (h' : SameCounts m₁ m') : SameCounts m m' :=
  ⟨h'.ram.trans h.ram, h'.hdFault.trans h.hdFault, h'.nrUnmapped.trans h.nrUnmapped,
    h'.nrReclaims.trans h.nrReclaims, h'.nrStarved.trans h.nrStarved⟩

theorem SameCounts.trans' (h' : SameCounts m₁ m') (h : SameCounts m m₁) : SameCounts m m' :=
  h.trans h'

inductive Act : Mm → Mm → Prop where
  | plain {m m' : Mm} (h : SameCounts m m') : Act m m'
  | reclaim (tk : TaskTable) (m : Mm) : Act m (tryToFreePage tk m).2
  | pressed (m : Mm) : Act m { m with nrReclaims := m.nrReclaims + 1 }

/-- A sequence of acts. -/
def Acts : Mm → Mm → Prop := ReflTransGen Act

namespace Acts

theorem refl (m : Mm) : Acts m m := ReflTransGen.refl

theorem trans (h : Acts m m₁) (h' : Acts m₁ m') : Acts m m' := ReflTransGen.trans h h'

theorem then_plain (h : Acts m m₁) (h' : SameCounts m₁ m') : Acts m m' := h.tail (.plain h')

theorem of_plain (h : SameCounts m m') : Acts m m' := .single (.plain h)

end Acts

/-! ### Plain changes -/

namespace Mm

theorem freePage_counts (m : Mm) (a : Word) : SameCounts m (m.freePage a) := by
  unfold freePage
  simp only
  split_ifs <;> exact ⟨rfl, rfl, rfl, rfl, rfl⟩

theorem swapFreeSlot_counts (m : Mm) (slot : ℕ) : SameCounts m (m.swapFreeSlot slot) := by
  unfold swapFreeSlot
  split <;> exact ⟨rfl, rfl, rfl, rfl, rfl⟩

theorem swapInPage_counts (m : Mm) (slot : ℕ) (pa : Frame) :
    SameCounts m (m.swapInPage slot pa).2 := by
  unfold swapInPage
  split <;> exact ⟨rfl, rfl, rfl, rfl, rfl⟩

theorem mapUserPage_counts (m : Mm) (pgdir : Frame) (va : Word) (pa : Frame) :
    SameCounts m (m.mapUserPage pgdir va pa) := by
  unfold mapUserPage
  split <;> exact ⟨rfl, rfl, rfl, rfl, rfl⟩

theorem putKernelEntries_counts (m : Mm) (d : Frame) : SameCounts m (m.putKernelEntries d) := by
  exact Loop.foldl_finRange (J := fun _ (m' : Mm) => SameCounts m m') ⟨rfl, rfl, rfl, rfl, rfl⟩
    fun _ _ h => h.trans ⟨rfl, rfl, rfl, rfl, rfl⟩

theorem perform_counts (m : Mm) (pt : Frame) (i : Ix) (a : Access) :
    SameCounts m (m.perform pt i a).2 := by
  cases a <;> exact ⟨rfl, rfl, rfl, rfl, rfl⟩

end Mm

theorem copyShare_counts (spt dpt : Frame) (s : ℕ × Mm) (i : Ix) :
    SameCounts s.2 (copyShare spt dpt s i).2 := by
  unfold copyShare
  split
  · simp only [shareEntry, sharePage_eq]
    exact ⟨rfl, rfl, rfl, rfl, rfl⟩
  · exact ⟨rfl, rfl, rfl, rfl, rfl⟩

theorem foldl_freeEntry_counts (l : List Ix) (m : Mm) (pt : Frame) :
    SameCounts m (l.foldl (freeEntry pt) m) := by
  induction l generalizing m with
  | nil => exact ⟨rfl, rfl, rfl, rfl, rfl⟩
  | cons i l ih =>
    refine SameCounts.trans ?_ (ih (freeEntry pt m i))
    unfold freeEntry
    simp only
    split
    · exact (m.freePage_counts _).trans ⟨rfl, rfl, rfl, rfl, rfl⟩
    split
    · exact (m.swapFreeSlot_counts _).trans ⟨rfl, rfl, rfl, rfl, rfl⟩
    · exact ⟨rfl, rfl, rfl, rfl, rfl⟩

theorem freeUserSpace_counts (m : Mm) (d : Frame) : SameCounts m (freeUserSpace m d) := by
  refine SameCounts.trans ?_ (freePage_counts _ _)
  unfold freePageTables
  split
  · exact ⟨rfl, rfl, rfl, rfl, rfl⟩
  next pt _ =>
  have hl := foldl_freeEntry_counts (List.finRange 1024) m pt
  generalize (List.finRange 1024).foldl (freeEntry pt) m = m₁ at hl
  exact (hl.trans (m₁.freePage_counts _)).trans ⟨rfl, rfl, rfl, rfl, rfl⟩

/-! ### The functions -/

theorem getFreePage_acts (tk : TaskTable) (m : Mm) : Acts m (getFreePage tk m).2 := by
  unfold getFreePage
  split
  · exact .of_plain ⟨rfl, rfl, rfl, rfl, rfl⟩
  have hbody : ∀ k m₁, Acts m m₁ → Loop.Sat (Acts m) (fun r => Acts m r.2) (retryBody tk m₁ k) := by
    intro k m₁ h
    have h' : Acts m (tryToFreePage tk m₁).2 := h.tail (.reclaim tk m₁)
    unfold retryBody
    generalize tryToFreePage tk m₁ = r at h'
    obtain ⟨_ | _, m₂⟩ := r
    · exact .error h'
    simp only
    split
    · exact .error (h'.then_plain ⟨rfl, rfl, rfl, rfl, rfl⟩)
    · exact .ok h'
  have hl := Loop.foldlM_sat
    (l := List.range 32) (.single (.pressed m))
    fun k _ m₁ h => hbody k m₁ h
  generalize (List.range 32).foldlM (retryBody tk) { m with nrReclaims := m.nrReclaims + 1 } = r
    at hl
  cases hl with
  | error h => exact h
  | ok h => exact h

theorem allocUserPgdir_acts (tk : TaskTable) (m : Mm) : Acts m (allocUserPgdir tk m).2 := by
  have h₁ := getFreePage_acts tk m
  unfold allocUserPgdir
  generalize getFreePage tk m = r at h₁
  obtain ⟨_ | p, m₁⟩ := r
  · exact h₁
  have h₂ := getFreePage_acts tk m₁
  simp only
  generalize getFreePage tk m₁ = r at h₂
  obtain ⟨_ | q, m₂⟩ := r
  · exact (h₁.trans h₂).then_plain (m₂.freePage_counts _)
  · exact (h₁.trans h₂).then_plain
      ((m₂.putKernelEntries_counts p).trans ⟨rfl, rfl, rfl, rfl, rfl⟩)

theorem copyEntry_acts {spt dpt : Frame} {s : ℕ × Mm} {i : Ix} (hs : Acts m s.2) :
    Loop.Sat (fun s : ℕ × Mm => Acts m s.2) (Acts m) (copyEntry tk spt dpt s i) := by
  simp only [copyEntry]
  split
  · have hg := hs.trans (getFreePage_acts tk s.2)
    unfold copySwapIn
    generalize getFreePage tk s.2 = r at hg
    obtain ⟨_ | f, m₁⟩ := r
    · exact .error hg
    have hsw := hg.then_plain (m₁.swapInPage_counts (swapSlot (s.2.mem spt i)) f)
    simp only
    generalize m₁.swapInPage (swapSlot (s.2.mem spt i)) f = x at hsw
    obtain ⟨_ | _, m₂⟩ := x
    · exact .error (hsw.then_plain (m₂.freePage_counts _))
    refine .ok ((hsw.then_plain (m₂.swapFreeSlot_counts (swapSlot (s.2.mem spt i)))).then_plain ?_)
    have hset : SameCounts (m₂.swapFreeSlot (swapSlot (s.2.mem spt i)))
        ((m₂.swapFreeSlot (swapSlot (s.2.mem spt i))).setWord spt i (mapEntry f)) :=
      ⟨rfl, rfl, rfl, rfl, rfl⟩
    exact hset.trans (copyShare_counts spt dpt (s.1, _) i)
  · exact .ok (hs.then_plain (copyShare_counts _ _ _ _))

theorem copyPageTables_acts (tk : TaskTable) (m : Mm) (d d' : Frame) :
    Acts m (copyPageTables tk m d d').2 := by
  unfold copyPageTables
  split
  · next spt dpt _ _ =>
    have hl := Loop.foldlM_sat
      (f := copyEntry tk spt dpt) (l := List.finRange 1024) (s := (0, m)) (.refl m)
      fun i _ s hs => copyEntry_acts hs
    generalize (List.finRange 1024).foldlM (copyEntry tk spt dpt) (0, m) = r at hl
    cases hl with
    | error h => exact h
    | ok h => exact h
  · exact .refl m

theorem unWpPage_acts (tk : TaskTable) (m : Mm) (pgdir : Frame) (addr : Word) :
    Acts m (unWpPage tk m pgdir addr).2 := by
  have hg := getFreePage_acts tk m
  unfold unWpPage
  split
  · exact .refl m
  split
  · generalize getFreePage tk m = r at hg
    obtain ⟨_ | f, m₁⟩ := r
    · exact hg
    · refine hg.then_plain ((freePage_counts _ _).trans' ⟨rfl, rfl, rfl, rfl, rfl⟩)
  · exact .refl m

theorem demandFault_acts (fs : FsView) (tk : TaskTable) (t : Task) (m : Mm) (pgdir : Frame)
    (va : Word) : Acts m (demandFault fs tk t m pgdir va).2 := by
  have hg := getFreePage_acts tk m
  unfold demandFault
  generalize getFreePage tk m = r at hg
  obtain ⟨_ | f, m₁⟩ := r
  · exact hg
  · exact hg.then_plain ((mapUserPage_counts _ _ _ _).trans' ⟨rfl, rfl, rfl, rfl, rfl⟩)

theorem swapInFault_acts (tk : TaskTable) (m : Mm) (pgdir : Frame) (va : Word) (slot : ℕ) :
    Acts m (swapInFault tk m pgdir va slot).2 := by
  have hg := getFreePage_acts tk m
  unfold swapInFault
  generalize getFreePage tk m = r at hg
  obtain ⟨_ | f, m₁⟩ := r
  · exact hg
  have hs := hg.then_plain (m₁.swapInPage_counts slot f)
  simp only
  generalize m₁.swapInPage slot f = x at hs
  obtain ⟨_ | _, m₂⟩ := x
  · exact hs.then_plain (m₂.freePage_counts _)
  · exact (hs.then_plain (m₂.swapFreeSlot_counts _)).then_plain (mapUserPage_counts _ _ _ _)

theorem doNoPage_acts (fs : FsView) (tk : TaskTable) (t : Task) (m : Mm) (err addr : Word) :
    Acts m (doNoPage fs tk t m err addr).2 := by
  have hmiss : ∀ pgdir va, Acts m (missingPage fs tk t m pgdir va).2 := fun pgdir va => by
    unfold missingPage
    split
    · exact demandFault_acts fs tk t m pgdir va
    split
    · exact swapInFault_acts tk m pgdir va _
    · exact demandFault_acts fs tk t m pgdir va
  unfold doNoPage
  cases t.pgDir with
  | none => exact .refl m
  | some pgdir =>
    simp only
    split
    · split
      · split
        · exact .refl m
        split
        · exact unWpPage_acts tk m pgdir addr
        · exact .refl m
      · exact .refl m
    · split
      · exact hmiss pgdir _
      · exact .refl m

theorem cpuAccess_acts (fs : FsView) (tk : TaskTable) (t : Task) (wp user : Bool) (a : Access)
    (k : ℕ) (m : Mm) : Acts m (cpuAccess fs tk t wp user a k m).2 := by
  induction k generalizing m with
  | zero => exact .refl m
  | succ k ih =>
    unfold cpuAccess
    cases t.pgDir with
    | none => exact .refl m
    | some pgdir =>
      simp only
      cases m.walk wp pgdir a.addr a.write user with
      | ok r => exact .of_plain (m.perform_counts _ _ _)
      | error err =>
        have hd := doNoPage_acts fs tk t m err a.addr
        simp only
        generalize doNoPage fs tk t m err a.addr = r at hd
        obtain ⟨_ | _, m₁⟩ := r
        · exact hd
        · exact hd.trans (ih m₁)

/-! ### What follows -/

/-- The machine, and the relation of the two counters of the fallback. -/
structure Keeps (m m' : Mm) : Prop where
  ram : m'.ram = m.ram
  hdFault : m'.hdFault = m.hdFault
  nrReclaims : m.nrReclaims ≤ m'.nrReclaims
  starved : (∀ k, m.hdFault k = none) → m'.nrUnmapped + m.nrStarved = m.nrUnmapped + m'.nrStarved

theorem Keeps.trans (h : Keeps m m₁) (h' : Keeps m₁ m') : Keeps m m' := by
  refine ⟨h'.ram.trans h.ram, h'.hdFault.trans h.hdFault, h.nrReclaims.trans h'.nrReclaims, fun hio => ?_⟩
  have h₁ := h.starved hio
  have h₂ := h'.starved (h.hdFault.symm ▸ hio)
  omega

/-- A step of the scan, or one that takes a mapping. -/
theorem Quiet.keeps (h : Quiet tk m m') :
    m'.ram = m.ram ∧ m'.hdFault = m.hdFault ∧ m'.nrStarved = m.nrStarved := by
  cases h with
  | unaccess => exact ⟨rfl, rfl, rfl⟩
  | ioFail h => rw [(swapOutPage_none h).2]; exact ⟨rfl, rfl, rfl⟩

theorem Takes.keeps (h : Takes tk m m') :
    m'.ram = m.ram ∧ m'.hdFault = m.hdFault ∧ m'.nrStarved = m.nrStarved := by
  cases h with
  | drop =>
    exact ⟨(freePage_counts _ _).ram, (freePage_counts _ _).hdFault, (freePage_counts _ _).nrStarved⟩
  | swapOut _ _ ho =>
    refine ⟨(freePage_counts _ _).ram.trans ?_, (freePage_counts _ _).hdFault.trans ?_,
      (freePage_counts _ _).nrStarved.trans ?_⟩ <;>
    · rw [(swapOutPage_some ho).2.2.2]; rfl
  | dropShare => exact ⟨rfl, rfl, rfl⟩

theorem tryToFreePage_keeps (tk : TaskTable) (m : Mm) : Keeps m (tryToFreePage tk m).2 := by
  obtain ⟨m₁, hq, hr⟩ := tryToFreePage_spec tk m
  obtain ⟨j, e, hj⟩ := m.noteStarved_eq tk
  have h₁ : m₁.ram = m.ram ∧ m₁.hdFault = m.hdFault ∧ m₁.nrStarved = j := by
    rw [e] at hq
    clear hr e
    induction hq with
    | refl => exact ⟨rfl, rfl, rfl⟩
    | tail _ h ih =>
      obtain ⟨e₁, e₂, e₃⟩ := h.keeps
      exact ⟨e₁.trans ih.1, e₂.trans ih.2.1, e₃.trans ih.2.2⟩
  have h₂ : (tryToFreePage tk m).2.ram = m.ram ∧ (tryToFreePage tk m).2.hdFault = m.hdFault ∧
      (tryToFreePage tk m).2.nrStarved = j := by
    rcases hr with hr | ⟨-, hr⟩
    · rw [hr]
      exact h₁
    · obtain ⟨e₁, e₂, e₃⟩ := hr.keeps
      exact ⟨e₁.trans h₁.1, e₂.trans h₁.2.1, e₃.trans h₁.2.2⟩
  refine ⟨h₂.1, h₂.2.1, (tryToFreePage_reclaims tk m).nrReclaims_le, fun hio => ?_⟩
  rw [tryToFreePage_nrUnmapped tk hio, h₂.2.2, hj]
  omega

theorem Acts.keeps (h : Acts m m') : Keeps m m' := by
  induction h with
  | refl => exact ⟨rfl, rfl, le_rfl, fun _ => rfl⟩
  | tail _ h ih =>
    refine ih.trans ?_
    cases h with
    | plain h => exact ⟨h.ram, h.hdFault, h.nrReclaims.ge, fun _ => by rw [h.nrUnmapped, h.nrStarved]⟩
    | reclaim tk _ => exact tryToFreePage_keeps tk _
    | pressed _ => exact ⟨rfl, rfl, Nat.le_succ _, fun _ => rfl⟩

end Linux001
