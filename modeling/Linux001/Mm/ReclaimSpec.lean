import Linux001.Mm.Reclaim

/-!
# Mm — what the reclaimer can do

Everything `try_to_free_page()` does to the state is one of five steps at a present user entry of
some task's table.  Two are *quiet*: an Accessed bit is cleared, or a write to swap fails.  Three
*take* a mapping: a page that can be rebuilt is dropped, a private page goes to swap, or a
copy-on-write entry is emptied.  A call is a run of quiet steps, followed by a step that takes a
mapping exactly when the call returns 1 (`tryToFreePage_spec`).

Nothing is assumed of the state: page tables may overlap and frames may be shared.
-/

namespace Linux001
open Relation Mm

variable {tk : TaskTable} {m m' m₁ : Mm} {t : Task} {pt : Frame} {i : Ix}
  {s : Scan} {round pass n : ℕ} {d : Frame}

/-- Entry `i` of `pt` is a present user entry of the task `t` that the scan looks at. -/
structure Scanned (tk : TaskTable) (m : Mm) (t : Task) (pt : Frame) (i : Ix) : Prop where
  task : ∃ n, tk n = some t
  dir : ∃ d, t.pgDir = some d ∧ d ≠ kernelPgDir ∧ m.userPt (some d) = some pt
  present : present (m.mem pt i) = true
  user : userBit (m.mem pt i) = true

/-- A step that takes no mapping. -/
inductive Quiet (tk : TaskTable) : Mm → Mm → Prop where
  | unaccess {m : Mm} {t : Task} {pt : Frame} {i : Ix} (h : Scanned tk m t pt i) :
      Quiet tk m (m.setWord pt i (m.mem pt i &&& ~~~pteAccessed))
  | ioFail {m m₁ : Mm} {f : Frame} (h : m.swapOutPage f = (none, m₁)) : Quiet tk m m₁

/-- A step that takes a mapping. -/
inductive Takes (tk : TaskTable) : Mm → Mm → Prop where
  | drop {m : Mm} {t : Task} {pt : Frame} {i : Ix} (h : Scanned tk m t pt i)
      (hcow : cow (m.mem pt i) = false)
      (hwhy : m.pageIsZero (frameOf (m.mem pt i)) = true ∨ isCleanText t (userVa i) = true) (n : ℕ) :
      Takes tk m ((m.dropEntry pt i).advance n)
  | swapOut {m m₁ : Mm} {t : Task} {pt : Frame} {i : Ix} {slot : ℕ} (h : Scanned tk m t pt i)
      (hcow : cow (m.mem pt i) = false)
      (ho : m.swapOutPage (frameOf (m.mem pt i)) = (some slot, m₁)) (n : ℕ) :
      Takes tk m ((m₁.storeSwapEntry pt i slot).advance n)
  | dropShare {m : Mm} {t : Task} {pt : Frame} {i : Ix} (h : Scanned tk m t pt i)
      (hcow : cow (m.mem pt i) = true) : Takes tk m (m.dropShare pt i)

/-! ### Quiet steps leave every entry as it was -/

/-- Every word of memory is as before, Accessed bits apart. -/
def SameWords (m m' : Mm) : Prop := ∀ g j, SameEntry (m.mem g j) (m'.mem g j)

theorem SameWords.refl (m : Mm) : SameWords m m := fun _ _ => .refl _

theorem SameWords.symm (h : SameWords m m') : SameWords m' m := fun g j => (h g j).symm

theorem SameWords.trans (h : SameWords m m₁) (h' : SameWords m₁ m') : SameWords m m' :=
  fun g j => (h g j).trans (h' g j)

theorem Mm.swapOutPage_mem {f : Frame} : (m.swapOutPage f).2.mem = m.mem := by
  cases h : m.swapOutPage f with
  | mk r m₁ =>
    cases r with
    | none => rw [(swapOutPage_none h).2]
    | some s => rw [(swapOutPage_some h).2.2.2]

theorem Quiet.sameWords (h : Quiet tk m m') : SameWords m m' := by
  cases h with
  | ioFail h =>
    intro g j
    rw [(swapOutPage_none h).2]
    exact .refl _
  | @unaccess t pt i h =>
    intro g j
    by_cases e : g = pt ∧ j = i
    · obtain ⟨rfl, rfl⟩ := e
      rw [setWord_same]
      exact sameEntry_clear _
    · rw [setWord_of_not e]
      exact .refl _

theorem SameWords.userPt (h : SameWords m m') (d : Option Frame) : m'.userPt d = m.userPt d := by
  cases d with
  | none => rfl
  | some d => simp only [Mm.userPt, (h d userPdeIndex).present, (h d userPdeIndex).frame]

theorem Scanned.of_sameWords (hs : Scanned tk m t pt i) (h : SameWords m m') :
    Scanned tk m' t pt i where
  task := hs.task
  dir := by
    obtain ⟨d, hd, hk, hp⟩ := hs.dir
    exact ⟨d, hd, hk, by rw [h.userPt, hp]⟩
  present := by rw [(h pt i).present, hs.present]
  user := by rw [(h pt i).userBit, hs.user]

/-! ### The scan -/

/-- What holds at every point of the scan that began in `m`. -/
structure ScanInv (tk : TaskTable) (m : Mm) (s : Scan) : Prop where
  quiet : ReflTransGen (Quiet tk) m s.mm
  fallback : ∀ pt i, s.fallback = some (pt, i) → ∃ t, Scanned tk s.mm t pt i ∧ cow (s.mm.mem pt i) = true

/-- What holds when the scan returns in a pass.  Only the last pass writes to swap. -/
def PassRet (tk : TaskTable) (m : Mm) (pass : ℕ) (r : Bool × Mm) : Prop :=
  r.1 = true ∧ ∃ m₁, ReflTransGen (Quiet tk) m m₁ ∧ Takes tk m₁ r.2 ∧
    r.2.nrUnmapped = m₁.nrUnmapped ∧ (pass ≠ 2 → r.2.swapMap = m₁.swapMap)

/-- What holds when the scan returns. -/
def ScanRet (tk : TaskTable) (m : Mm) (r : Bool × Mm) : Prop := ∃ pass, PassRet tk m pass r

theorem ScanInv.step (h : ScanInv tk m s) (hq : Quiet tk s.mm m') :
    ScanInv tk m { s with mm := m' } where
  quiet := h.quiet.tail hq
  fallback pt i hf := by
    obtain ⟨t, ht, hc⟩ := h.fallback pt i hf
    refine ⟨t, ht.of_sameWords hq.sameWords, ?_⟩
    rw [(hq.sameWords pt i).cow, hc]

/-- One entry of the scan, by the branches of its body. -/
theorem scanPage_sat (ht : ∃ n, tk n = some t)
    (hd : t.pgDir = some d) (hk : d ≠ kernelPgDir)
    (h : ScanInv tk m s ∧ s.mm.userPt (some d) = some pt) :
    Loop.Sat (fun s => ScanInv tk m s ∧ s.mm.userPt (some d) = some pt) (PassRet tk m pass)
      (scanPage round pass n t pt s i) := by
  obtain ⟨hI, hp⟩ := h
  simp only [scanPage]
  split
  · exact .ok ⟨hI, hp⟩
  next hpu =>
  have hs : Scanned tk s.mm t pt i :=
    ⟨ht, ⟨d, hd, hk, hp⟩, by simp at hpu; exact hpu.1, by simp at hpu; exact hpu.2⟩
  split
  · have hq : Quiet tk s.mm _ := .unaccess hs
    exact .ok ⟨hI.step hq, by rw [hq.sameWords.userPt]; exact hp⟩
  split
  · next hz => exact .error ⟨rfl, s.mm, hI.quiet, .drop hs hz.2.1 (.inl hz.2.2) n,
      freePage_nrUnmapped _, fun _ => freePage_swapMap _⟩
  split
  · next hz => exact .error ⟨rfl, s.mm, hI.quiet, .drop hs hz.2.1 (.inr hz.2.2) n,
      freePage_nrUnmapped _, fun _ => freePage_swapMap _⟩
  split
  · next hz =>
    split
    · next m₁ ho =>
      have hq : Quiet tk s.mm m₁ := .ioFail ho
      exact .ok ⟨hI.step hq, by rw [hq.sameWords.userPt]; exact hp⟩
    next slot m₁ ho =>
    have hm : m₁.mem = s.mm.mem := by
      have := swapOutPage_mem (m := s.mm) (f := frameOf (s.mm.mem pt i))
      rwa [ho] at this
    -- nothing else runs while the driver sleeps, so the entry is what it was
    rw [if_neg (by rw [hm]; simp)]
    refine .error ⟨rfl, s.mm, hI.quiet, .swapOut hs hz.2 ho n,
      (freePage_nrUnmapped _).trans ?_, fun hp => absurd hz.1 hp⟩
    show m₁.nrUnmapped = _
    rw [(swapOutPage_some ho).2.2.2]
  split
  · next hc =>
    refine .ok ⟨⟨hI.quiet, fun pt' i' hf => ?_⟩, hp⟩
    obtain ⟨rfl, rfl⟩ := hf
    exact ⟨t, hs, hc.1⟩
  · exact .ok ⟨hI, hp⟩

theorem scanTable_sat (l : List Ix)
    (ht : ∃ n, tk n = some t) (hd : t.pgDir = some d) (hk : d ≠ kernelPgDir) (h : ScanInv tk m s)
    (hp : s.mm.userPt (some d) = some pt) :
    Loop.Sat (ScanInv tk m) (PassRet tk m pass) (l.foldlM (scanPage round pass n t pt) s) := by
  have hl := Loop.foldlM_sat (I := fun s => ScanInv tk m s ∧ s.mm.userPt (some d) = some pt)
    (f := scanPage round pass n t pt) (l := l) ⟨h, hp⟩
    fun i _ s' hs' => scanPage_sat ht hd hk hs'
  exact hl.mono (fun _ h => h.1) fun _ h => h

theorem scanTask_sat (h : ScanInv tk m s) :
    Loop.Sat (ScanInv tk m) (PassRet tk m pass) (scanTask tk round pass s n) := by
  unfold scanTask
  split
  · exact .ok h
  next t ht =>
  split
  · exact .ok h
  next hno =>
  push Not at hno
  obtain ⟨d, hd⟩ := Option.ne_none_iff_exists'.mp hno.1
  split
  · exact .ok h
  next pt hp =>
  rw [hd] at hp hno
  exact scanTable_sat _ ⟨_, ht⟩ hd (fun e => hno.2 (by rw [e])) h hp

theorem scanAll_sat (tk : TaskTable) (m : Mm) :
    Loop.Sat (ScanInv tk m) (ScanRet tk m) (scanAll tk ⟨m, none⟩) := by
  have h₀ : ScanInv tk m ⟨m, none⟩ := ⟨.refl, fun _ _ h => by cases h⟩
  unfold scanAll
  exact Loop.foldlM_sat h₀ fun _ _ s₁ h₁ => Loop.foldlM_sat h₁ fun pass _ s₂ h₂ =>
    (Loop.foldlM_sat h₂ fun _ _ s₃ h₃ => scanTask_sat h₃).mono (fun _ h => h) fun _ h => ⟨pass, h⟩

theorem Mm.noteStarved_eq (m : Mm) (tk : TaskTable) : ∃ k, m.noteStarved tk = { m with nrStarved := k } ∧
    k = m.nrStarved + if Starved tk m then 1 else 0 := by
  unfold noteStarved
  exact ⟨_, rfl, rfl⟩

/-- **The reclaimer.**  Quiet steps, and a step that takes a mapping exactly when the call
returns 1. -/
theorem tryToFreePage_spec (tk : TaskTable) (m : Mm) :
    ∃ m₁, ReflTransGen (Quiet tk) (m.noteStarved tk) m₁ ∧ ((tryToFreePage tk m = (false, m₁)) ∨
        ((tryToFreePage tk m).1 = true ∧ Takes tk m₁ (tryToFreePage tk m).2)) := by
  have h := scanAll_sat tk (m.noteStarved tk)
  unfold tryToFreePage
  cases hs : scanAll tk ⟨m.noteStarved tk, none⟩ with
  | error r =>
    rw [hs] at h
    obtain ⟨-, hr, m₁, hq, ht, -⟩ := h.of_error
    exact ⟨m₁, hq, .inr ⟨hr, ht⟩⟩
  | ok s =>
    rw [hs] at h
    replace h := h.of_ok
    refine ⟨s.mm, h.quiet, ?_⟩
    cases hf : s.fallback with
    | none => exact .inl (by simp [hf])
    | some p =>
      obtain ⟨pt, i⟩ := p
      obtain ⟨t, ht, hc⟩ := h.fallback pt i hf
      exact .inr ⟨by simp [hf], by simp only [hf]; exact .dropShare ht hc⟩

/-! ### Allocation -/

/-- A step of the reclaimer; the third alternative is that of the history variables. -/
def ReclaimStep (tk : TaskTable) (m m' : Mm) : Prop :=
  Quiet tk m m' ∨ Takes tk m m' ∨ ∃ k j, m.nrReclaims ≤ k ∧ m' = { m with nrReclaims := k, nrStarved := j }

/-- Any run of the reclaimer. -/
def Reclaims (tk : TaskTable) : Mm → Mm → Prop := ReflTransGen (ReclaimStep tk)

theorem reclaims_of_quiets (h : ReflTransGen (Quiet tk) m m') : Reclaims tk m m' :=
  ReflTransGen.mono (fun _ _ hq => Or.inl hq) m m' h

theorem tryToFreePage_reclaims (tk : TaskTable) (m : Mm) : Reclaims tk m (tryToFreePage tk m).2 := by
  have h₀ : Reclaims tk m (m.noteStarved tk) := by
    obtain ⟨k, e, -⟩ := m.noteStarved_eq tk
    exact .single (.inr (.inr ⟨_, k, le_rfl, e⟩))
  obtain ⟨m₁, hq, h | ⟨-, ht⟩⟩ := tryToFreePage_spec tk m
  · rw [h]; exact h₀.trans (reclaims_of_quiets hq)
  · exact (h₀.trans (reclaims_of_quiets hq)).tail (.inr (.inl ht))

/-- What a call of `get_free_page` that ends with `r` has done. -/
def Allocates (tk : TaskTable) (m : Mm) (r : Option Frame × Mm) : Prop :=
  ∃ m₁, Reclaims tk m m₁ ∧ (r = (none, m₁) ∨ ∃ f, m₁.findFree = some f ∧ r = (some f, m₁.takeFrame f))

theorem retryBody_sat {k : ℕ} (h : Reclaims tk m m₁) :
    Loop.Sat (Reclaims tk m) (Allocates tk m) (retryBody tk m₁ k) := by
  have hr : Reclaims tk m (tryToFreePage tk m₁).2 := h.trans (tryToFreePage_reclaims tk m₁)
  unfold retryBody
  generalize tryToFreePage tk m₁ = r at hr
  obtain ⟨ok, m₂⟩ := r
  cases ok with
  | false => exact .error ⟨m₂, hr, .inl rfl⟩
  | true =>
    cases hf : m₂.findFree with
    | some f => simp only [hf]; exact .error ⟨m₂, hr, .inr ⟨f, hf, rfl⟩⟩
    | none => simp only [hf]; exact .ok hr

/-- **`get_free_page`**: a run of the reclaimer, after which a frame whose count is 0 is handed
out, or none. -/
theorem getFreePage_spec (tk : TaskTable) (m : Mm) : Allocates tk m (getFreePage tk m) := by
  unfold getFreePage
  cases hf : m.findFree with
  | some f => exact ⟨m, .refl, .inr ⟨f, hf, rfl⟩⟩
  | none =>
    have h₀ : Reclaims tk m { m with nrReclaims := m.nrReclaims + 1 } :=
      .single (.inr (.inr ⟨_, _, Nat.le_succ _, rfl⟩))
    have hl := Loop.foldlM_sat (f := retryBody tk)
      (l := List.range 32) h₀ fun _ _ _ h => retryBody_sat h
    generalize (List.range 32).foldlM (retryBody tk) { m with nrReclaims := m.nrReclaims + 1 } = r
      at hl
    cases hl with
    | error h => exact h
    | ok h => exact ⟨_, h, .inl rfl⟩

/-! ### Without memory pressure -/

theorem Quiet.nrReclaims (h : Quiet tk m m') : m'.nrReclaims = m.nrReclaims := by
  cases h with
  | unaccess => rfl
  | ioFail h => rw [(swapOutPage_none h).2]

theorem Takes.nrReclaims (h : Takes tk m m') : m'.nrReclaims = m.nrReclaims := by
  cases h with
  | drop => simp [advance, dropEntry, setWord]
  | swapOut _ _ ho =>
    show (freePage _ _).nrReclaims = _
    rw [freePage_nrReclaims, (swapOutPage_some ho).2.2.2]
    rfl
  | dropShare => rfl

theorem Reclaims.nrReclaims_le (h : Reclaims tk m m') : m.nrReclaims ≤ m'.nrReclaims := by
  induction h with
  | refl => exact le_rfl
  | tail _ h ih =>
    rcases h with h | h | ⟨k, j, hk, rfl⟩
    · exact ih.trans h.nrReclaims.ge
    · exact ih.trans h.nrReclaims.ge
    · exact ih.trans hk

theorem Allocates.nrReclaims_le {r : Option Frame × Mm} (h : Allocates tk m r) :
    m.nrReclaims ≤ r.2.nrReclaims := by
  obtain ⟨m₁, hr, rfl | ⟨f, -, rfl⟩⟩ := h
  · exact hr.nrReclaims_le
  · exact hr.nrReclaims_le

/-- Fewer than `k` frames were free in `m`, and the allocator has had to reclaim since. -/
def Pressed (k : ℕ) (m m' : Mm) : Prop := m.countFreePages < k ∧ m.nrReclaims < m'.nrReclaims

theorem Pressed.mono {k : ℕ} (h : Pressed k m m₁) (hle : m₁.nrReclaims ≤ m'.nrReclaims) :
    Pressed k m m' := ⟨h.1, h.2.trans_le hle⟩

/-- Either there is a free frame, or the reclaimer is called. -/
theorem getFreePage_cases (tk : TaskTable) (m : Mm) :
    (∃ f, m.findFree = some f ∧ getFreePage tk m = (some f, m.takeFrame f)) ∨ Pressed 1 m (getFreePage tk m).2 := by
  unfold getFreePage
  cases hf : m.findFree with
  | some f => exact .inl ⟨f, rfl, rfl⟩
  | none =>
    refine .inr ⟨by rw [countFreePages_of_none hf]; exact Nat.zero_lt_one, ?_⟩
    have hl := Loop.foldlM_sat
      (Q := Allocates tk { m with nrReclaims := m.nrReclaims + 1 }) (f := retryBody tk)
      (l := List.range 32) .refl fun _ _ _ h => retryBody_sat h
    generalize (List.range 32).foldlM (retryBody tk) { m with nrReclaims := m.nrReclaims + 1 } = r
      at hl
    cases hl with
    | error h => exact h.nrReclaims_le
    | ok h => exact h.nrReclaims_le

end Linux001
