import Linux001.Mm.ReclaimSpec

/-!
# Mm — when the reclaimer falls back

`try_to_free_page()` returns at the first page a pass can take, so it comes to its fallback only
if there is none.  As long as the disk does not fail it unmaps a copy-on-write page exactly if it
is called with nothing else to take (`tryToFreePage_nrUnmapped`).
-/

namespace Linux001
open Relation Mm List Loop

variable {tk : TaskTable} {m m' m₁ : Mm} {t : Task} {pt : Frame} {i : Ix} {n : Slot} {w : Word}
  {round pass : ℕ} {s : Scan} {P : Scan → Prop} {k : ℕ} {f : Frame}

/-- What the scan leaves alone on its way. -/
structure Still (m m' : Mm) : Prop where
  words : SameWords m m'
  zero : ∀ f, m'.pageIsZero f = true ↔ m.pageIsZero f = true
  cursor : m'.evictCursor = m.evictCursor
  swapMap : m'.swapMap = m.swapMap
  hdFault : m'.hdFault = m.hdFault
  nrUnmapped : m'.nrUnmapped = m.nrUnmapped
  ram : m'.ram = m.ram
  memMap : m'.memMap = m.memMap

theorem Still.refl (m : Mm) : Still m m := ⟨.refl m, fun _ => .rfl, rfl, rfl, rfl, rfl, rfl, rfl⟩

theorem Still.trans (h : Still m m₁) (h' : Still m₁ m') : Still m m' :=
  ⟨h.words.trans h'.words, fun f => (h'.zero f).trans (h.zero f), h'.cursor.trans h.cursor,
    h'.swapMap.trans h.swapMap, h'.hdFault.trans h.hdFault, h'.nrUnmapped.trans h.nrUnmapped,
    h'.ram.trans h.ram, h'.memMap.trans h.memMap⟩

theorem Mm.pageIsZero_iff : m.pageIsZero f = true ↔ ∀ i, m.mem f i = 0#32 := by
  simp [pageIsZero]

theorem Quiet.still (h : Quiet tk m m') : Still m m' := by
  refine ⟨h.sameWords, fun f => ?_, ?_, ?_, ?_, ?_, ?_, ?_⟩
  · rw [pageIsZero_iff, pageIsZero_iff]
    cases h with
    | ioFail h => rw [(swapOutPage_none h).2]
    | @unaccess t pt i h =>
      by_cases e : f = pt
      · -- a page with a present entry is not zero
        subst e
        have hpr : present (m.mem f i &&& ~~~pteAccessed) = true := by
          rw [(sameEntry_clear _).present, h.present]
        refine iff_of_false (fun hz => ?_) fun hz => ?_
        · have hi := hz i
          rw [setWord_same] at hi
          rw [hi, present_zero] at hpr
          cases hpr
        · have := h.present
          rw [hz i, present_zero] at this
          cases this
      · rw [setWord_of_ne e]
  all_goals
    cases h with
    | ioFail h => rw [(swapOutPage_none h).2]
    | unaccess => rfl

theorem still_of_quiets (h : ReflTransGen (Quiet tk) m m') : Still m m' := by
  induction h with
  | refl => exact .refl _
  | tail _ h ih => exact ih.trans h.still

/-! ### The entries the scan looks at -/

theorem Mm.scanned_some (h : m.scanned tk n i = some (t, pt, w)) :
    tk n = some t ∧ Scanned tk m t pt i ∧ w = m.mem pt i := by
  unfold scanned at h
  cases ht : tk n with
  | none => simp [ht] at h
  | some t' =>
    simp only [ht] at h
    by_cases hno : t'.pgDir = none ∨ t'.pgDir = some kernelPgDir
    · simp [hno] at h
    rw [if_neg hno] at h
    push Not at hno
    obtain ⟨d, hd⟩ := Option.ne_none_iff_exists'.mp hno.1
    obtain ⟨pt', hp, h⟩ := Option.bind_eq_some_iff.mp h
    split at h
    · next hpu =>
      obtain ⟨rfl, rfl, rfl⟩ := h
      rw [Bool.and_eq_true] at hpu
      rw [hd] at hp hno
      exact ⟨rfl, ⟨⟨n, ht⟩, ⟨d, hd, fun e => hno.2 (by rw [e]), hp⟩, hpu.1, hpu.2⟩, rfl⟩
    · cases h

theorem Scanned.scanned (h : Scanned tk m t pt i) :
    ∃ n, m.scanned tk n i = some (t, pt, m.mem pt i) := by
  obtain ⟨n, hn⟩ := h.task
  obtain ⟨d, hd, hk, hp⟩ := h.dir
  refine ⟨n, ?_⟩
  simp [Mm.scanned, hn, hd, hk, hp, h.present, h.user]

theorem starved_iff : Starved tk m ↔ (∃ t pt i, Scanned tk m t pt i ∧ cow (m.mem pt i) = true) ∧
      ∀ t pt i, Scanned tk m t pt i → m.takeable t i (m.mem pt i) = false := by
  constructor
  · rintro ⟨⟨n, i, ⟨t, pt, w⟩, hx, hc⟩, hno⟩
    obtain ⟨-, hs, rfl⟩ := scanned_some hx
    refine ⟨⟨t, pt, i, hs, hc⟩, fun t pt i hs => ?_⟩
    obtain ⟨n, hn⟩ := hs.scanned
    exact hno n i _ hn
  · rintro ⟨⟨t, pt, i, hs, hc⟩, hno⟩
    obtain ⟨n, hn⟩ := hs.scanned
    refine ⟨⟨n, i, _, hn, hc⟩, fun n i ⟨t, pt, w⟩ hx => ?_⟩
    obtain ⟨-, hs, rfl⟩ := scanned_some hx
    exact hno t pt i hs

/-! ### Pages that are taken -/

theorem Mm.swapOutPage_isSome (hio : ∀ k, m.hdFault k = none)
    (hs : m.findSlot.isSome = true) : ∃ slot m₁, m.swapOutPage f = (some slot, m₁) := by
  obtain ⟨slot, hs⟩ := Option.isSome_iff_exists.mp hs
  cases ho : m.swapOutPage f with
  | mk r m₁ =>
    cases r with
    | some slot => exact ⟨slot, m₁, rfl⟩
    | none =>
      have hok : ∀ m₀ : Mm, m₀.hdFault = m.hdFault →
          (m₀.hdWriteSectors (slotLba slot) swapSlotSectors f).1 = true := fun m₀ h₀ => by
        unfold hdWriteSectors
        simp only [h₀, hio, Option.isNone_none]
      unfold swapOutPage swapAllocSlot at ho
      simp only [hs] at ho
      have hok := hok { m with swapMap := Function.update m.swapMap slot true } rfl
      generalize hdWriteSectors _ _ _ _ = x at ho hok
      obtain ⟨ok, m₂⟩ := x
      obtain rfl : ok = true := hok
      cases ho

/-- In the second round one of the passes takes a page that can be taken. -/
theorem scanPage_takeable (hs : Scanned tk m t pt i) (ht : m.takeable t i (m.mem pt i) = true)
    (hio : ∀ k, m.hdFault k = none) :
    ∃ pass < 3, ∀ s : Scan, Still m s.mm → ∀ k,
      Loop.Sat (fun _ => False) (fun _ => True) (scanPage 1 pass k t pt s i) := by
  unfold takeable at ht
  simp only [Bool.and_eq_true, Bool.not_eq_true', Bool.or_eq_true] at ht
  obtain ⟨hc, hwhy⟩ := ht
  have hpte : ∀ {s : Scan}, Still m s.mm → present (s.mm.mem pt i) = true ∧
      userBit (s.mm.mem pt i) = true ∧ cow (s.mm.mem pt i) = false ∧
      frameOf (s.mm.mem pt i) = frameOf (m.mem pt i) := fun h => by
    have e := h.words pt i
    rw [e.present, e.userBit, e.cow, e.frame]
    exact ⟨hs.present, hs.user, hc, rfl⟩
  rcases hwhy with (hz | htext) | hslot
  · refine ⟨0, by omega, fun s h k => ?_⟩
    obtain ⟨hp, hu, hc', hf⟩ := hpte h
    have hz' : s.mm.pageIsZero (frameOf (s.mm.mem pt i)) = true := by
      rw [hf]
      exact (h.zero _).mpr hz
    simp only [scanPage, hp, hu, hc', hz']
    exact .error trivial
  · refine ⟨1, by omega, fun s h k => ?_⟩
    obtain ⟨hp, hu, hc', -⟩ := hpte h
    simp only [scanPage, hp, hu, hc', htext]
    exact .error trivial
  refine ⟨2, by omega, fun s h k => ?_⟩
  obtain ⟨hp, hu, hc', -⟩ := hpte h
  have hfind : s.mm.findSlot = m.findSlot := by simp only [findSlot, h.swapMap]
  obtain ⟨slot, m₁, ho⟩ := swapOutPage_isSome (f := frameOf (s.mm.mem pt i))
    (fun k => by rw [h.hdFault, hio]) (by rw [hfind]; exact hslot)
  unfold scanPage
  rw [if_neg (by simp [hp, hu]), if_neg (by simp), if_neg (by simp), if_neg (by simp), if_pos ⟨rfl, hc'⟩, ho]
  dsimp only
  split
  · exact .error trivial
  · exact .error trivial

theorem Still.takeable (h : Still m m') :
    m'.takeable t i (m'.mem pt i) = m.takeable t i (m.mem pt i) := by
  have hfind : m'.findSlot = m.findSlot := by simp only [findSlot, h.swapMap]
  have hz : m'.pageIsZero (frameOf (m'.mem pt i)) = m.pageIsZero (frameOf (m.mem pt i)) := by
    rw [(h.words pt i).frame, Bool.eq_iff_iff]
    exact h.zero _
  simp only [Mm.takeable, (h.words pt i).cow, hz, hfind]

/-- A page that has been taken, and not by the fallback, could be taken. -/
theorem Takes.takeable (h : Takes tk m m') (hu : m'.nrUnmapped = m.nrUnmapped) :
    ∃ t pt i, Scanned tk m t pt i ∧ m.takeable t i (m.mem pt i) = true := by
  cases h with
  | @drop t pt i hs hc hwhy =>
    refine ⟨t, pt, i, hs, ?_⟩
    rcases hwhy with hz | ht
    · simp [takeable, hc, hz]
    · simp [takeable, hc, ht]
  | @swapOut m₁ t pt i slot hs hc ho =>
    have hslot := (swapOutPage_some ho).1
    exact ⟨t, pt, i, hs, by simp only [takeable, hc, hslot]; simp⟩
  | dropShare =>
    change m.nrUnmapped + 1 = m.nrUnmapped at hu
    omega

/-- What has been taken and not written to swap has left an empty entry. -/
theorem Takes.emptied (h : Takes tk m m') (hs : m'.swapMap = m.swapMap) :
    ∃ t pt i, Scanned tk m t pt i ∧ m'.mem = (m.setWord pt i 0#32).mem ∧ m.countFreePages ≤ m'.countFreePages := by
  cases h with
  | @drop t pt i hsc =>
    exact ⟨t, pt, i, hsc, freePage_mem _, countFreePages_freePage (m := m.setWord pt i 0#32) _⟩
  | @swapOut m₁ t pt i slot hsc hc ho =>
    obtain ⟨hf, -, -, e⟩ := swapOutPage_some ho
    have hs' : m₁.swapMap = m.swapMap :=
      (freePage_swapMap (m := m₁.setWord pt i (swapEntry slot)) _).symm.trans hs
    rw [e] at hs'
    have := congrFun hs' slot
    simp [(findSlot_some hf).2] at this
  | @dropShare t pt i hsc => exact ⟨t, pt, i, hsc, rfl, le_rfl⟩

/-! ### The fallback -/

theorem scanPage_fallback (hs : s.fallback ≠ none) :
    Loop.Sat (fun s => s.fallback ≠ none) (fun _ => True) (scanPage round pass k t pt s i) := by
  simp only [scanPage]
  split
  · exact .ok hs
  split
  · exact .ok hs
  split
  · exact .error trivial
  split
  · exact .error trivial
  split
  · split
    · exact .ok hs
    split
    · exact .error trivial
    · exact .error trivial
  split
  · exact .ok (by simp)
  · exact .ok hs

/-- In the second round a copy-on-write page is remembered. -/
theorem scanPage_cow (hs : Scanned tk m t pt i) (hc : cow (m.mem pt i) = true)
    (h : Still m s.mm) :
    Loop.Sat (fun s => s.fallback ≠ none) (fun _ => True) (scanPage 1 2 k t pt s i) := by
  have e := h.words pt i
  have hp : present (s.mm.mem pt i) = true := by rw [e.present, hs.present]
  have hu : userBit (s.mm.mem pt i) = true := by rw [e.userBit, hs.user]
  have hc' : cow (s.mm.mem pt i) = true := by rw [e.cow, hc]
  unfold scanPage
  rw [if_neg (by simp [hp, hu]), if_neg (by simp), if_neg (by simp), if_neg (by simp), if_neg (by simp [hc'])]
  split
  · exact .ok (by simp)
  · next hn => exact .ok fun hf => hn ⟨hc', hf⟩

/-- No task of the scan undoes what no entry undoes. -/
theorem scanTask_keeps
    (hP : ∀ {t pt s i}, P s → Loop.Sat P (fun _ => True) (scanPage round pass k t pt s i))
    (hs : P s) : Loop.Sat P (fun _ => True) (scanTask tk round pass s k) := by
  unfold scanTask
  split
  · exact .ok hs
  split
  · exact .ok hs
  split
  · exact .ok hs
  · exact foldlM_sat hs fun i _ s hs => hP hs

/-- In every pass the scan comes to every entry it looks at, unless it returns. -/
theorem scanTasks_reach {R : Scan → Prop} (h : ScanInv tk m s)
    (hR₀ : R s) (hn : tk n = some t) (hs : Scanned tk m t pt i)
    (hR : ∀ {k t pt s i}, R s → Loop.Sat R (fun _ => True) (scanPage round pass k t pt s i))
    (hP : ∀ {k t pt s i}, P s → Loop.Sat P (fun _ => True) (scanPage round pass k t pt s i))
    (hhit : ∀ {k s}, Still m s.mm → R s → Loop.Sat P (fun _ => True) (scanPage round pass k t pt s i)) :
    Loop.Sat (fun s => (ScanInv tk m s ∧ R s) ∧ P s) (PassRet tk m pass)
      ((List.range nrTasks).foldlM (scanTask tk round pass) s) := by
  refine foldlM_reach
    (a := (n.val + 64 - m.evictCursor % 64) % 64) (mem_range.mpr (Nat.mod_lt _ (by decide)))
    ⟨h, hR₀⟩ (fun _ _ s h => (scanTask_sat h.1).and (scanTask_keeps hR h.2))
    (fun _ _ s h => scanTask_keeps hP h) fun s h => ?_
  -- the task in slot `n` is visited
  have hst := still_of_quiets h.1.quiet
  have hv : s.mm.visited ((n.val + 64 - m.evictCursor % 64) % 64) = n := by
    apply Fin.ext
    show (s.mm.evictCursor + (n.val + 64 - m.evictCursor % 64) % 64) % 64 = n.val
    rw [hst.cursor]
    have := n.isLt
    omega
  obtain ⟨d, hd, hk, hpt⟩ := hs.dir
  have hpt' : s.mm.userPt (some d) = some pt := by rw [hst.words.userPt, hpt]
  unfold scanTask
  rw [hv, hn]
  simp only [hd]
  rw [if_neg (by simpa using hk), hpt']
  have hl := foldlM_reach
    (I := fun s => (ScanInv tk m s ∧ s.mm.userPt (some d) = some pt) ∧ R s)
    (f := scanPage round pass ((n.val + 64 - m.evictCursor % 64) % 64) t pt)
    (mem_finRange i) ⟨⟨h.1, hpt'⟩, h.2⟩
    (fun _ _ s' hs' => (scanPage_sat hs.task hd hk hs'.1).and (hR hs'.2))
    (fun _ _ s' hs' => hP hs') fun s' hs' => hhit (still_of_quiets hs'.1.1.quiet) hs'.2
  exact hl.mono (fun _ h => h.2) fun _ _ => trivial

/-- The scan comes to every entry it looks at, in every round and pass, unless it returns. -/
theorem scanAll_reach (hr : round < 2) (hp : pass < 3)
    (hn : tk n = some t) (hs : Scanned tk m t pt i)
    (hP : ∀ {round pass k t pt s i}, P s → Loop.Sat P (fun _ => True) (scanPage round pass k t pt s i))
    (hhit : ∀ {k s}, Still m s.mm → Loop.Sat P (fun _ => True) (scanPage round pass k t pt s i)) :
    Loop.Sat (fun s => ScanInv tk m s ∧ P s) (ScanRet tk m) (scanAll tk ⟨m, none⟩) := by
  have h₀ : ScanInv tk m ⟨m, none⟩ := ⟨.refl, fun _ _ h => by cases h⟩
  have htasks : ∀ {round pass s}, ScanInv tk m s → Loop.Sat (ScanInv tk m) (ScanRet tk m)
      ((range nrTasks).foldlM (scanTask tk round pass) s) := fun {round pass s} h =>
    (foldlM_sat h fun _ _ s h => scanTask_sat h).mono (fun _ h => h) fun _ h => ⟨pass, h⟩
  have hkeep : ∀ {round pass s}, P s → Loop.Sat P (fun _ => True)
      ((range nrTasks).foldlM (scanTask tk round pass) s) := fun h =>
    foldlM_sat h fun _ _ s h => scanTask_keeps hP h
  unfold scanAll
  refine foldlM_reach (mem_range.mpr hr) h₀
    (fun _ _ s h => foldlM_sat h fun _ _ s h => htasks h)
    (fun _ _ s h => foldlM_sat h fun _ _ s h => hkeep h) fun s h => ?_
  refine (foldlM_reach (mem_range.mpr hp) h
    (fun _ _ s h => htasks h) (fun _ _ s h => hkeep h) fun s h => ?_).mono
    (fun _ h => h.2) fun _ _ => trivial
  exact (scanTasks_reach h trivial hn hs (fun _ => .trivial) hP
    fun h _ => hhit h).mono (fun _ h => h.2) fun _ _ => trivial

theorem Mm.noteStarved_still (m : Mm) (tk : TaskTable) : Still m (m.noteStarved tk) := by
  obtain ⟨j, e, -⟩ := m.noteStarved_eq tk
  rw [e]
  exact ⟨fun _ _ => .refl _, fun _ => .rfl, rfl, rfl, rfl, rfl, rfl, rfl⟩

/-- **When the reclaimer falls back.**  It unmaps a copy-on-write page if it is called with
nothing else to take, and only then. -/
theorem tryToFreePage_nrUnmapped (tk : TaskTable) (hio : ∀ k, m.hdFault k = none) :
    (tryToFreePage tk m).2.nrUnmapped = m.nrUnmapped + if Starved tk m then 1 else 0 := by
  have hst₀ := m.noteStarved_still tk
  unfold tryToFreePage
  generalize m.noteStarved tk = m₀ at hst₀
  -- what the scan returns with has been taken by a pass
  have hret : ∀ {r}, ScanRet tk m₀ r → r.2.nrUnmapped = m.nrUnmapped ∧
      ∃ t pt i, Scanned tk m t pt i ∧ m.takeable t i (m.mem pt i) = true := by
    rintro r ⟨-, -, m₁, hq, ht, hu, -⟩
    have hst := hst₀.trans (still_of_quiets hq)
    obtain ⟨t, pt, i, hs, htk⟩ := ht.takeable hu
    rw [hst.takeable] at htk
    exact ⟨hu.trans hst.nrUnmapped, t, pt, i, hs.of_sameWords hst.words.symm, htk⟩
  by_cases htk : ∃ t pt i, Scanned tk m t pt i ∧ m.takeable t i (m.mem pt i) = true
  · obtain ⟨t, pt, i, hs, ht⟩ := htk
    rw [if_neg fun h => by rw [(starved_iff.mp h).2 t pt i hs] at ht; cases ht]
    obtain ⟨n, hn⟩ := hs.task
    have hs₀ := hs.of_sameWords hst₀.words
    rw [← hst₀.takeable] at ht
    obtain ⟨pass, hp, hhit⟩ := scanPage_takeable hs₀ ht (by rw [hst₀.hdFault]; exact hio)
    have hsat := scanAll_reach Nat.one_lt_two hp hn hs₀ False.elim
      fun h => hhit _ h _
    generalize scanAll tk ⟨m₀, none⟩ = r at hsat
    cases hsat with
    | ok h => exact h.2.elim
    | error h => exact (hret h).1
  by_cases hcow : ∃ t pt i, Scanned tk m t pt i ∧ cow (m.mem pt i) = true
  · have hst : Starved tk m := starved_iff.mpr ⟨hcow, fun t pt i hs =>
      Bool.eq_false_iff.mpr fun ht => htk ⟨t, pt, i, hs, ht⟩⟩
    obtain ⟨t, pt, i, hs, hc⟩ := hcow
    obtain ⟨n, hn⟩ := hs.task
    have hs₀ := hs.of_sameWords hst₀.words
    rw [← (hst₀.words pt i).cow] at hc
    have hsat := scanAll_reach Nat.one_lt_two (show 2 < 3 by omega) hn hs₀
      (fun h => scanPage_fallback h) fun h => scanPage_cow hs₀ hc h
    rw [if_pos hst]
    generalize scanAll tk ⟨m₀, none⟩ = r at hsat
    cases hsat with
    | error h => exact absurd (hret h).2 htk
    | @ok s h =>
      obtain ⟨⟨pt', i'⟩, hf⟩ := Option.ne_none_iff_exists'.mp h.2
      simp only [hf]
      exact congrArg (· + 1) (hst₀.trans (still_of_quiets h.1.quiet)).nrUnmapped
  · rw [if_neg fun h => hcow (starved_iff.mp h).1]
    have hsat := scanAll_sat tk m₀
    generalize scanAll tk ⟨m₀, none⟩ = r at hsat
    cases hsat with
    | error h => exact (hret h).1
    | @ok s h =>
      have hst := hst₀.trans (still_of_quiets h.quiet)
      cases hf : s.fallback with
      | none =>
        simp only [hf]
        exact hst.nrUnmapped
      | some x =>
        obtain ⟨t, hs, hc⟩ := h.fallback x.1 x.2 hf
        refine absurd ⟨t, x.1, x.2, hs.of_sameWords hst.words.symm, ?_⟩ hcow
        rwa [(hst.words x.1 x.2).cow] at hc

/-- What a starved call does. -/
theorem tryToFreePage_starved (hio : ∀ k, m.hdFault k = none) (hst : Starved tk m) :
    (tryToFreePage tk m).1 = true ∧ (tryToFreePage tk m).2.memMap = m.memMap ∧
      (tryToFreePage tk m).2.swapMap = m.swapMap := by
  have hu := tryToFreePage_nrUnmapped tk hio
  rw [if_pos hst] at hu
  obtain ⟨m₁, hq, hr⟩ := tryToFreePage_spec tk m
  have h₁ := (m.noteStarved_still tk).trans (still_of_quiets hq)
  rcases hr with e | ⟨h₂, ht⟩
  · rw [e, h₁.nrUnmapped] at hu
    omega
  refine ⟨h₂, ?_⟩
  by_cases hsame : (tryToFreePage tk m).2.nrUnmapped = m₁.nrUnmapped
  · rw [hsame, h₁.nrUnmapped] at hu
    omega
  generalize (tryToFreePage tk m).2 = m₂ at ht hsame
  cases ht with
  | drop => exact absurd (freePage_nrUnmapped _) hsame
  | swapOut _ _ ho =>
    refine absurd ((freePage_nrUnmapped _).trans ?_) hsame
    rw [(swapOutPage_some ho).2.2.2]
    rfl
  | dropShare => exact ⟨h₁.memMap, h₁.swapMap⟩

/-! ### Text pages go before swap -/

/-- The scan sets no Accessed bit. -/
theorem scanPage_unaccessed {t' : Task} {pt' : Frame} {i' : Ix}
    (h : accessed (s.mm.mem pt i) = false) :
    Loop.Sat (fun s => accessed (s.mm.mem pt i) = false) (fun _ => True)
      (scanPage round pass k t' pt' s i') := by
  simp only [scanPage]
  split
  · exact .ok h
  split
  · refine .ok ?_
    by_cases e : pt = pt' ∧ i = i'
    · obtain ⟨rfl, rfl⟩ := e
      rw [setWord_same, accessed_clear]
    · rwa [setWord_of_not e]
  split
  · exact .error trivial
  split
  · exact .error trivial
  split
  · have hm := swapOutPage_mem (m := s.mm) (f := frameOf (s.mm.mem pt' i'))
    split
    · next m₁ ho =>
      rw [ho] at hm
      refine .ok ?_
      rw [show m₁.mem = s.mm.mem from hm]
      exact h
    · split
      · exact .error trivial
      · exact .error trivial
  split
  · exact .ok h
  · exact .ok h

/-- A private page of a non-writable region: the first pass clears its Accessed bit, the second
takes it. -/
theorem scanAll_text (hs : Scanned tk m t pt i) (hc : cow (m.mem pt i) = false)
    (ht : isCleanText t (userVa i) = true) :
    Loop.Sat (fun _ => False) (fun r => ∃ pass, pass ≠ 2 ∧ PassRet tk m pass r)
      (scanAll tk ⟨m, none⟩) := by
  obtain ⟨n, hn⟩ := hs.task
  have h₀ : ScanInv tk m ⟨m, none⟩ := ⟨.refl, fun _ _ h => by cases h⟩
  have hpte : ∀ {s : Scan}, Still m s.mm → present (s.mm.mem pt i) = true ∧
      userBit (s.mm.mem pt i) = true ∧ cow (s.mm.mem pt i) = false := fun h => by
    have e := h.words pt i
    rw [e.present, e.userBit, e.cow]
    exact ⟨hs.present, hs.user, hc⟩
  unfold scanAll
  rw [show range 2 = [0, 1] from rfl, foldlM_cons]
  refine Loop.Sat.bind (I := fun _ => False) ?_ fun _ h => h.elim
  rw [show range 3 = [0, 1, 2] from rfl, foldlM_cons]
  refine Loop.Sat.bind (I := fun s => ScanInv tk m s ∧ accessed (s.mm.mem pt i) = false) ?_
    fun s h => ?_
  · refine (scanTasks_reach (P := fun s => accessed (s.mm.mem pt i) = false) h₀
      trivial hn hs (fun _ => .trivial) (fun h => scanPage_unaccessed h) fun {k s} hst _ => ?_).mono
      (fun _ h => ⟨h.1.1, h.2⟩) fun _ h => ⟨0, by omega, h⟩
    obtain ⟨hp, hu, -⟩ := hpte hst
    by_cases ha : accessed (s.mm.mem pt i) = true
    · simp only [scanPage, hp, hu, ha]
      refine .ok ?_
      rw [setWord_same, accessed_clear]
    · exact scanPage_unaccessed (by simpa using ha)
  · rw [foldlM_cons]
    refine Loop.Sat.bind (I := fun _ => False) ?_ fun _ h => h.elim
    refine (scanTasks_reach (R := fun s => accessed (s.mm.mem pt i) = false)
      h.1 h.2 hn hs (fun h => scanPage_unaccessed h) False.elim fun {k s} hst ha => ?_).mono
      (fun _ h => h.2) fun _ h => ⟨1, by omega, h⟩
    obtain ⟨hp, hu, hc'⟩ := hpte hst
    simp only [scanPage, hp, hu, hc', ha, ht]
    exact .error trivial

/-- **A private page of a non-writable region is never written to swap**: as long as there is
one, the reclaimer drops a page. -/
theorem tryToFreePage_text (hs : Scanned tk m t pt i) (hc : cow (m.mem pt i) = false)
    (ht : isCleanText t (userVa i) = true) :
    (tryToFreePage tk m).1 = true ∧ (tryToFreePage tk m).2.swapMap = m.swapMap ∧
      (tryToFreePage tk m).2.nrUnmapped = m.nrUnmapped := by
  have hst₀ := m.noteStarved_still tk
  unfold tryToFreePage
  generalize m.noteStarved tk = m₀ at hst₀
  have hsat := scanAll_text (hs.of_sameWords hst₀.words) (by rw [(hst₀.words pt i).cow, hc]) ht
  generalize scanAll tk ⟨m₀, none⟩ = r at hsat
  cases hsat with
  | ok h => exact h.elim
  | error h =>
    obtain ⟨pass, hp, hr, m₁, hq, -, hu, hm⟩ := h
    have hst := hst₀.trans (still_of_quiets hq)
    exact ⟨hr, (hm hp).trans hst.swapMap, hu.trans hst.nrUnmapped⟩

end Linux001
