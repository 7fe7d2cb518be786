import Linux001.Fs.InodeTableInv

/-!
# Fs — what a step on the inode table leaves alone

A step of one task changes nothing that the other tasks hold, and the count of a slot only if the slot is
free or the task has to do with it (`Aside.step`).
-/

namespace Linux001

open Function InodeTab

namespace InodeTab

variable {nt : ℕ} {s s₁ s₂ : InodeTab nt} {t t' : Fin nt} {v : InodeRef} {k : InoKey} {R : InodeRef → Prop}
  {ok : Bool} {l : List InodeRef}

/-- From `s₁` to `s₂` nothing has changed for the other tasks, nor the count of a slot outside `R`. -/
structure Aside (R : InodeRef → Prop) (t : Fin nt) (s₁ s₂ : InodeTab nt) : Prop where
  pc : ∀ t', t' ≠ t → s₂.pc t' = s₁.pc t'
  holds : ∀ t', t' ≠ t → s₂.holds t' = s₁.holds t'
  count : ∀ a, ¬ R a → (s₂.slot a).iCount = (s₁.slot a).iCount

theorem Aside.refl : Aside R t s s := ⟨fun _ _ => rfl, fun _ _ => rfl, fun _ _ => rfl⟩

theorem Aside.trans {s₃ : InodeTab nt} (h : Aside R t s₁ s₂) (h' : Aside R t s₂ s₃) : Aside R t s₁ s₃ :=
  ⟨fun t' e => (h'.pc t' e).trans (h.pc t' e), fun t' e => (h'.holds t' e).trans (h.holds t' e),
    fun a ha => (h'.count a ha).trans (h.count a ha)⟩

theorem Aside.setPc {p : IPc} : Aside R t s (s.setPc t p) :=
  ⟨fun _ e => update_of_ne e _ _, fun _ _ => rfl, fun _ _ => rfl⟩

theorem Aside.give : Aside R t s (s.give t v k) :=
  ⟨fun _ e => update_of_ne e _ _, fun _ e => update_of_ne e _ _, fun _ _ => rfl⟩

theorem Aside.setSlot {m : MInode} (hv : R v ∨ m.iCount = (s.slot v).iCount) : Aside R t s (s.setSlot v m) := by
  refine ⟨fun _ _ => rfl, fun _ _ => rfl, fun a ha => ?_⟩
  by_cases e : a = v
  · subst e
    rcases hv with hv | hv
    · exact absurd hv ha
    · simp [setSlot, hv]
  · simp [InodeTab.setSlot, e]

/-- Locks, and what has been loaded, are nobody's. -/
theorem Aside.mark {f : InodeRef → Bool} {g : InodeRef → Option InoKey} {d : InoKey → DInode} (h : Aside R t s₁ s₂) :
    Aside R t s₁ { s₂ with lock := f, loaded := g, disk := d } :=
  ⟨h.pc, h.holds, h.count⟩

theorem Aside.claim (hv : R v) : Aside R t s (s.claim t v k) := by
  unfold InodeTab.claim
  split
  · exact ((Aside.setSlot (.inl hv)).trans .give).mark
  split
  · exact ((Aside.setSlot (.inl hv)).trans .setPc).mark
  · exact ((Aside.setSlot (.inl hv)).trans .setPc).mark

theorem Aside.endLoad (hv : R v) : Aside R t s (s.endLoad t v k ok) := by
  unfold InodeTab.endLoad
  cases ok with
  | true =>
    have h₁ : Aside R t s (s.setSlot v ((s.slot v).setBody (s.disk (k.place (s.slot v).key)))) := .setSlot (.inl hv)
    simp only [if_true]
    split
    · exact h₁.mark.trans .setPc
    · exact h₁.mark.trans .give
  | false =>
    have h₁ : Aside R t s (s.setSlot v { s.slot v with iDev := 0#16, iCount := 0#8 }) := .setSlot (.inl hv)
    simp only [Bool.false_eq_true, if_false]
    split
    · exact h₁.mark.trans .setPc
    · exact h₁.mark.trans .give

theorem Aside.igetMiss (hfree : ∀ v, s.freeSlot = some v → R v) : Aside R t s (s.igetMiss t k) := by
  unfold InodeTab.igetMiss
  split
  · exact .setPc
  next v hv =>
  split
  · exact .setPc
  · exact .claim (hfree v hv)

theorem Aside.igetScan (hfree : ∀ v, s.freeSlot = some v → R v)
    (hk : ∀ v, s.key v = k → R v) : Aside R t s (s.igetScan t k l) := by
  unfold InodeTab.igetScan
  split
  · exact .igetMiss hfree
  next v hv =>
  split
  · exact .setPc
  · have := List.find?_some hv
    exact (Aside.setSlot (.inl (hk v (of_decide_eq_true this)))).trans .give

theorem Aside.syncScan {dev : BitVec 16} : Aside R t s (s.syncScan t dev l) := by
  unfold InodeTab.syncScan
  split <;> exact .setPc

theorem Aside.afterWrite {c : IKont} (hv : ∀ k, c = .claim k → R v) : Aside R t s (s.afterWrite t v c) := by
  cases c with
  | claim k => exact .claim (hv k rfl)
  | sync dev => exact .syncScan

/-- The slots whose counts a step may change: a free one, the one that it looks for, one that the task
holds, loads or writes back for reuse. -/
def Reach (s : InodeTab nt) (t : Fin nt) (op : InoOp) (v : InodeRef) : Prop :=
  (s.slot v).iCount = 0#8 ∨ s.seeks t op = some (s.key v) ∨ (∃ k, (v, k) ∈ s.holds t) ∨
    (∃ k, (s.pc t).loading = some (v, k)) ∨ ∃ k, (s.pc t).victim = some (v, k)

theorem Aside.resume : Aside (s.Reach t (.resume ok)) t s ((s.resume t ok).getD s) := by
  unfold InodeTab.resume
  cases hp : s.pc t with
  | idle => exact .refl
  | wait v k =>
    have hk : ∀ w, s.key w = k → s.Reach t (.resume ok) w := fun w hw =>
      .inr (.inl (by simp [seeks, hp, hw]))
    simp only
    split
    · exact .refl
    split
    · exact .igetScan (fun w hw => .inl (freeSlot_some hw)) hk
    · next hne => exact (Aside.setSlot (.inl (hk v (not_not.mp hne)))).trans .give
  | write v st c =>
    have hv : ∀ k, c = .claim k → s.Reach t (.resume ok) v := fun k e =>
      .inr (.inr (.inr (.inr ⟨k, by rw [hp, e]; rfl⟩)))
    cases st with
    | fetch k =>
      simp only
      split
      · exact .setPc
      · exact .afterWrite hv
    | put k d =>
      have h₁ : Aside (s.Reach t (.resume ok)) t s
          (if ok then { s with disk := update s.disk k d } else s) := by
        split
        · exact Aside.refl.mark
        · exact .refl
      simp only [Option.getD_some]
      generalize (if ok then { s with disk := update s.disk k d } else s) = s₁ at h₁ ⊢
      have h₂ : Aside (s.Reach t (.resume ok)) t s₁ (s₁.setSlot v { s₁.slot v with iDirt := false }) :=
        .setSlot (.inr rfl)
      exact (h₁.trans h₂).trans (.afterWrite hv)
  | load v k => exact .endLoad (.inr (.inr (.inr (.inl ⟨k, by rw [hp]; rfl⟩))))

/-- **What a step leaves alone.** -/
theorem Aside.step {op : InoOp} : Aside (s.Reach t op) t s (s.step t op) := by
  cases hp : s.pc t with
  | idle =>
    have hfree : ∀ v, s.freeSlot = some v → s.Reach t op v := fun v hv => .inl (freeSlot_some hv)
    cases op with
    | resume ok => exact .resume
    | iget k =>
      simp only [InodeTab.step, hp]
      exact .igetScan hfree fun v hv => .inr (.inl (by simp [InodeTab.seeks, hp, hv]))
    | iput v k =>
      simp only [InodeTab.step, hp]
      split
      · next hv =>
        have h₁ : Aside (s.Reach t (.iput v k)) t s (s.iput v) := by
          have hr : s.Reach t (.iput v k) v := .inr (.inr (.inl ⟨k, hv⟩))
          unfold iput
          simp only
          split <;> exact .setSlot (.inl hr)
        exact ⟨h₁.pc, fun _ e => update_of_ne e _ _, h₁.count⟩
      · exact .refl
    | empty =>
      simp only [InodeTab.step, hp]
      unfold InodeTab.getEmptyInode
      split
      · exact .refl
      · next v hv => exact ((Aside.setSlot (.inl (hfree v hv))).trans .give).mark
    | sync dev =>
      simp only [InodeTab.step, hp]
      exact .syncScan
    | modify v k d =>
      simp only [InodeTab.step, hp]
      split
      · exact .setSlot (.inr rfl)
      · exact .refl
  | wait | write | load =>
    cases op with
    | resume ok => exact .resume
    | iget | iput | empty | sync | modify =>
      simp only [InodeTab.step, hp]
      exact .refl

end InodeTab

end Linux001
