import Linux001.Kernel.SignalMask

/-!
# Kernel — what `sigreturn` resumes

There is one `sigreturn_frame` for all tasks and all depths, and one saved mask for a task.  So a
task resumes its own context as long as no other task enters a handler while its own is running
(`sigreturn_resumes_own`), and the mask it had as long as it does not enter a second one either
(`sigreturn_unwinds`).  Otherwise it resumes whatever was delivered last
(`sigreturn_resumes_other`, `nested_sigreturn_lost`).

`step_moves` says what one operation does to the frame, to the saved masks and to the record of
running handlers; everything else is derived from it.
-/

namespace Linux001

open Function SigTab

variable {s s' s₁ : SigTab} {n n' k : Slot} {t : Task} {f : UFrame} {ops : List SigOp}

/-! ### What an operation does to the saved contexts -/

/-- Only the tasks, their actions and the masks that are in force or on hold have changed. -/
def Tame (s s' : SigTab) : Prop := ∃ T B W P A M, s' = { s with
  task := T, blocked := B, suspendMask := W, suspendPending := P, sa := A, saMask := M }

namespace Tame

theorem refl (s : SigTab) : Tame s s := ⟨_, _, _, _, _, _, rfl⟩

theorem setTask (s : SigTab) (n : Slot) (t : Task) : Tame s (s.setTask n t) := ⟨_, _, _, _, _, _, rfl⟩

theorem restoreSuspendMask (s : SigTab) (n : Slot) : Tame s (s.restoreSuspendMask n) := by
  unfold SigTab.restoreSuspendMask
  split <;> exact ⟨_, _, _, _, _, _, rfl⟩

theorem resetHandler (s : SigTab) (n : Slot) (t : Task) (sig : Fin 32) :
    Tame s (s.resetHandler n t sig) := by
  unfold SigTab.resetHandler
  split <;> exact ⟨_, _, _, _, _, _, rfl⟩

theorem sysSignal (s : SigTab) (n : Slot) (t : Task) (sig : ℤ) (h : Word) :
    Tame s (sysSignal s n t sig h).2 := by
  unfold Linux001.sysSignal
  split
  · exact refl s
  · split <;> exact ⟨_, _, _, _, _, _, rfl⟩

theorem sysSigaction (s : SigTab) (n : Slot) (t : Task) (sig : ℤ)
    (act : Option (Word × Word × Word)) : Tame s (sysSigaction s n t sig act).2 := by
  unfold Linux001.sysSigaction
  split
  · exact refl s
  split
  · exact refl s
  · split_ifs <;> exact ⟨_, _, _, _, _, _, rfl⟩

theorem sysSigprocmask (s : SigTab) (n : Slot) (how : ℤ) (set : Option Word) :
    Tame s (sysSigprocmask s n how set).2 := by
  unfold Linux001.sysSigprocmask
  split
  · exact refl s
  · split_ifs <;> exact ⟨_, _, _, _, _, _, rfl⟩

theorem post (s : SigTab) (n : Slot) (sig : Fin 32) : Tame s (s.post n sig) := by
  unfold SigTab.post
  split <;> exact ⟨_, _, _, _, _, _, rfl⟩

end Tame

/-- Nothing that `sigreturn` reads has changed. -/
structure Same (s s' : SigTab) : Prop where
  frame : s'.sigreturnFrame = s.sigreturnFrame
  last : s'.last = s.last
  entered : s'.entered = s.entered
  running : s'.running = s.running
  mask : s'.handlerMask = s.handlerMask
  saved : s'.handlerMaskSaved = s.handlerMaskSaved

namespace Same

theorem refl (s : SigTab) : Same s s := ⟨rfl, rfl, rfl, rfl, rfl, rfl⟩

theorem trans (h : Same s s₁) (h' : Same s₁ s') : Same s s' :=
  ⟨h'.frame.trans h.frame, h'.last.trans h.last, h'.entered.trans h.entered,
    h'.running.trans h.running, h'.mask.trans h.mask, h'.saved.trans h.saved⟩

theorem of_tame (h : Tame s s') : Same s s' := by
  obtain ⟨_, _, _, _, _, _, rfl⟩ := h
  exact ⟨rfl, rfl, rfl, rfl, rfl, rfl⟩

end Same

/-- A task's handlers are dropped: all of them when its slot is given up or taken, one at a
`sigreturn`.  Its saved mask is then used up. -/
structure Drops (n : Slot) (s s' : SigTab) : Prop where
  frame : s'.sigreturnFrame = s.sigreturnFrame
  last : s'.last = s.last
  entered : s'.entered = s.entered
  running : s'.running n = [] ∨ s'.running n = (s.running n).tail
  others : ∀ k, k ≠ n → s'.running k = s.running k ∧ s'.handlerMask k = s.handlerMask k ∧
    s'.handlerMaskSaved k = s.handlerMaskSaved k

/-- A handler is to be entered. -/
def Enters (n : Slot) (s s' : SigTab) : Prop :=
  ∃ s₁ t sig f, Same s s₁ ∧ Same (enterHandler s₁ n t sig f).1 s'

/-- What an operation does: it may drop handlers of one task, and then enter one. -/
def Moves (s s' : SigTab) : Prop :=
  ∃ s₁, (Same s s₁ ∨ ∃ n, Drops n s s₁) ∧ (Same s₁ s' ∨ ∃ n, Enters n s₁ s')

theorem Moves.of_same (h : Same s s') : Moves s s' := ⟨s, .inl (.refl s), .inl h⟩

theorem fork_drops (s : SigTab) (n n' : Slot) (t : Task) : Drops n' s (s.fork n n' t) :=
  ⟨rfl, rfl, rfl, .inl (update_self ..), fun _ hk =>
    ⟨update_of_ne hk .., update_of_ne hk .., update_of_ne hk ..⟩⟩

theorem Drops.same (h : Drops n s s₁) (h' : Same s₁ s') : Drops n s s' :=
  ⟨h'.frame.trans h.frame, h'.last.trans h.last, h'.entered.trans h.entered, by rw [h'.running]; exact h.running,
    fun k hk => by rw [h'.running, h'.mask, h'.saved]; exact h.others k hk⟩

/-- A task that exits drops what is left of its handlers. -/
theorem leave_drops (h : Same s s₁ ∨ Drops n s s₁) : Drops n s (s₁.leave n) := by
  rcases h with h | h
  · exact ⟨h.frame, h.last, h.entered, .inl (update_self ..), fun k hk =>
      ⟨(update_of_ne hk ..).trans (congrFun h.running k), congrFun h.mask k, congrFun h.saved k⟩⟩
  · exact ⟨h.frame, h.last, h.entered, .inl (update_self ..), fun k hk =>
      ⟨(update_of_ne hk ..).trans (h.others k hk).1, (h.others k hk).2⟩⟩

/-- `do_signal`, after the call has dropped a handler or not. -/
theorem Moves.rule (s : SigTab) (n : Slot) (f : UFrame) :
    SigRule n f (fun s₁ => Same s s₁ ∨ Drops n s s₁) fun r => Moves s (SigTab.finish n f r) where
  task h _ _ := h.imp (·.trans (.of_tame (.setTask ..))) (·.same (.of_tame (.setTask ..)))
  restore h := h.imp (·.trans (.of_tame (.restoreSuspendMask ..))) (·.same (.of_tame (.restoreSuspendMask ..)))
  done {s₁} h := ⟨s₁, h.imp id (⟨n, ·⟩), .inl ⟨rfl, rfl, rfl, rfl, rfl, rfl⟩⟩
  enter {s₁ t sig} h _ _ :=
    ⟨s₁, h.imp id (⟨n, ·⟩), .inr ⟨n, s₁, t, sig, f, .refl _, ⟨rfl, rfl, rfl, rfl, rfl, rfl⟩⟩⟩
  exit _ h := ⟨_, .inr ⟨n, leave_drops h⟩, .inl (.refl _)⟩
  stop {s₁} _ h := ⟨s₁, h.imp id (⟨n, ·⟩), .inl ⟨rfl, rfl, rfl, rfl, rfl, rfl⟩⟩

theorem ret_moves (h : Same s s₁ ∨ Drops n s s₁) : Moves s (s₁.ret n f) :=
  (Moves.rule s n f).ret id h fun _ => ⟨s₁, h.imp id (⟨n, ·⟩), .inl (.refl _)⟩

/-- A `sigreturn` drops the handler that returns. -/
theorem sysSigreturn_drops (s : SigTab) (n : Slot) (f : UFrame) :
    Drops n s (sysSigreturn s n f).1 := by
  have h : Drops n s
      { s.sigreturnRestoreMask n with running := update s.running n (s.running n).tail } := by
    unfold sigreturnRestoreMask
    split
    · exact ⟨rfl, rfl, rfl, .inr (update_self ..), fun k hk =>
        ⟨update_of_ne hk .., rfl, update_of_ne hk ..⟩⟩
    · exact ⟨rfl, rfl, rfl, .inr (update_self ..), fun k hk =>
        ⟨update_of_ne hk .., rfl, rfl⟩⟩
  unfold sysSigreturn
  simp only
  split <;> exact h

theorem call_moves (s : SigTab) (n : Slot) (t : Task) (f : UFrame) (c : Call) :
    Moves s (s.call n t f c) := by
  cases c with
  | signal sig h => exact ret_moves (.inl (.of_tame (.sysSignal ..)))
  | sigaction sig act => exact ret_moves (.inl (.of_tame (.sysSigaction ..)))
  | sigprocmask how set => exact ret_moves (.inl (.of_tame (.sysSigprocmask ..)))
  | sigsuspend mask => exact .of_same ⟨rfl, rfl, rfl, rfl, rfl, rfl⟩
  | sigreturn =>
    have h := sysSigreturn_drops s n f
    unfold call
    generalize sysSigreturn s n f = r at h
    obtain ⟨s₁, _ | f'⟩ := r
    · exact ⟨s₁, .inr ⟨n, h⟩, .inl ⟨rfl, rfl, rfl, rfl, rfl, rfl⟩⟩
    · exact ret_moves (.inr h)
  | other r => exact ret_moves (.inl (.refl s))

/-- **What one operation does to the saved contexts.** -/
theorem step_moves (s : SigTab) (op : SigOp) : Moves s (s.step op) :=
  step_rule (.of_same (.refl s)) (fun _ _ => call_moves ..) (fun _ => ret_moves (.inl (.refl s)))
    (fun _ => ret_moves (.inl ⟨rfl, rfl, rfl, rfl, rfl, rfl⟩))
    (fun _ => (Moves.rule s _ _).sigLoop _ (.inl (.refl s))) (.of_same (.of_tame (.post ..)))
    (fun _ _ => ⟨_, .inr ⟨_, fork_drops ..⟩, .inl (.refl _)⟩)
    ⟨_, .inr ⟨_, leave_drops (.inl (.refl s))⟩, .inl (.refl _)⟩

/-! ### Entering a handler -/

/-- A handler of the task in slot `n` is to be entered from the frame `f`; unless
`deliver_signal` refuses, `sigreturn_frame` is then what `f` was. -/
structure Entered (n : Slot) (f : UFrame) (prev : Word) (s s' : SigTab) : Prop where
  entered : s'.entered = update s.entered n (s.entered n + 1)
  mask : s'.handlerMask = update s.handlerMask n prev
  saved : s'.handlerMaskSaved = update s.handlerMaskSaved n true
  frame : (frameOk f.esp = true ∧ s'.sigreturnFrame.magic = sigframeMagic ∧
      s'.sigreturnFrame.retaddr = userSigreturnEntry ∧ s'.sigreturnFrame.regs = f ∧
      s'.last = update s.last n f ∧
      s'.running = update s.running n (⟨f, prev, s'.entered n⟩ :: s.running n)) ∨
    (s'.sigreturnFrame = s.sigreturnFrame ∧ s'.last = s.last ∧ s'.running = s.running)

theorem Enters.entered (h : Enters n s s') : ∃ f prev, Entered n f prev s s' := by
  obtain ⟨s₁, t, sig, f, h₁, h₂⟩ := h
  have h₃ := h₁.trans ((Same.of_tame (.resetHandler s₁ n t sig)).trans (.of_tame (.restoreSuspendMask _ n)))
  refine ⟨f, ((s₁.resetHandler n t sig).restoreSuspendMask n).blocked n, ?_⟩
  unfold enterHandler at h₂
  generalize (s₁.resetHandler n t sig).restoreSuspendMask n = s₂ at h₂ h₃
  unfold deliverSignal at h₂
  split at h₂
  · next hf =>
    refine ⟨h₂.entered.trans ?_, h₂.mask.trans ?_, h₂.saved.trans ?_, .inl ⟨hf, ?_, ?_, ?_,
      h₂.last.trans ?_, h₂.running.trans ?_⟩⟩
    · rw [← h₃.entered]; rfl
    · rw [← h₃.mask]; rfl
    · rw [← h₃.saved]; rfl
    · rw [h₂.frame]
    · rw [h₂.frame]
    · rw [h₂.frame]
    · rw [← h₃.last]; rfl
    · rw [h₂.entered, ← h₃.running]; rfl
  · refine ⟨h₂.entered.trans ?_, h₂.mask.trans ?_, h₂.saved.trans ?_,
      .inr ⟨h₂.frame.trans h₃.frame, h₂.last.trans h₃.last, h₂.running.trans h₃.running⟩⟩
    · rw [← h₃.entered]; rfl
    · rw [← h₃.mask]; rfl
    · rw [← h₃.saved]; rfl

theorem Drops.running_ne (h : Drops n s s') (hk : s'.running k ≠ []) : s.running k ≠ [] := by
  by_cases e : k = n
  · subst e
    rcases h.running with hr | hr
    · exact absurd hr hk
    intro hz
    rw [hr, hz] at hk
    exact hk rfl
  · rw [(h.others k e).1] at hk
    exact hk

/-- **The rule of one operation.** What is kept when nothing happens to the saved contexts and when
a handler is left is kept by every operation, if it is kept by the entering of a handler. -/
theorem Moves.keeps {P : SigTab → Prop} (hm : Moves s s') (h : P s)
    (same : ∀ {s s'}, P s → Same s s' → P s') (drops : ∀ {n s s'}, P s → Drops n s s' → P s')
    (enters : ∀ n f prev s₁, P s₁ → (∀ k, s.running k = [] → s₁.running k = []) →
      Entered n f prev s₁ s' → s'.entered n ≠ s.entered n → P s') : P s' := by
  obtain ⟨s₁, h₁, h₂⟩ := hm
  have hp₁ : P s₁ := by
    rcases h₁ with h₁ | ⟨n, h₁⟩
    · exact same h h₁
    · exact drops h h₁
  have hent : s₁.entered = s.entered := by
    rcases h₁ with h₁ | ⟨n, h₁⟩
    · exact h₁.entered
    · exact h₁.entered
  have hrun : ∀ k, s.running k = [] → s₁.running k = [] := by
    intro k hk
    by_contra hk'
    rcases h₁ with h₁ | ⟨n, h₁⟩
    · rw [h₁.running] at hk'
      exact hk' hk
    · exact h₁.running_ne hk' hk
  rcases h₂ with h₂ | ⟨n, h₂⟩
  · exact same hp₁ h₂
  obtain ⟨f, prev, he⟩ := h₂.entered
  refine enters n f prev s₁ hp₁ hrun he ?_
  rw [he.entered, hent, update_self]
  omega

/-- A stack pointer that `deliver_signal` accepts is one that `sys_sigreturn` accepts. -/
theorem frameOk_range {esp : Word} (h : frameOk esp = true) :
    userStackFloor ≤ esp ∧ esp < userWindowTop := by
  unfold frameOk at h
  simp only [decide_eq_true_eq, not_or, BitVec.slt_iff_toInt_lt, not_lt] at h
  obtain ⟨h₁, h₂, -⟩ := h
  have hf : userStackFloor.toInt = 0x08300000 := by decide
  have ht : userStackTop.toInt = 0x083FF000 := by decide
  rw [hf] at h₁
  rw [ht] at h₂
  have hlt := esp.isLt
  rw [BitVec.toInt_eq_toNat_cond] at h₁ h₂
  simp only [userStackFloor, userWindowTop, BitVec.le_def, BitVec.lt_def, BitVec.toNat_ofNat]
  split at h₁ <;> omega

/-! ### A task resumes its own context -/

/-- A frame that `sys_sigreturn` is willing to go back to: Ring3's selectors, an instruction
pointer and an aligned stack. -/
def UFrame.Resumable (f : UFrame) : Prop :=
  f.eip ≠ 0#32 ∧ f.cs = userCs ∧ f.ss = userDs ∧ f.esp &&& 3#32 = 0#32

instance : DecidablePred UFrame.Resumable := fun f =>
  inferInstanceAs (Decidable (f.eip ≠ 0#32 ∧ f.cs = userCs ∧ f.ss = userDs ∧ f.esp &&& 3#32 = 0#32))

/-- `sys_sigreturn` would go back to `f`. -/
structure Resumes (s : SigTab) (f : UFrame) : Prop where
  magic : s.sigreturnFrame.magic = sigframeMagic
  retaddr : s.sigreturnFrame.retaddr = userSigreturnEntry
  regs : s.sigreturnFrame.regs = f
  ok : f.Resumable
  range : userStackFloor ≤ f.esp ∧ f.esp < userWindowTop

theorem Resumes.congr (h : Resumes s f) (e : s'.sigreturnFrame = s.sigreturnFrame) : Resumes s' f :=
  ⟨by rw [e, h.magic], by rw [e, h.retaddr], by rw [e, h.regs], h.ok, h.range⟩

theorem Resumes.sysSigreturn (h : Resumes s f) (n : Slot) (g : UFrame) :
    (sysSigreturn s n g).2 = some f := by
  unfold Linux001.sysSigreturn
  simp only
  rw [h.regs, if_pos ⟨h.magic, h.retaddr, h.ok.1, h.ok.2.1, h.ok.2.2.1, h.ok.2.2.2, h.range.1, h.range.2⟩]

/-- `sigreturn_frame` belongs to every task that is in a handler. -/
def Own (s : SigTab) : Prop := ∀ n, s.running n ≠ [] → Resumes s (s.last n)

/-- A handler is entered only while no other task is in one, and from a frame that can be gone
back to. -/
def Alone (s s' : SigTab) : Prop :=
  ∀ n, s'.entered n ≠ s.entered n → (∀ k, k ≠ n → s.running k = []) ∧ (s'.last n).Resumable

/-- In every step of the run. -/
def EachStep (P : SigTab → SigTab → Prop) (s : SigTab) : List SigOp → Prop
  | [] => True
  | op :: ops => P s (s.step op) ∧ EachStep P (s.step op) ops

theorem Own.same (h : Own s) (hs : Same s s') : Own s' := fun n hn => by
  rw [hs.running] at hn
  rw [hs.last]
  exact (h n hn).congr hs.frame

theorem Own.drops (h : Own s) (hs : Drops n s s') : Own s' := fun k hk => by
  rw [hs.last]
  exact (h k (hs.running_ne hk)).congr hs.frame

theorem Own.moves (h : Own s) (hm : Moves s s') (ha : Alone s s') : Own s' := by
  refine hm.keeps h Own.same Own.drops fun n f prev s₁ ho₁ hrun he hne => ?_
  obtain ⟨hothers, hok⟩ := ha n hne
  intro k hk
  rcases he.frame with ⟨hf, hmagic, hret, hregs, hlast, hr⟩ | ⟨hfr, hlast, hr⟩
  · by_cases e : k = n
    · subst e
      have hl : s'.last k = f := by rw [hlast, update_self]
      rw [hl] at hok ⊢
      exact ⟨hmagic, hret, hregs, hok, frameOk_range hf⟩
    · rw [hr, update_of_ne e] at hk
      exact absurd (hrun k (hothers k e)) hk
  · rw [hr] at hk
    rw [hlast]
    exact (ho₁ k hk).congr hfr

theorem Own.run (h : Own s) (ha : EachStep Alone s ops) : Own (s.run ops) := by
  induction ops generalizing s with
  | nil => exact h
  | cons op ops ih => exact ih (h.moves (step_moves s op) ha.1) ha.2

/-- **A task resumes its own context** in every run in which a handler is entered only while no
other task is in one. -/
theorem sigreturn_resumes_own {s₀ : SigTab} (h₀ : s₀.Initial) (ops : List SigOp)
    (ha : EachStep Alone s₀ ops) (n : Slot) (hn : (s₀.run ops).running n ≠ []) (g : UFrame) :
    (sysSigreturn (s₀.run ops) n g).2 = some ((s₀.run ops).last n) := by
  have h : Own s₀ := fun k hk => absurd (h₀.running k) hk
  exact (h.run ha n hn).sysSigreturn n g

/-! ### Handlers unwind -/

/-- Every task in a handler is in one only, and its context and mask are those that were saved. -/
def Flat (s : SigTab) : Prop :=
  ∀ n, s.running n = [] ∨ ∃ x, s.running n = [x] ∧ Resumes s x.regs ∧
    s.handlerMaskSaved n = true ∧ s.handlerMask n = x.blocked ∧ x.nr ≤ s.entered n

/-- A handler is entered only if it is then the one handler that any task is in, from a frame that
can be gone back to. -/
def Single (s s' : SigTab) : Prop :=
  ∀ n, s'.entered n ≠ s.entered n →
    (∀ k, k ≠ n → s.running k = []) ∧ (∃ x, s'.running n = [x] ∧ x.nr = s'.entered n) ∧ (s'.last n).Resumable

theorem Flat.same (h : Flat s) (hs : Same s s') : Flat s' := fun n => by
  rw [hs.running, hs.mask, hs.saved, hs.entered]
  exact (h n).imp id fun ⟨x, hx, hr, hrest⟩ => ⟨x, hx, hr.congr hs.frame, hrest⟩

theorem Flat.drops (h : Flat s) (hs : Drops n s s') : Flat s' := fun k => by
  by_cases e : k = n
  · subst e
    left
    rcases hs.running with hr | hr
    · exact hr
    rcases h k with hz | ⟨x, hx, -⟩
    · rw [hr, hz]
      rfl
    · rw [hr, hx]
      rfl
  · obtain ⟨hr, hm, hsv⟩ := hs.others k e
    rw [hr, hm, hsv, hs.entered]
    exact (h k).imp id fun ⟨x, hx, hr, hrest⟩ => ⟨x, hx, hr.congr hs.frame, hrest⟩

theorem Flat.moves (h : Flat s) (hm : Moves s s') (ha : Single s s') : Flat s' := by
  refine hm.keeps h Flat.same Flat.drops fun n f prev s₁ ho₁ hrun he hne => ?_
  obtain ⟨hothers, ⟨x, hx, hnr⟩, hok⟩ := ha n hne
  rcases he.frame with ⟨hf, hmagic, hret, hregs, hlast, hr⟩ | ⟨-, -, hr⟩
  · intro k
    by_cases e : k = n
    · subst e
      have hl : s'.last k = f := by rw [hlast, update_self]
      rw [hl] at hok
      have hk : s'.running k = ⟨f, prev, s'.entered k⟩ :: s₁.running k := by
        rw [hr, update_self]
      obtain ⟨rfl, hz⟩ : (⟨f, prev, s'.entered k⟩ : Saved) = x ∧ s₁.running k = [] := by
        rw [hk] at hx
        exact List.cons.inj hx
      have hres : Resumes s' f := ⟨hmagic, hret, hregs, hok, frameOk_range hf⟩
      refine .inr ⟨⟨f, prev, s'.entered k⟩, by rw [hk, hz], hres, ?_, ?_, Nat.le_refl _⟩
      · rw [he.saved, update_self]
      · rw [he.mask, update_self]
    · left
      rw [hr, update_of_ne e]
      exact hrun k (hothers k e)
  · -- an entry that was refused is not the one the task is in
    have hup : s'.entered n = s₁.entered n + 1 := by rw [he.entered, update_self]
    rw [hr] at hx
    rcases ho₁ n with hz | ⟨y, hy, -, -, -, hle⟩
    · rw [hz] at hx
      cases hx
    rw [hy] at hx
    obtain rfl : y = x := (List.cons.inj hx).1
    omega

theorem Flat.run (h : Flat s) (ha : EachStep Single s ops) : Flat (s.run ops) := by
  induction ops generalizing s with
  | nil => exact h
  | cons op ops ih => exact ih (h.moves (step_moves s op) ha.1) ha.2

/-- **A handler's return restores what it interrupted**, the registers and the mask, in every run
in which no handler is entered while one is running. -/
theorem sigreturn_unwinds {s₀ : SigTab} (h₀ : s₀.Initial) (ops : List SigOp)
    (ha : EachStep Single s₀ ops) (n : Slot) (x : Saved) (rest : List Saved)
    (hn : (s₀.run ops).running n = x :: rest) (g : UFrame) :
    (sysSigreturn (s₀.run ops) n g).2 = some x.regs ∧ (sysSigreturn (s₀.run ops) n g).1.blocked n = x.blocked := by
  have h : Flat s₀ := fun k => .inl (h₀.running k)
  rcases h.run ha n with hz | ⟨y, hy, hres, hsv, hm, -⟩
  · rw [hz] at hn
    cases hn
  rw [hn] at hy
  obtain rfl : x = y := (List.cons.inj hy).1
  refine ⟨hres.sysSigreturn n g, ?_⟩
  have hb : ((s₀.run ops).sigreturnRestoreMask n).blocked n = x.blocked := by
    unfold sigreturnRestoreMask
    rw [if_pos hsv]
    exact (update_self ..).trans hm
  unfold sysSigreturn
  simp only
  split <;> exact hb

/-! ### Runs -/

/-- Two tasks, in slots 1 and 2. -/
def twoTasks : SigTab :=
  { oneTask with task := fun n => if n = 1 ∨ n = 2 then some {} else none }

/-- The frame with another instruction pointer. -/
def frameAt (eip : Word) : UFrame := { ring3Frame with eip := eip }

/-- A task installs a handler for `sig`, gets that signal and is interrupted at `eip`. -/
def deliverAt (n : Slot) (sig : Fin 32) (eip : Word) : List SigOp :=
  [.call n ring3Frame (.signal sig userProgStart), .post n sig, .timer n (frameAt eip)]

theorem twoTasks_initial : twoTasks.Initial := by
  refine ⟨fun _ => rfl, fun _ => rfl, fun _ => rfl, fun _ => rfl, fun _ => rfl, fun _ => rfl, ?_⟩
  intro n t ht k
  unfold twoTasks at ht
  simp only at ht
  split at ht
  · obtain rfl := Option.some.inj ht
    rfl
  · cases ht

/-- Both tasks install a handler, and the first is interrupted. -/
def bothInstall : List SigOp := .call 2 ring3Frame (.signal 12 userProgStart) :: deliverAt 1 10 0x08000100#32

/-- Only the last step enters a handler, while no other runs. -/
theorem deliverAt_each {P : SigTab → SigTab → Prop}
    (h : ∀ s s' : SigTab, (∀ k, s.running k = []) →
      (∀ n, s'.entered n ≠ s.entered n → n = 1 ∧ (∃ x, s'.running 1 = [x] ∧ x.nr = s'.entered 1) ∧
        (s'.last 1).Resumable) → P s s') :
    EachStep P twoTasks bothInstall := by
  refine ⟨h _ _ (fun _ => rfl) fun n hn => absurd rfl hn, h _ _ (fun _ => rfl) fun n hn => absurd rfl hn,
    h _ _ (fun _ => rfl) fun n hn => absurd rfl hn, h _ _ (fun _ => rfl) fun n hn => ?_, trivial⟩
  refine ⟨?_, ⟨_, rfl, rfl⟩, by decide⟩
  by_contra h₁
  exact hn (update_of_ne h₁ _ _)

theorem deliverAt_resumes :
    (sysSigreturn (twoTasks.run bothInstall) 1 ring3Frame).2 = some (frameAt 0x08000100#32) := by
  have hall : EachStep Alone twoTasks bothInstall :=
    deliverAt_each fun s s' hr he n hn => by
      obtain ⟨rfl, -, hok⟩ := he n hn
      exact ⟨fun k _ => hr k, hok⟩
  exact sigreturn_resumes_own twoTasks_initial _ hall 1 nofun ring3Frame

theorem deliverAt_unwinds :
    (sysSigreturn (twoTasks.run bothInstall) 1 ring3Frame).2 = some (frameAt 0x08000100#32) ∧
      (sysSigreturn (twoTasks.run bothInstall) 1 ring3Frame).1.blocked 1 = 0#32 := by
  have hall : EachStep Single twoTasks bothInstall :=
    deliverAt_each fun s s' hr he n hn => by
      obtain ⟨rfl, hx, hok⟩ := he n hn
      exact ⟨fun k _ => hr k, hx, hok⟩
  exact sigreturn_unwinds twoTasks_initial _ hall 1 ⟨frameAt 0x08000100#32, 0#32, 1⟩ [] rfl ring3Frame

/-- The first task's `sigreturn` goes on where the second was interrupted. -/
theorem sigreturn_resumes_other :
    (twoTasks.run (deliverAt 1 10 0x08000100#32 ++ deliverAt 2 10 0x08000200#32)).last 1 = frameAt 0x08000100#32 ∧
      (sysSigreturn (twoTasks.run (deliverAt 1 10 0x08000100#32 ++ deliverAt 2 10 0x08000200#32)) 1
        ring3Frame).2 = some (frameAt 0x08000200#32) :=
  ⟨rfl, rfl⟩

/-- A handler is interrupted by another signal.  The inner `sigreturn` goes back into the handler,
and so does the outer one; the outer one does not restore the mask. -/
theorem nested_sigreturn_lost :
    ∃ x y, (oneTask.run (deliverAt 1 10 0x08000100#32 ++ deliverAt 1 12 0x08000200#32)).running 1 =
        [y, x] ∧ x.regs = frameAt 0x08000100#32 ∧ y.regs = frameAt 0x08000200#32 ∧
      x.blocked = 0#32 ∧
      (sysSigreturn (oneTask.run (deliverAt 1 10 0x08000100#32 ++ deliverAt 1 12 0x08000200#32 ++
        [.call 1 ring3Frame .sigreturn])) 1 ring3Frame).2 = some (frameAt 0x08000200#32) ∧
      (sysSigreturn (oneTask.run (deliverAt 1 10 0x08000100#32 ++ deliverAt 1 12 0x08000200#32 ++
        [.call 1 ring3Frame .sigreturn])) 1 ring3Frame).1.blocked 1 = 0x400#32 :=
  ⟨_, _, rfl, rfl, rfl, by decide, rfl, by decide⟩

end Linux001
