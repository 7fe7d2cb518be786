import Linux001.Kernel.Sigreturn
import Linux001.Lib.Run

/-!
# Kernel — when `sigreturn` stops the machine

`sys_sigreturn` tests `sigreturn_frame` seven ways and ends in `cli; hlt` if a test fails.  Five of
the tests cannot fail once a frame has been built: the selectors and the instruction pointer are
those of a task in Ring3, and `deliver_signal` bounds the stack pointer.  Two can: nothing keeps a
task from calling `sigreturn` before any frame has been built, and `deliver_signal` does not look at
the two low bits of the stack pointer.

* `sysSigreturn_none_iff`: after any run of Ring3 tasks, those two are the only ways to halt.
* `never_halts`: a run in which `sigreturn` comes after a delivery and every frame that is delivered
  to has an aligned stack pointer does not halt.
* `sigreturn_halts`: one call of `sigreturn` at boot does.
-/

namespace Linux001

open Function SigTab

variable {s s' s₁ : SigTab} {n : Slot} {t : Task} {f g : UFrame} {op : SigOp}

/-! ### What a delivery does to the frame -/

/-- A frame that the processor pushes on the way out of Ring3. -/
structure UFrame.FromRing3 (f : UFrame) : Prop where
  eip : f.eip ≠ 0#32
  cs : f.cs = userCs
  ss : f.ss = userDs

theorem UFrame.FromRing3.eax (h : f.FromRing3) (w : Word) : { f with eax := w }.FromRing3 :=
  ⟨h.eip, h.cs, h.ss⟩

/-- The tests that `sys_sigreturn` makes of a frame that has been built, the alignment apart. -/
structure SigContext.Stored (c : SigContext) : Prop where
  retaddr : c.retaddr = userSigreturnEntry
  regs : c.regs.FromRing3
  range : userStackFloor ≤ c.regs.esp ∧ c.regs.esp < userWindowTop

/-- `do_signal` on behalf of the frame `f` leaves `sigreturn_frame` or builds it from `f`. -/
structure Built (f : UFrame) (s s' : SigTab) : Prop where
  mode : s'.mode = s.mode
  halted : s'.halted = s.halted
  frame : s'.sigreturnFrame = s.sigreturnFrame ∨ (f.FromRing3 → s'.sigreturnFrame.Stored)

namespace Built

theorem refl (f : UFrame) (s : SigTab) : Built f s s := ⟨rfl, rfl, .inl rfl⟩

theorem trans (h : Built f s s₁) (h' : Built f s₁ s') : Built f s s' where
  mode := h'.mode.trans h.mode
  halted := h'.halted.trans h.halted
  frame := by
    rcases h'.frame with e | hs
    · rw [e]
      exact h.frame
    · exact .inr hs

theorem of_tame (f : UFrame) (h : Tame s s') : Built f s s' := by
  obtain ⟨_, _, _, _, _, _, rfl⟩ := h
  exact ⟨rfl, rfl, .inl rfl⟩

theorem deliverSignal (f : UFrame) (s : SigTab) (n : Slot) (sig : ℕ) (handler prev : Word) :
    Built f s (deliverSignal s n sig handler prev f).1 := by
  unfold Linux001.deliverSignal
  split
  · next hok => exact ⟨rfl, rfl, .inr fun hf => ⟨rfl, hf, frameOk_range hok⟩⟩
  · exact refl f s

theorem enterHandler (f : UFrame) (s : SigTab) (n : Slot) (t : Task) (sig : Fin 32) :
    Built f s (enterHandler s n t sig f).1 := by
  have hmask := (of_tame f (.resetHandler s n t sig)).trans (of_tame f (.restoreSuspendMask _ n))
  have hpush : ∀ s₁ : SigTab, Built f s₁ (s₁.pushMask n sig) := fun s₁ => ⟨rfl, rfl, .inl rfl⟩
  exact (hmask.trans (hpush _)).trans (deliverSignal ..)

end Built

/-- The tables that `do_signal` leaves, however it ends. -/
def SigRet.tab : SigRet → SigTab
  | .done s _ => s
  | .exit s _ => s
  | .stop s _ => s

theorem sigLoop_built (n : Slot) (f : UFrame) (l : List ℕ) (s : SigTab) : Built f s (sigLoop n f l s).tab := by
  have rule : SigRule n f (Built f s) fun r => Built f s r.tab :=
    { task := fun h _ _ => h.trans (.of_tame f (.setTask ..))
      restore := fun h => h.trans (.of_tame f (.restoreSuspendMask ..))
      done := id
      enter := fun h _ _ => h.trans (.enterHandler ..)
      exit := fun _ => id
      stop := fun _ => id }
  exact rule.sigLoop l (.refl f s)

/-! ### The invariant -/

/-- Every frame that the kernel keeps is one of Ring3; `sigreturn_frame` as soon as it is built. -/
structure Framed (s : SigTab) : Prop where
  suspended : ∀ {n f new old}, s.mode n = .suspended f new old → f.FromRing3
  stopped : ∀ {n f rest}, s.mode n = .stopped f rest → f.FromRing3
  stored : s.sigreturnFrame.magic = sigframeMagic → s.sigreturnFrame.Stored

section
variable (h : Framed s)
include h

theorem Framed.built (hf : f.FromRing3) (hb : Built f s s') : Framed s' where
  suspended hm := h.suspended (hb.mode ▸ hm)
  stopped hm := h.stopped (hb.mode ▸ hm)
  stored hm := by
    rcases hb.frame with e | hs
    · rw [e] at hm ⊢
      exact h.stored hm
    · exact hs hf

/-- A task goes back to user mode, or its frame is kept. -/
theorem Framed.setMode {m : Mode} (hsus : ∀ {f new old}, m = .suspended f new old → f.FromRing3)
    (hstop : ∀ {f rest}, m = .stopped f rest → f.FromRing3)
    (hmode : s'.mode = update s.mode n m) (hframe : s'.sigreturnFrame = s.sigreturnFrame) :
    Framed s' where
  suspended hm := by
    rw [hmode] at hm
    rcases of_update_eq hm with ⟨-, e⟩ | ⟨-, hm⟩
    · exact hsus e
    · exact h.suspended hm
  stopped hm := by
    rw [hmode] at hm
    rcases of_update_eq hm with ⟨-, e⟩ | ⟨-, hm⟩
    · exact hstop e
    · exact h.stopped hm
  stored := by
    rw [hframe]
    exact h.stored

theorem Framed.user (hmode : s'.mode = update s.mode n .user)
    (hframe : s'.sigreturnFrame = s.sigreturnFrame) : Framed s' :=
  h.setMode (fun hm => by cases hm) (fun hm => by cases hm) hmode hframe

/-- Nothing that the invariant speaks of has changed. -/
theorem Framed.congr (hmode : s'.mode = s.mode)
    (hframe : s'.sigreturnFrame = s.sigreturnFrame) : Framed s' :=
  ⟨fun hm => h.suspended (hmode ▸ hm), fun hm => h.stopped (hmode ▸ hm), by rw [hframe]; exact h.stored⟩

theorem Framed.finish (hf : f.FromRing3) (l : List ℕ) :
    Framed (finish n f (sigLoop n f l s)) ∧ (finish n f (sigLoop n f l s)).halted = s.halted := by
  have hb := sigLoop_built n f l s
  cases hloop : sigLoop n f l s with
  | done s' f' =>
    rw [hloop] at hb
    exact ⟨(h.built hf hb).user rfl rfl, hb.halted⟩
  | exit s' sig =>
    rw [hloop] at hb
    exact ⟨(h.built hf hb).user rfl rfl, hb.halted⟩
  | stop s' rest =>
    rw [hloop] at hb
    refine ⟨(h.built hf hb).setMode (fun hm => by cases hm) (fun hm => ?_) rfl rfl, hb.halted⟩
    obtain ⟨rfl, rfl⟩ := Mode.stopped.inj hm
    exact hf

theorem Framed.ret (hf : f.FromRing3) :
    Framed (s.ret n f) ∧ (s.ret n f).halted = s.halted := by
  unfold SigTab.ret doSignal
  cases ht : s.task n with
  | none => exact ⟨h, rfl⟩
  | some t =>
    simp only
    split
    · exact ⟨h.user rfl rfl, rfl⟩
    · exact h.finish hf allSignals

/-! ### `sys_sigreturn` -/

/-- **The two ways to halt.** -/
theorem sysSigreturn_none_iff (n : Slot) (g : UFrame) :
    (sysSigreturn s n g).2 = none ↔
      s.sigreturnFrame.magic ≠ sigframeMagic ∨ s.sigreturnFrame.regs.esp &&& 3#32 ≠ 0#32 := by
  unfold sysSigreturn
  constructor
  · intro hnone
    by_contra hok
    rw [not_or, not_not, not_not] at hok
    obtain ⟨hmagic, halign⟩ := hok
    obtain ⟨hret, hregs, hlow, hhigh⟩ := h.stored hmagic
    rw [if_pos ⟨hmagic, hret, hregs.eip, hregs.cs, hregs.ss, halign, hlow, hhigh⟩] at hnone
    cases hnone
  · intro hbad
    rw [if_neg]
    rintro ⟨hmagic, -, -, -, -, halign, -⟩
    rcases hbad with h₁ | h₂
    · exact h₁ hmagic
    · exact h₂ halign

end

theorem sysSigreturn_some (hg : (sysSigreturn s n g).2 = some f) : f.FromRing3 := by
  unfold sysSigreturn at hg
  simp only at hg
  split at hg
  · next hok =>
    obtain rfl := Option.some.inj hg
    exact ⟨hok.2.2.1, hok.2.2.2.1, hok.2.2.2.2.1⟩
  · cases hg

theorem sysSigreturn_tab (s : SigTab) (n : Slot) (g : UFrame) :
    (sysSigreturn s n g).1.mode = s.mode ∧ (sysSigreturn s n g).1.halted = s.halted ∧
      (sysSigreturn s n g).1.sigreturnFrame = s.sigreturnFrame := by
  unfold sysSigreturn sigreturnRestoreMask
  simp only
  split <;> split <;> exact ⟨rfl, rfl, rfl⟩

/-! ### Operations and runs -/

/-- The frames of an operation are those of a task in Ring3. -/
def SigOp.FromRing3 : SigOp → Prop
  | .call _ f _ => f.FromRing3
  | .timer _ f => f.FromRing3
  | _ => True

/-- `sigreturn` is called after a frame has been built, and a frame is built only from an aligned
stack pointer. -/
structure SigOp.Careful (s : SigTab) (op : SigOp) : Prop where
  built : ∀ {n f}, op = .call n f .sigreturn → s.sigreturnFrame.magic = sigframeMagic
  aligned : (s.step op).sigreturnFrame = s.sigreturnFrame ∨ (s.step op).sigreturnFrame.regs.esp &&& 3#32 = 0#32

/-- Neither a mode nor the frame has changed. -/
structure SameFrames (s s' : SigTab) : Prop where
  mode : s'.mode = s.mode
  frame : s'.sigreturnFrame = s.sigreturnFrame
  halted : s'.halted = s.halted

theorem SameFrames.of_tame (h : Tame s s') : SameFrames s s' := by
  obtain ⟨_, _, _, _, _, _, rfl⟩ := h
  exact ⟨rfl, rfl, rfl⟩

theorem Framed.ret_sameFrames (h : Framed s) (hf : f.FromRing3) (hq : SameFrames s s₁) :
    Framed (s₁.ret n f) ∧ (s₁.ret n f).halted = s.halted := by
  obtain ⟨h₁, h₂⟩ := (h.congr hq.mode hq.frame).ret hf
  exact ⟨h₁, h₂.trans hq.halted⟩

/-- The machine is halted by this operation only if it is a `sigreturn` that finds a bad frame. -/
def HaltsBy (s : SigTab) (op : SigOp) (s' : SigTab) : Prop :=
  s'.halted = s.halted ∨ ∃ n f, op = .call n f .sigreturn ∧ (sysSigreturn s n f).2 = none

theorem Framed.call (h : Framed s) (hf : f.FromRing3) (c : Call) :
    Framed (s.call n t f c) ∧ HaltsBy s (.call n f c) (s.call n t f c) := by
  cases c with
  | signal sig handler => exact (h.ret_sameFrames (hf.eax _) (.of_tame (.sysSignal ..))).imp id .inl
  | sigaction sig act => exact (h.ret_sameFrames (hf.eax _) (.of_tame (.sysSigaction ..))).imp id .inl
  | sigprocmask how set => exact (h.ret_sameFrames (hf.eax _) (.of_tame (.sysSigprocmask ..))).imp id .inl
  | sigsuspend mask =>
    refine ⟨h.setMode (fun hm => ?_) (fun hm => by cases hm) rfl rfl, .inl rfl⟩
    obtain ⟨rfl, rfl, rfl⟩ := Mode.suspended.inj hm
    exact hf
  | sigreturn =>
    obtain ⟨hmode, hhalt, hframe⟩ := sysSigreturn_tab s n f
    have hsome : ∀ f', (sysSigreturn s n f).2 = some f' → f'.FromRing3 := fun f' => sysSigreturn_some
    have hnone : (sysSigreturn s n f).2 = none → HaltsBy s (.call n f .sigreturn) (s.call n t f .sigreturn) :=
      fun e => .inr ⟨n, f, rfl, e⟩
    unfold SigTab.call at hnone ⊢
    generalize sysSigreturn s n f = r at *
    obtain ⟨s₁, _ | f'⟩ := r
    · exact ⟨h.congr hmode hframe, hnone rfl⟩
    · exact (h.ret_sameFrames (hsome f' rfl) ⟨hmode, hframe, hhalt⟩).imp id .inl
  | other r => exact (h.ret (hf.eax r)).imp id .inl

/-- **What one operation does**: the frames stay those of Ring3, and only a `sigreturn` halts. -/
theorem Framed.step (h : Framed s) (hop : op.FromRing3) :
    Framed (s.step op) ∧ HaltsBy s op (s.step op) := by
  refine step_rule (Q := fun s' => Framed s' ∧ HaltsBy s op s') ⟨h, .inl rfl⟩ (fun e _ => ?_)
    (fun e => ?_) (fun hm => ?_) (fun hm => (h.finish (h.stopped hm) _).imp id .inl) (fun {n sig} => ?_)
    (fun _ _ => ⟨h.user rfl rfl, .inl rfl⟩) ⟨h.user rfl rfl, .inl rfl⟩
  · subst e
    exact h.call hop _
  · subst e
    exact (h.ret hop).imp id .inl
  · exact (h.ret_sameFrames ((h.suspended hm).eax _) (.of_tame ⟨_, _, _, _, _, _, rfl⟩)).imp id .inl
  · have hq := SameFrames.of_tame (.post s n sig)
    exact ⟨h.congr hq.mode hq.frame, .inl hq.halted⟩

/-- The tables at boot, before a frame has been built. -/
structure SigTab.Booted (s : SigTab) : Prop extends s.Initial where
  frame : s.sigreturnFrame.magic ≠ sigframeMagic
  halted : s.halted = false

theorem SigTab.Booted.framed (h : s.Booted) : Framed s where
  suspended {n _ _ _} hm := by
    rw [h.mode n] at hm
    cases hm
  stopped {n _ _} hm := by
    rw [h.mode n] at hm
    cases hm
  stored hm := absurd hm h.frame

/-- What a careful run keeps: the machine goes on, and a frame that has been built is aligned. -/
structure Alive (s : SigTab) : Prop extends Framed s where
  halted : s.halted = false
  aligned : s.sigreturnFrame.magic = sigframeMagic → s.sigreturnFrame.regs.esp &&& 3#32 = 0#32

theorem Alive.step (h : Alive s) (hop : op.FromRing3 ∧ op.Careful s) :
    Alive (s.step op) := by
  obtain ⟨hr, hc⟩ := hop
  obtain ⟨hf, hhalt⟩ := h.toFramed.step hr
  refine ⟨hf, ?_, fun hm => ?_⟩
  · rcases hhalt with e | ⟨n, f, rfl, hnone⟩
    · rw [e, h.halted]
    have hmagic := hc.built rfl
    rcases (sysSigreturn_none_iff h.toFramed n f).mp hnone with h₁ | h₂
    · exact absurd hmagic h₁
    · exact absurd (h.aligned hmagic) h₂
  · rcases hc.aligned with e | ha
    · rw [e] at hm ⊢
      exact h.aligned hm
    · exact ha

/-- **No Ring3 task stops the machine**, in a run in which `sigreturn` is called only after a frame
has been built and no frame is built from a stack pointer that is not a multiple of four. -/
theorem never_halts {s₀ : SigTab} (h₀ : s₀.Booted) (ops : List SigOp)
    (hops : Run.Guarded SigTab.step (fun s op => op.FromRing3 ∧ op.Careful s) s₀ ops) :
    (s₀.run ops).halted = false :=
  (Run.Guarded.inv (I := Alive) (fun h hop => h.step hop) hops
    ⟨h₀.framed, h₀.halted, fun hm => absurd hm h₀.frame⟩).halted

theorem oneTask_booted : oneTask.Booted := ⟨oneTask_initial, by decide, rfl⟩

theorem twoTasks_booted : twoTasks.Booted := ⟨twoTasks_initial, by decide, rfl⟩

theorem ring3Frame_ok : ring3Frame.FromRing3 := ⟨by decide, rfl, rfl⟩

theorem never_halts_deliverAt :
    (twoTasks.run (deliverAt 1 10 0x08000100#32 ++ [.call 1 ring3Frame .sigreturn])).halted = false :=
  never_halts twoTasks_booted _
    ⟨⟨ring3Frame_ok, nofun, .inl rfl⟩, ⟨trivial, nofun, .inl rfl⟩, ⟨⟨by decide, rfl, rfl⟩, nofun, .inr (by decide)⟩,
      ⟨ring3Frame_ok, fun _ => rfl, .inl rfl⟩, trivial⟩

/-- **One call of `sigreturn` at boot halts the machine.**  So does one after a handler was entered
with an odd stack pointer. -/
theorem sigreturn_halts :
    oneTask.Booted ∧ ring3Frame.FromRing3 ∧
    (oneTask.run [.call 1 ring3Frame .sigreturn]).halted = true ∧
    (oneTask.run [.call 1 ring3Frame (.signal 10 userProgStart), .post 1 10,
      .timer 1 { ring3Frame with esp := ring3Frame.esp + 1#32 },
      .call 1 ring3Frame .sigreturn]).halted = true :=
  ⟨oneTask_booted, ring3Frame_ok, rfl, rfl⟩

end Linux001
